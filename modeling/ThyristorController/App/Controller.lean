import ThyristorController.Lib.Run
import ThyristorController.Kernel.Semaphore
import ThyristorController.App.Params
import ThyristorController.App.Adc
import Mathlib.Data.Fintype.Pi

/-!
# The controller as a transition system (`applications/`)

The threads `gpio_entry`, `read_knob_vol_entry` and `pwm_thread_entry` as statement-by-statement steps
over the shared variables, the zero-cross callbacks `PHASE_U_cb`, `PHASE_V_cb`, `PHASE_W_cb` and the
timer callback `control_hwtimer_cb` as atomic steps that may come between any two statements. An
`Action` says whose step is next and carries its inputs: raw samples, pin levels, the outcome of a
format. `serial_thread_entry` takes part through the pairs it hands to `para_write`.

Statements that touch only variables of one thread are merged: the two sampling loops are one step.
The initial state is the one in which `main` has run: the semaphore is initialised and the three
channels have been set to pulse 0, all other threads having a lower priority.
-/

namespace ThyristorController

open Transition

/-! ## The state -/

/-- Numerals for the PWM channels and the ADC channels. -/
instance pwmNeZero : NeZero 4 := ⟨by decide⟩
instance adcNeZero : NeZero 7 := ⟨by decide⟩

inductive Thread where
  | gpio | adc | pwm | serial
deriving DecidableEq

/-- The three zero-cross inputs. -/
inductive Phase where
  | U | V | W
deriving DecidableEq

/-- The statements of the shut-down loop's body, in order. -/
inductive OffPc where
  | pulse | status | percentage | record | relayOn | delay | relayOff
deriving DecidableEq

/-- The next statement of `pwm_thread_entry`; `blocked` is inside `rt_sem_take`. -/
inductive PwmPc where
  | take | blocked | test | reset | wait | fire | clear
  | off (i : Fin 4) (pc : OffPc)
deriving DecidableEq

/-- The next statement of `read_knob_vol_entry`. -/
inductive AdcPc where
  | sample | testRecord | testVoltage | release | testPercentage
  | scan (j : Fin 19)
  | setPercentage (j : Fin 19)
  | setChange | delay
deriving DecidableEq

/-- The next statement of `gpio_entry`. -/
inductive GpioPc where
  | setting | testStart | paraRead | record | copyPre | readPins | testStable | update | delay
deriving DecidableEq

/-- `GPIO_Port`: the 32 bits of its word. -/
abbrev GpioPort := Fin 32 → Bool

/-- The levels `rt_pin_read` finds. -/
structure Pins where
  phaseU : Bool
  phaseV : Bool
  phaseW : Bool
  mi1 : Bool
  mi2 : Bool

/-- The shared variables, the outputs and the program points. `count` is kept modulo `2 ^ 32`: the
code compares it as an unsigned number. `pwmSet` is the pulse of the last `rt_pwm_set` of a channel. -/
structure State where
  runRecord : Nat
  pwm1Status : Fin 4 → Nat
  pwm1Start : Fin 4
  percentageChange : Nat
  percentageSet : Int
  count : Nat
  pwm1Sem : RtSemaphore Thread
  voltageSet : Int
  currentSet : Int
  volume : Volume
  adcVoltage : Fin 7 → Int
  lastVoltage : Fin 7 → Int
  gpioPort : GpioPort
  portPre : GpioPort
  portIn : GpioPort
  pwmSet : Fin 4 → Nat
  gpioMO1 : Nat
  pwmPc : PwmPc
  adcPc : AdcPc
  gpioPc : GpioPc

/-- The state in which the threads start, with whatever the flash holds. -/
def initState (volume : Volume) : State where
  runRecord := 0
  pwm1Status := fun _ => 0
  pwm1Start := 0
  percentageChange := 0
  percentageSet := 5
  count := 0
  pwm1Sem := rtSemInit 0 (Nat.zero_le _)
  voltageSet := voltageSetInit
  currentSet := currentSetInit
  volume := volume
  adcVoltage := fun _ => 0
  lastVoltage := fun _ => 0
  gpioPort := fun _ => false
  portPre := fun _ => false
  portIn := fun _ => false
  pwmSet := fun _ => 0
  gpioMO1 := 0
  pwmPc := .take
  adcPc := .sample
  gpioPc := .setting

/-! ## The interrupts (`main.c`) -/

/-- `rt_sem_release(&pwm1_sem)`: a resumed `pwm_thread_entry` is behind its `rt_sem_take`. -/
def releasePwm1Sem (s : State) : State :=
  match rtSemRelease s.pwm1Sem with
  | (sem, .resumed _) => { s with pwm1Sem := sem, pwmPc := .test }
  | (sem, _) => { s with pwm1Sem := sem }

/-- The condition of a zero-cross callback; `turn` is the value of `percentage_change` it waits for. -/
def PhaseGuard (channel : Fin 4) (turn : Nat) (s : State) : Prop :=
  (s.runRecord = 1 ∧ s.pwm1Status channel = 0) ∨ s.percentageChange = turn

instance (channel : Fin 4) (turn : Nat) (s : State) : Decidable (PhaseGuard channel turn s) :=
  inferInstanceAs (Decidable (_ ∨ _))

/-- The common text of the three zero-cross callbacks. -/
def phaseCb (channel : Fin 4) (turn : Nat) (s : State) : State :=
  if PhaseGuard channel turn s then
    releasePwm1Sem
      { s with
        percentageChange := if s.percentageChange = turn then s.percentageChange - 1 else s.percentageChange
        pwm1Status := Function.update s.pwm1Status channel 1
        pwm1Start := channel }
  else s

def phaseUCb (s : State) : State := phaseCb 1 3 s
def phaseVCb (s : State) : State := phaseCb 2 2 s
def phaseWCb (s : State) : State := phaseCb 3 1 s

namespace Phase

def channel : Phase → Fin 4
  | .U => 1
  | .V => 2
  | .W => 3

def turn : Phase → Nat
  | .U => 3
  | .V => 2
  | .W => 1

def cb : Phase → State → State
  | .U => phaseUCb
  | .V => phaseVCb
  | .W => phaseWCb

theorem cb_eq (p : Phase) (s : State) : p.cb s = phaseCb p.channel p.turn s := by
  cases p <;> rfl

theorem channel_ne_zero (p : Phase) : p.channel ≠ 0 := by
  cases p <;> decide

end Phase

/-- `control_hwtimer_cb`. -/
def controlHwtimerCb (s : State) : State := { s with count := (s.count + 1) % 2 ^ 32 }

/-! ## The threads -/

/-- `period` and `pulse`, in ns. -/
def period : Nat := 10000000
def pulse : Nat := 1000000

/-- `period/100000 *(100 - percentage_set)/100`, in unsigned 32-bit arithmetic. -/
def waitTicks (percentageSet : Int) : Nat :=
  period / 100000 * ((100 - percentageSet) % 2 ^ 32).toNat % 2 ^ 32 / 100

/-- Where the shut-down loop goes after its body for channel `i`. -/
def nextOff (i : Fin 4) : PwmPc :=
  if h : i.val + 1 < 4 then .off ⟨i.val + 1, h⟩ .pulse else .take

/-- One statement of `pwm_thread_entry` (`PWM_sample.c`). -/
def pwmThreadEntry (s : State) : Option State :=
  match s.pwmPc with
  | .take =>
    match rtSemTake s.pwm1Sem .pwm with
    | (sem, true) => some { s with pwm1Sem := sem, pwmPc := .test }
    | (sem, false) => some { s with pwm1Sem := sem, pwmPc := .blocked }
  | .blocked => none
  | .test => some { s with pwmPc := if s.pwm1Start ≠ 0 then .reset else .off 1 .pulse }
  | .reset => some { s with count := 0, pwmPc := .wait }
  | .wait => some (if s.count ≤ waitTicks s.percentageSet then s else { s with pwmPc := .fire })
  | .fire => some { s with pwmSet := Function.update s.pwmSet s.pwm1Start (pulse * 2), pwmPc := .clear }
  | .clear => some { s with pwm1Start := 0, pwmPc := .take }
  | .off i .pulse => some { s with pwmSet := Function.update s.pwmSet i 0, pwmPc := .off i .status }
  | .off i .status =>
    some { s with pwm1Status := Function.update s.pwm1Status i 0, pwmPc := .off i .percentage }
  | .off i .percentage => some { s with percentageSet := 5, pwmPc := .off i .record }
  | .off i .record => some { s with runRecord := 0, pwmPc := .off i .relayOn }
  | .off i .relayOn => some { s with gpioMO1 := 1, pwmPc := .off i .delay }
  | .off i .delay => some { s with pwmPc := .off i .relayOff }
  | .off i .relayOff => some { s with gpioMO1 := 0, pwmPc := nextOff i }

/-- Where the table loop goes after entry `j` did not match. -/
def nextScan (j : Fin 19) : AdcPc :=
  if h : j.val + 1 < 19 then .scan ⟨j.val + 1, h⟩ else .delay

/-- One statement of `read_knob_vol_entry` (`AD_read.c`); `raw` is what `rt_adc_read` returns. -/
def readKnobVolEntry (raw : Fin 7 → Fin 4096) (s : State) : State :=
  match s.adcPc with
  | .sample =>
    let adcVoltage := fun i => lowPass binary32 (convert i (raw i)) (s.lastVoltage i)
    { s with adcVoltage := adcVoltage, lastVoltage := adcVoltage, adcPc := .testRecord }
  | .testRecord => { s with adcPc := if s.runRecord = 1 then .testVoltage else .delay }
  | .testVoltage => { s with adcPc := if s.adcVoltage 1 ≥ s.voltageSet then .release else .testPercentage }
  | .release => releasePwm1Sem { s with adcPc := .testPercentage }
  | .testPercentage => { s with adcPc := if s.percentageSet < 100 then .scan 0 else .delay }
  | .scan j =>
    { s with
      adcPc :=
        if s.adcVoltage 1 ≥ voltagePercentageTable 0 j.castSucc ∧
            s.percentageSet ≤ voltagePercentageTable 1 j.castSucc then .setPercentage j
        else nextScan j }
  | .setPercentage j => { s with percentageSet := voltagePercentageTable 1 j.succ, adcPc := .setChange }
  | .setChange => { s with percentageChange := 3, adcPc := .delay }
  | .delay => { s with adcPc := .sample }

/-- `read_all_pin`. -/
def readAllPin (pins : Pins) (port : GpioPort) : GpioPort :=
  Function.update (Function.update (Function.update (Function.update (Function.update port
    1 (!pins.phaseU)) 2 (!pins.phaseV)) 3 (!pins.phaseW)) 4 (!pins.mi1)) 5 (!pins.mi2)

/-- One statement of `gpio_entry` (`main.c`). -/
def gpioEntry (pins : Pins) (mkfsOk : Bool) (s : State) : State :=
  match s.gpioPc with
  | .setting => { s with gpioMO1 := 0, gpioPc := .testStart }
  | .testStart =>
    { s with gpioPc := if s.gpioPort 4 = false ∧ s.gpioPort 5 = true then .paraRead else .copyPre }
  | .paraRead =>
    let (volume, voltageSet, currentSet) := paraRead s.volume s.voltageSet s.currentSet mkfsOk
    { s with volume := volume, voltageSet := voltageSet, currentSet := currentSet, gpioPc := .record }
  | .record => { s with runRecord := 1, gpioPc := .copyPre }
  | .copyPre => { s with portPre := s.portIn, gpioPc := .readPins }
  | .readPins => { s with portIn := readAllPin pins s.portIn, gpioPc := .testStable }
  | .testStable => { s with gpioPc := if s.portPre = s.portIn then .update else .copyPre }
  | .update =>
    { s with gpioPort := if s.gpioPort ≠ s.portIn then s.portIn else s.gpioPort, gpioPc := .delay }
  | .delay => { s with gpioPc := .testStart }

/-! ## The system -/

/-- Whose step is next, with its inputs. -/
inductive Action where
  | phase (p : Phase)
  | tick
  | adc (raw : Fin 7 → Fin 4096)
  | gpio (pins : Pins) (mkfsOk : Bool)
  | pwm
  | serial (voltageRecv currentRecv : UInt16)

def step (s : State) : Action → Option State
  | .phase p => some (p.cb s)
  | .tick => some (controlHwtimerCb s)
  | .adc raw => some (readKnobVolEntry raw s)
  | .gpio pins mkfsOk => some (gpioEntry pins mkfsOk s)
  | .pwm => pwmThreadEntry s
  | .serial v c => some { s with volume := paraWrite s.volume v.toNat c.toNat }

/-- The controller, started with any flash contents. -/
def controller : System State Action where
  init s := ∃ volume, s = initState volume
  step := step

abbrev Past := History State Action

end ThyristorController
