import Mathlib.Data.List.Induction
import Mathlib.Algebra.Group.Nat.Defs
import Mathlib.Logic.Function.Basic
import Mathlib.Tactic.Common

/-!
# The PWM driver (`libraries/HAL_Drivers/drv_pwm.c`)

`drv_pwm_set` programs one channel of a timer whose prescaler, auto-reload register and counter serve all
its channels. It writes the shared registers on every call, sets the counter to zero and forces an update
event. Times are in nanoseconds, `timClock` is the timer clock in MHz (`tim_clock` after its division).

`other_channel_kept` says what a call with the period already programmed does to the other channels, and
`registers_after_calls` what the registers hold after any calls with one period.
-/

namespace ThyristorController

/-! ## The driver -/

/-- `MAX_PERIOD`, `MIN_PERIOD` and `MIN_PULSE`, in timer ticks. -/
def maxPeriod : Nat := 65535
def minPeriod : Nat := 3
def minPulse : Nat := 1

inductive CompareReg where
  | ccr1 | ccr2 | ccr3 | ccr4
deriving DecidableEq

/-- The registers of a timer that the driver writes. -/
structure Tim where
  psc : Nat
  arr : Nat
  cnt : Nat
  ccr : CompareReg → Nat

/-- `struct rt_pwm_configuration`. -/
structure PwmConfiguration where
  channel : Nat
  period : Nat
  pulse : Nat

/-- The channel number of the HAL: `0x04 * (channel - 1)`, in unsigned 32-bit arithmetic. -/
def halChannel (channel : Nat) : Nat := 0x04 * ((channel + (2 ^ 32 - 1)) % 2 ^ 32) % 2 ^ 32

/-- The register that `__HAL_TIM_SET_COMPARE` writes. -/
def compareReg (halChannel : Nat) : CompareReg :=
  if halChannel = 0x0 then .ccr1
  else if halChannel = 0x4 then .ccr2
  else if halChannel = 0x8 then .ccr3
  else .ccr4

/-- `HAL_TIM_GenerateEvent` with `TIM_EVENTSOURCE_UPDATE`: the counter starts again. -/
def updateEvent (tim : Tim) : Tim := { tim with cnt := 0 }

/-- `drv_pwm_set`. -/
def drvPwmSet (timClock : Nat) (tim : Tim) (configuration : PwmConfiguration) : Tim :=
  let channel := halChannel configuration.channel
  let period := configuration.period * timClock / 1000 % 2 ^ 32
  let psc := period / maxPeriod + 1
  let period := period / psc
  let tim := { tim with psc := psc - 1 }
  let period := if period < minPeriod then minPeriod else period
  let tim := { tim with arr := period - 1 }
  let pulse := configuration.pulse * timClock / psc / 1000 % 2 ^ 32
  let pulse := if pulse < minPulse then minPulse else if pulse > period then period else pulse
  let tim := { tim with ccr := Function.update tim.ccr (compareReg channel) (pulse - 1) }
  let tim := { tim with cnt := 0 }
  updateEvent tim

/-- The division of the timer clock, `TIM_CLOCKDIVISION_DIV1` after `stm32_hw_pwm_init`. -/
inductive ClockDivision where
  | div1 | div2 | div4
deriving DecidableEq

/-- `drv_pwm_get`; `timClock` is the timer clock in Hz here. The products are in unsigned 32-bit arithmetic. -/
def drvPwmGet (timClock : Nat) (clockDivision : ClockDivision) (tim : Tim) (configuration : PwmConfiguration) :
    PwmConfiguration :=
  let channel := halChannel configuration.channel
  let timClock := match clockDivision with
    | .div1 => timClock
    | .div2 => timClock / 2
    | .div4 => timClock / 4
  let timClock := timClock / 1000000
  { configuration with
    period := (tim.arr + 1) * (tim.psc + 1) * 1000 % 2 ^ 32 / timClock
    pulse := (tim.ccr (compareReg channel) + 1) * (tim.psc + 1) * 1000 % 2 ^ 32 / timClock }

/-! ## What is programmed -/

/-- The prescaler register that a call sets for the period. -/
def programmedPsc (timClock period : Nat) : Nat := period * timClock / 1000 % 2 ^ 32 / maxPeriod

/-- The period in prescaled ticks. -/
def programmedTicks (timClock period : Nat) : Nat :=
  let ticks := period * timClock / 1000 % 2 ^ 32 / (programmedPsc timClock period + 1)
  if ticks < minPeriod then minPeriod else ticks

/-- The compare register that a call sets for the pulse. -/
def programmedCompare (timClock period pulse : Nat) : Nat :=
  let ticks := pulse * timClock / (programmedPsc timClock period + 1) / 1000 % 2 ^ 32
  (if ticks < minPulse then minPulse
    else if ticks > programmedTicks timClock period then programmedTicks timClock period else ticks) - 1

/-- The timer runs with the period. -/
def Programmed (timClock period : Nat) (tim : Tim) : Prop :=
  tim.psc = programmedPsc timClock period ∧ tim.arr = programmedTicks timClock period - 1

theorem drvPwmSet_eq (timClock : Nat) (tim : Tim) (c : PwmConfiguration) :
    drvPwmSet timClock tim c =
      { psc := programmedPsc timClock c.period
        arr := programmedTicks timClock c.period - 1
        cnt := 0
        ccr := Function.update tim.ccr (compareReg (halChannel c.channel))
          (programmedCompare timClock c.period c.pulse) } := by
  unfold drvPwmSet updateEvent programmedCompare programmedTicks programmedPsc
  dsimp only
  rw [Nat.add_sub_cancel]

theorem programmed_drvPwmSet (timClock : Nat) (tim : Tim) (c : PwmConfiguration) :
    Programmed timClock c.period (drvPwmSet timClock tim c) := by
  rw [drvPwmSet_eq]
  exact ⟨rfl, rfl⟩

theorem halChannel_eq {c : Nat} (hc : 1 ≤ c ∧ c ≤ 4) : halChannel c = 4 * (c - 1) := by
  unfold halChannel
  omega

theorem compareReg_ne {c d : Nat} (hc : 1 ≤ c ∧ c ≤ 4) (hd : 1 ≤ d ∧ d ≤ 4) (hne : c ≠ d) :
    compareReg (halChannel c) ≠ compareReg (halChannel d) := by
  rw [halChannel_eq hc, halChannel_eq hd]
  unfold compareReg
  split_ifs <;> first
    | omega
    | simp

/-- A call with the period already programmed leaves the compare value of every other channel, the
auto-reload and the prescaler alone; the counter starts again from zero. -/
theorem other_channel_kept {timClock : Nat} {tim : Tim} {c : PwmConfiguration}
    (hprog : Programmed timClock c.period tim) (hc : 1 ≤ c.channel ∧ c.channel ≤ 4) {d : Nat}
    (hd : 1 ≤ d ∧ d ≤ 4) (hne : c.channel ≠ d) :
    (drvPwmSet timClock tim c).ccr (compareReg (halChannel d)) = tim.ccr (compareReg (halChannel d)) ∧
      (drvPwmSet timClock tim c).arr = tim.arr ∧ (drvPwmSet timClock tim c).psc = tim.psc ∧
      (drvPwmSet timClock tim c).cnt = 0 := by
  obtain ⟨hpsc, harr⟩ := hprog
  rw [drvPwmSet_eq, hpsc, harr]
  dsimp only
  rw [Function.update_of_ne (compareReg_ne hd hc (Ne.symm hne))]
  simp only [and_self]

/-- Channel 2 is set with the period that channel 1 runs with. -/
theorem other_channel_kept_run :
    let tim := drvPwmSet 168 ⟨0, 0, 0, fun _ => 0⟩ ⟨1, 20000000, 2000000⟩
    (drvPwmSet 168 tim ⟨2, 20000000, 0⟩).ccr .ccr1 = tim.ccr .ccr1 := by
  exact (other_channel_kept (programmed_drvPwmSet 168 _ ⟨1, 20000000, 2000000⟩) (c := ⟨2, 20000000, 0⟩)
    (by decide) (d := 1) (by decide) (by decide)).1

/-- A pulse on channel 1 has run for 5000 ticks when channel 2 is set, with the same period: the counter
that both share goes back to zero. -/
theorem counter_restarted :
    let tim : Tim := { drvPwmSet 168 ⟨0, 0, 0, fun _ => 0⟩ ⟨1, 20000000, 2000000⟩ with cnt := 5000 }
    Programmed 168 20000000 tim ∧ tim.cnt ≠ (drvPwmSet 168 tim ⟨2, 20000000, 2000000⟩).cnt := by
  exact ⟨programmed_drvPwmSet _ _ _, by decide⟩

/-! ## Calls in a row -/

/-- A call of the driver, or the counter having moved on. -/
inductive PwmEvent where
  | set (c : PwmConfiguration)
  | count (cnt : Nat)

def Tim.after (timClock : Nat) (tim : Tim) : PwmEvent → Tim
  | .set c => drvPwmSet timClock tim c
  | .count cnt => { tim with cnt := cnt }

/-- The pulse of the last call for channel `d`. -/
def lastPulse (d : Nat) (pulse : Option Nat) : PwmEvent → Option Nat
  | .set c => if c.channel = d then some c.pulse else pulse
  | .count _ => pulse

theorem registers_after_calls {timClock period d : Nat} {tim : Tim} (hprog : Programmed timClock period tim)
    (hd : 1 ≤ d ∧ d ≤ 4) (events : List PwmEvent)
    (hcalls : ∀ c, .set c ∈ events → c.period = period ∧ 1 ≤ c.channel ∧ c.channel ≤ 4) :
    Programmed timClock period (events.foldl (Tim.after timClock) tim) ∧
      (events.foldl (Tim.after timClock) tim).ccr (compareReg (halChannel d)) =
        ((events.foldl (lastPulse d) none).map (programmedCompare timClock period)).getD
          (tim.ccr (compareReg (halChannel d))) := by
  induction events using List.reverseRecOn with
  | nil => exact ⟨hprog, rfl⟩
  | append_singleton events e ih =>
    obtain ⟨hp, hccr⟩ := ih fun c hc => hcalls c (List.mem_append_left _ hc)
    rw [List.foldl_append, List.foldl_append]
    cases e with
    | count cnt => exact ⟨hp, hccr⟩
    | set c =>
      obtain ⟨rfl, hc⟩ := hcalls c (by simp)
      refine ⟨programmed_drvPwmSet _ _ _, ?_⟩
      simp only [List.foldl_cons, List.foldl_nil, lastPulse, Tim.after]
      by_cases hcd : c.channel = d
      · rw [if_pos hcd, ← hcd, drvPwmSet_eq, Option.map_some, Option.getD_some]
        dsimp only
        rw [Function.update_self]
      · rw [if_neg hcd, ← hccr]
        exact (other_channel_kept hp hc hd hcd).1

end ThyristorController
