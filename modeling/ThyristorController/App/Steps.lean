import ThyristorController.App.Controller

/-!
# What one step can do

The frame of each kind of step, the three outcomes of a release (the blocked PWM thread gets the
token, the value stores it, or the release fails), the statements of `pwm_thread_entry` as an inversion
lemma, and the events that the claims count. Invariants use these facts and do not unfold the threads'
statements again.
-/

namespace ThyristorController

open Transition

variable {s s' : State}

theorem waitTicks_eq {p : Int} (hlo : 5 ≤ p) (hhi : p ≤ 100) : (waitTicks p : Int) = 100 - p := by
  have hmod : (100 - p) % 2 ^ 32 = 100 - p := Int.emod_eq_of_lt (by omega) (by omega)
  rw [waitTicks, period, hmod]
  omega

/-! ## Releasing `pwm1_sem` -/

theorem releasePwm1Sem_eq (s : State) :
    releasePwm1Sem s = { s with
      pwm1Sem := (rtSemRelease s.pwm1Sem).1
      pwmPc := (releasePwm1Sem s).pwmPc } := by
  unfold releasePwm1Sem
  split
  · next h => simp [h]
  · next h => simp [h]

section frame

variable (s : State)

@[simp] theorem releasePwm1Sem_runRecord : (releasePwm1Sem s).runRecord = s.runRecord := by rw [releasePwm1Sem_eq]
@[simp] theorem releasePwm1Sem_pwm1Status : (releasePwm1Sem s).pwm1Status = s.pwm1Status := by rw [releasePwm1Sem_eq]
@[simp] theorem releasePwm1Sem_pwm1Start : (releasePwm1Sem s).pwm1Start = s.pwm1Start := by rw [releasePwm1Sem_eq]
@[simp] theorem releasePwm1Sem_percentageChange :
    (releasePwm1Sem s).percentageChange = s.percentageChange := by rw [releasePwm1Sem_eq]
@[simp] theorem releasePwm1Sem_percentageSet :
    (releasePwm1Sem s).percentageSet = s.percentageSet := by rw [releasePwm1Sem_eq]
@[simp] theorem releasePwm1Sem_count : (releasePwm1Sem s).count = s.count := by rw [releasePwm1Sem_eq]
@[simp] theorem releasePwm1Sem_voltageSet : (releasePwm1Sem s).voltageSet = s.voltageSet := by rw [releasePwm1Sem_eq]
@[simp] theorem releasePwm1Sem_adcVoltage : (releasePwm1Sem s).adcVoltage = s.adcVoltage := by rw [releasePwm1Sem_eq]
@[simp] theorem releasePwm1Sem_lastVoltage : (releasePwm1Sem s).lastVoltage = s.lastVoltage := by rw [releasePwm1Sem_eq]
@[simp] theorem releasePwm1Sem_pwmSet : (releasePwm1Sem s).pwmSet = s.pwmSet := by rw [releasePwm1Sem_eq]
@[simp] theorem releasePwm1Sem_gpioMO1 : (releasePwm1Sem s).gpioMO1 = s.gpioMO1 := by rw [releasePwm1Sem_eq]
@[simp] theorem releasePwm1Sem_adcPc : (releasePwm1Sem s).adcPc = s.adcPc := by rw [releasePwm1Sem_eq]

end frame

/-- The PWM thread, and no other, is on the list of the semaphore while it is blocked. -/
def Suspended (s : State) : Prop :=
  s.pwm1Sem.suspendThread = if s.pwmPc = .blocked then [.pwm] else []

/-- The semaphore refuses a token. -/
def SemFull (s : State) : Prop := s.pwmPc ≠ .blocked ∧ ¬ s.pwm1Sem.value < rtSemValueMax

instance (s : State) : Decidable (SemFull s) := inferInstanceAs (Decidable (_ ∧ _))

/-- The program point after a release: behind `rt_sem_take`, if the thread was blocked in it. -/
def released (pc : PwmPc) : PwmPc := if pc = .blocked then .test else pc

theorem releasePwm1Sem_blocked (hs : Suspended s) (hb : s.pwmPc = .blocked) :
    s.pwm1Sem.value = 0 ∧ (releasePwm1Sem s).pwmPc = .test ∧
      (releasePwm1Sem s).pwm1Sem.value = 0 ∧ (releasePwm1Sem s).pwm1Sem.suspendThread = [] := by
  rw [Suspended, if_pos hb] at hs
  have hv : s.pwm1Sem.value = 0 := s.pwm1Sem.value_eq_zero (by simp [hs])
  obtain ⟨h2, h1, h3⟩ := rtSemRelease_waiting s.pwm1Sem hs
  refine ⟨hv, ?_⟩
  unfold releasePwm1Sem
  split
  · next sem t he =>
    rw [he] at h1 h3
    exact ⟨rfl, h1.trans hv, h3⟩
  · next sem r he hne =>
    rw [hne] at h2
    exact absurd h2 (he _)

theorem releasePwm1Sem_stored (hs : Suspended s) (hb : s.pwmPc ≠ .blocked)
    (hlt : s.pwm1Sem.value < rtSemValueMax) :
    (releasePwm1Sem s).pwmPc = s.pwmPc ∧ (releasePwm1Sem s).pwm1Sem.value = s.pwm1Sem.value + 1 ∧
      (releasePwm1Sem s).pwm1Sem.suspendThread = [] := by
  rw [Suspended, if_neg hb] at hs
  obtain ⟨h2, h1, h3⟩ := rtSemRelease_stored s.pwm1Sem hs hlt
  unfold releasePwm1Sem
  split
  · next sem t he =>
    rw [he] at h2
    cases h2
  · next sem r _ he =>
    rw [he] at h1 h3
    exact ⟨rfl, h1, h3⟩

theorem releasePwm1Sem_full (hs : Suspended s) (hf : SemFull s) : releasePwm1Sem s = s := by
  rw [Suspended, if_neg hf.1] at hs
  rw [releasePwm1Sem, rtSemRelease_full s.pwm1Sem hs hf.2]

theorem releasePwm1Sem_pwmPc (hs : Suspended s) : (releasePwm1Sem s).pwmPc = released s.pwmPc := by
  unfold released
  by_cases hb : s.pwmPc = .blocked
  · rw [if_pos hb, (releasePwm1Sem_blocked hs hb).2.1]
  · rw [if_neg hb]
    by_cases hlt : s.pwm1Sem.value < rtSemValueMax
    · exact (releasePwm1Sem_stored hs hb hlt).1
    · rw [releasePwm1Sem_full hs ⟨hb, hlt⟩]

theorem suspended_releasePwm1Sem (hs : Suspended s) : Suspended (releasePwm1Sem s) := by
  by_cases hb : s.pwmPc = .blocked
  · obtain ⟨-, hpc, -, hl⟩ := releasePwm1Sem_blocked hs hb
    rw [Suspended, hpc, hl]
    rfl
  · by_cases hlt : s.pwm1Sem.value < rtSemValueMax
    · obtain ⟨hpc, -, hl⟩ := releasePwm1Sem_stored hs hb hlt
      rw [Suspended, hpc, hl, if_neg hb]
    · rw [releasePwm1Sem_full hs ⟨hb, hlt⟩]
      exact hs

/-! ## Zero crossings -/

/-- What a zero-cross callback stores before it releases the semaphore. -/
def marked (channel : Fin 4) (turn : Nat) (s : State) : State :=
  { s with
    percentageChange := if s.percentageChange = turn then s.percentageChange - 1 else s.percentageChange
    pwm1Status := Function.update s.pwm1Status channel 1
    pwm1Start := channel }

theorem phaseCb_pos {channel : Fin 4} {turn : Nat} (h : PhaseGuard channel turn s) :
    phaseCb channel turn s = releasePwm1Sem (marked channel turn s) := if_pos h

theorem phaseCb_neg {channel : Fin 4} {turn : Nat} (h : ¬ PhaseGuard channel turn s) :
    phaseCb channel turn s = s := if_neg h

/-- Where the release of a callback, and of the ADC thread, leaves `pwm_thread_entry`. -/
theorem activate_pwmPc (hs : Suspended s) (channel : Fin 4) (turn : Nat) :
    (releasePwm1Sem (marked channel turn s)).pwmPc = released s.pwmPc :=
  releasePwm1Sem_pwmPc (s := marked channel turn s) hs

theorem release_pwmPc (hs : Suspended s) :
    (releasePwm1Sem { s with adcPc := .testPercentage }).pwmPc = released s.pwmPc :=
  releasePwm1Sem_pwmPc (s := { s with adcPc := .testPercentage }) hs

/-! ## The threads -/

/-- The thread is in its firing branch. -/
def firing : PwmPc → Bool
  | .reset | .wait | .fire | .clear => true
  | _ => false

/-- A release moves the thread from `rt_sem_take` to the test behind it, and nowhere else. -/
theorem released_eq_iff {pc pc' q : PwmPc} (h : pc' = pc ∨ pc' = released pc) (htest : q ≠ .test)
    (hblocked : q ≠ .blocked) : pc' = q ↔ pc = q := by
  rcases h with rfl | rfl
  · rfl
  · unfold released
    split_ifs with hb
    · rw [hb]
      exact ⟨fun he => absurd he.symm htest, fun he => absurd he.symm hblocked⟩
    · rfl

theorem firing_released (pc : PwmPc) : firing (released pc) = firing pc := by
  unfold released
  split_ifs with hb
  · rw [hb]
    rfl
  · rfl

theorem nextOff_cases (i : Fin 4) :
    (i = 3 ∧ nextOff i = .take) ∨ ∃ j : Fin 4, j.val = i.val + 1 ∧ nextOff i = .off j .pulse := by
  revert i
  decide

theorem nextOff_ne {q : PwmPc} (i : Fin 4) (htake : q ≠ .take) (hpulse : ∀ j, q ≠ .off j .pulse) :
    nextOff i ≠ q := by
  rcases nextOff_cases i with ⟨-, hnext⟩ | ⟨j, -, hnext⟩ <;> rw [hnext]
  · exact htake.symm
  · exact (hpulse j).symm

/-- The statements of `pwm_thread_entry`, with what each finds and does. -/
inductive PwmStep (s : State) : State → Prop
  | takeToken (sem : RtSemaphore Thread) : s.pwmPc = .take → sem.value + 1 = s.pwm1Sem.value →
      sem.suspendThread = s.pwm1Sem.suspendThread → PwmStep s { s with pwm1Sem := sem, pwmPc := .test }
  | takeBlock (sem : RtSemaphore Thread) : s.pwmPc = .take → s.pwm1Sem.value = 0 → sem.value = 0 →
      sem.suspendThread = s.pwm1Sem.suspendThread ++ [.pwm] →
      PwmStep s { s with pwm1Sem := sem, pwmPc := .blocked }
  | testStart : s.pwmPc = .test → s.pwm1Start ≠ 0 → PwmStep s { s with pwmPc := .reset }
  | testStop : s.pwmPc = .test → s.pwm1Start = 0 → PwmStep s { s with pwmPc := .off 1 .pulse }
  | reset : s.pwmPc = .reset → PwmStep s { s with count := 0, pwmPc := .wait }
  | waitMore : s.pwmPc = .wait → s.count ≤ waitTicks s.percentageSet → PwmStep s s
  | waitDone : s.pwmPc = .wait → waitTicks s.percentageSet < s.count →
      PwmStep s { s with pwmPc := .fire }
  | fire : s.pwmPc = .fire →
      PwmStep s { s with pwmSet := Function.update s.pwmSet s.pwm1Start (pulse * 2), pwmPc := .clear }
  | clear : s.pwmPc = .clear → PwmStep s { s with pwm1Start := 0, pwmPc := .take }
  | offPulse (i : Fin 4) : s.pwmPc = .off i .pulse →
      PwmStep s { s with pwmSet := Function.update s.pwmSet i 0, pwmPc := .off i .status }
  | offStatus (i : Fin 4) : s.pwmPc = .off i .status →
      PwmStep s { s with pwm1Status := Function.update s.pwm1Status i 0, pwmPc := .off i .percentage }
  | offPercentage (i : Fin 4) : s.pwmPc = .off i .percentage →
      PwmStep s { s with percentageSet := 5, pwmPc := .off i .record }
  | offRecord (i : Fin 4) : s.pwmPc = .off i .record →
      PwmStep s { s with runRecord := 0, pwmPc := .off i .relayOn }
  | offRelayOn (i : Fin 4) : s.pwmPc = .off i .relayOn →
      PwmStep s { s with gpioMO1 := 1, pwmPc := .off i .delay }
  | offDelay (i : Fin 4) : s.pwmPc = .off i .delay → PwmStep s { s with pwmPc := .off i .relayOff }
  | offRelayOff (i : Fin 4) : s.pwmPc = .off i .relayOff →
      PwmStep s { s with gpioMO1 := 0, pwmPc := nextOff i }

theorem pwmThreadEntry_step (h : pwmThreadEntry s = some s') : PwmStep s s' := by
  unfold pwmThreadEntry at h
  split at h
  · next hpc =>
    by_cases hv : 0 < s.pwm1Sem.value
    · obtain ⟨h2, h1, h3⟩ := rtSemTake_pos s.pwm1Sem Thread.pwm hv
      split at h
      · next sem he =>
        rw [he] at h1 h3
        cases h
        exact .takeToken sem hpc (by simp only at h1; omega) h3
      · next sem he =>
        rw [he] at h2
        cases h2
    · obtain ⟨h2, h1, h3⟩ := rtSemTake_zero s.pwm1Sem Thread.pwm (by omega)
      split at h
      · next sem he =>
        rw [he] at h2
        cases h2
      · next sem he =>
        rw [he] at h1 h3
        cases h
        exact .takeBlock sem hpc (by omega) h1 h3
  · cases h
  · next hpc =>
    cases h
    split_ifs with hstart
    · exact .testStart hpc hstart
    · exact .testStop hpc (not_not.mp hstart)
  · next hpc => cases h; exact .reset hpc
  · next hpc =>
    split_ifs at h with hcount
    · cases h; exact .waitMore hpc hcount
    · cases h; exact .waitDone hpc (by omega)
  · next hpc => cases h; exact .fire hpc
  · next hpc => cases h; exact .clear hpc
  · next hpc => cases h; exact .offPulse _ hpc
  · next hpc => cases h; exact .offStatus _ hpc
  · next hpc => cases h; exact .offPercentage _ hpc
  · next hpc => cases h; exact .offRecord _ hpc
  · next hpc => cases h; exact .offRelayOn _ hpc
  · next hpc => cases h; exact .offDelay _ hpc
  · next hpc => cases h; exact .offRelayOff _ hpc

/-- The statements of `read_knob_vol_entry`, with what each finds and does. -/
inductive AdcStep (raw : Fin 7 → Fin 4096) (s : State) : State → Prop
  | sample (adcVoltage : Fin 7 → Int) : s.adcPc = .sample →
      (∀ i, adcVoltage i = lowPass binary32 (convert i (raw i)) (s.lastVoltage i)) →
      AdcStep raw s { s with adcVoltage := adcVoltage, lastVoltage := adcVoltage, adcPc := .testRecord }
  | recorded : s.adcPc = .testRecord → s.runRecord = 1 → AdcStep raw s { s with adcPc := .testVoltage }
  | notRecorded : s.adcPc = .testRecord → s.runRecord ≠ 1 → AdcStep raw s { s with adcPc := .delay }
  | reached : s.adcPc = .testVoltage → s.voltageSet ≤ s.adcVoltage 1 →
      AdcStep raw s { s with adcPc := .release }
  | below : s.adcPc = .testVoltage → s.adcVoltage 1 < s.voltageSet →
      AdcStep raw s { s with adcPc := .testPercentage }
  | release : s.adcPc = .release → AdcStep raw s (releasePwm1Sem { s with adcPc := .testPercentage })
  | ramp : s.adcPc = .testPercentage → s.percentageSet < 100 → AdcStep raw s { s with adcPc := .scan 0 }
  | top : s.adcPc = .testPercentage → 100 ≤ s.percentageSet → AdcStep raw s { s with adcPc := .delay }
  | found (j : Fin 19) : s.adcPc = .scan j → voltagePercentageTable 0 j.castSucc ≤ s.adcVoltage 1 →
      s.percentageSet ≤ voltagePercentageTable 1 j.castSucc →
      AdcStep raw s { s with adcPc := .setPercentage j }
  | next (j : Fin 19) : s.adcPc = .scan j → AdcStep raw s { s with adcPc := nextScan j }
  | setPercentage (j : Fin 19) : s.adcPc = .setPercentage j →
      AdcStep raw s { s with percentageSet := voltagePercentageTable 1 j.succ, adcPc := .setChange }
  | setChange : s.adcPc = .setChange → AdcStep raw s { s with percentageChange := 3, adcPc := .delay }
  | delay : s.adcPc = .delay → AdcStep raw s { s with adcPc := .sample }

theorem readKnobVolEntry_step (raw : Fin 7 → Fin 4096) (s : State) :
    AdcStep raw s (readKnobVolEntry raw s) := by
  unfold readKnobVolEntry
  split
  · next hpc => exact .sample _ hpc fun i => rfl
  · next hpc =>
    split_ifs with hrun
    · exact .recorded hpc hrun
    · exact .notRecorded hpc hrun
  · next hpc =>
    split_ifs with hv
    · exact .reached hpc hv
    · exact .below hpc (Int.not_le.mp hv)
  · next hpc => exact .release hpc
  · next hpc =>
    split_ifs with hp
    · exact .ramp hpc hp
    · exact .top hpc (Int.not_lt.mp hp)
  · next j hpc =>
    split_ifs with hj
    · exact .found j hpc hj.1 hj.2
    · exact .next j hpc
  · next j hpc => exact .setPercentage j hpc
  · next hpc => exact .setChange hpc
  · next hpc => exact .delay hpc

/-- The statements of `gpio_entry`: all but three concern the input port only. -/
inductive GpioStep (mkfsOk : Bool) (s : State) : State → Prop
  | setting : s.gpioPc = .setting → GpioStep mkfsOk s { s with gpioMO1 := 0, gpioPc := .testStart }
  | paraRead (volume : Volume) (v c : Int) : s.gpioPc = .paraRead →
      paraRead s.volume s.voltageSet s.currentSet mkfsOk = (volume, v, c) →
      GpioStep mkfsOk s { s with volume := volume, voltageSet := v, currentSet := c, gpioPc := .record }
  | record : s.gpioPc = .record → GpioStep mkfsOk s { s with runRecord := 1, gpioPc := .copyPre }
  | port (port pre input : GpioPort) (pc : GpioPc) : s.gpioPc ≠ .record →
      GpioStep mkfsOk s { s with gpioPort := port, portPre := pre, portIn := input, gpioPc := pc }

theorem gpioEntry_step (pins : Pins) (mkfsOk : Bool) (s : State) :
    GpioStep mkfsOk s (gpioEntry pins mkfsOk s) := by
  unfold gpioEntry
  split
  case h_1 hpc => exact .setting hpc
  case h_3 hpc => exact .paraRead _ _ _ hpc rfl
  case h_4 hpc => exact .record hpc
  all_goals exact .port _ _ _ _ (by simp [*])

/-! ## One step of the system -/

/-- What an action does. -/
inductive Effect (s : State) : Action → State → Prop
  | idle (p : Phase) : ¬ PhaseGuard p.channel p.turn s → Effect s (.phase p) s
  | activate (p : Phase) : PhaseGuard p.channel p.turn s →
      Effect s (.phase p) (releasePwm1Sem (marked p.channel p.turn s))
  | tick : Effect s .tick { s with count := (s.count + 1) % 2 ^ 32 }
  | adc (raw : Fin 7 → Fin 4096) (s' : State) : AdcStep raw s s' → Effect s (.adc raw) s'
  | gpio (pins : Pins) (mkfsOk : Bool) (s' : State) : GpioStep mkfsOk s s' →
      Effect s (.gpio pins mkfsOk) s'
  | pwm (s' : State) : PwmStep s s' → Effect s .pwm s'
  | serial (v c : UInt16) (volume : Volume) : Effect s (.serial v c) { s with volume := volume }

theorem step_effect {a : Action} (h : controller.step s a = some s') : Effect s a s' := by
  cases a with
  | phase p =>
    cases h
    rw [Phase.cb_eq]
    by_cases hg : PhaseGuard p.channel p.turn s
    · rw [phaseCb_pos hg]
      exact .activate p hg
    · rw [phaseCb_neg hg]
      exact .idle p hg
  | tick => cases h; exact .tick
  | adc raw => cases h; exact .adc raw _ (readKnobVolEntry_step raw s)
  | gpio pins mkfsOk => cases h; exact .gpio pins mkfsOk _ (gpioEntry_step pins mkfsOk s)
  | pwm => exact .pwm _ (pwmThreadEntry_step h)
  | serial v c => cases h; exact .serial v c _

/-! ## Events -/

/-- A zero-cross callback finds its condition true. -/
def Activation (s : State) : Action → Prop
  | .phase p => PhaseGuard p.channel p.turn s
  | _ => False

/-- The zero-cross callback of channel `c` finds its condition true. -/
def ActivationOf (c : Fin 4) (s : State) : Action → Prop
  | .phase p => p.channel = c ∧ PhaseGuard p.channel p.turn s
  | _ => False

/-- The ADC thread releases the semaphore. -/
def StopRelease (s : State) : Action → Prop
  | .adc _ => s.adcPc = .release
  | _ => False

/-- `pwm_thread_entry` enters its firing branch. -/
def FiringEntry (s : State) : Action → Prop
  | .pwm => s.pwmPc = .test ∧ s.pwm1Start ≠ 0
  | _ => False

/-- `pwm_thread_entry` enters its shut-down branch. -/
def ShutDownEntry (s : State) : Action → Prop
  | .pwm => s.pwmPc = .test ∧ s.pwm1Start = 0
  | _ => False

/-- `pwm_thread_entry` issues an `rt_pwm_set` with a nonzero pulse. -/
def PulseSet (s : State) : Action → Prop
  | .pwm => s.pwmPc = .fire
  | _ => False

/-- The release of a callback, or of the ADC thread, fails. -/
def ActivationFails (s : State) (a : Action) : Prop := Activation s a ∧ SemFull s
def StopFails (s : State) (a : Action) : Prop := StopRelease s a ∧ SemFull s

/-- `gpio_entry` sets `run_record` from 0 to 1. -/
def ChargeStart (s : State) : Action → Prop
  | .gpio _ _ => s.gpioPc = .record ∧ s.runRecord = 0
  | _ => False

section decidable

variable (c : Fin 4) (s : State)

instance : (a : Action) → Decidable (Activation s a)
  | .phase p => inferInstanceAs (Decidable (PhaseGuard p.channel p.turn s))
  | .tick | .adc _ | .gpio _ _ | .pwm | .serial _ _ => inferInstanceAs (Decidable False)

instance : (a : Action) → Decidable (ActivationOf c s a)
  | .phase p => inferInstanceAs (Decidable (p.channel = c ∧ PhaseGuard p.channel p.turn s))
  | .tick | .adc _ | .gpio _ _ | .pwm | .serial _ _ => inferInstanceAs (Decidable False)

instance : (a : Action) → Decidable (StopRelease s a)
  | .adc _ => inferInstanceAs (Decidable (s.adcPc = .release))
  | .tick | .phase _ | .gpio _ _ | .pwm | .serial _ _ => inferInstanceAs (Decidable False)

instance : (a : Action) → Decidable (FiringEntry s a)
  | .pwm => inferInstanceAs (Decidable (s.pwmPc = .test ∧ s.pwm1Start ≠ 0))
  | .tick | .phase _ | .gpio _ _ | .adc _ | .serial _ _ => inferInstanceAs (Decidable False)

instance : (a : Action) → Decidable (ShutDownEntry s a)
  | .pwm => inferInstanceAs (Decidable (s.pwmPc = .test ∧ s.pwm1Start = 0))
  | .tick | .phase _ | .gpio _ _ | .adc _ | .serial _ _ => inferInstanceAs (Decidable False)

instance : (a : Action) → Decidable (PulseSet s a)
  | .pwm => inferInstanceAs (Decidable (s.pwmPc = .fire))
  | .phase _ | .tick | .adc _ | .gpio _ _ | .serial _ _ => inferInstanceAs (Decidable False)

instance (a : Action) : Decidable (ActivationFails s a) := inferInstanceAs (Decidable (_ ∧ _))
instance (a : Action) : Decidable (StopFails s a) := inferInstanceAs (Decidable (_ ∧ _))

instance : (a : Action) → Decidable (ChargeStart s a)
  | .gpio _ _ => inferInstanceAs (Decidable (s.gpioPc = .record ∧ s.runRecord = 0))
  | .tick | .phase _ | .pwm | .adc _ | .serial _ _ => inferInstanceAs (Decidable False)

end decidable

/-! ## Starting a charge -/

/-- The start input pressed: `GPIO_MI2` pulled low, `GPIO_MI1` not. -/
def startPins : Pins where
  phaseU := true
  phaseV := true
  phaseW := true
  mi1 := true
  mi2 := false

/-- The steps with which `gpio_entry` comes from its entry to `run_record = 1`. -/
def startUp : List Action := List.replicate 13 (.gpio startPins true)

/-- A run from given flash contents, found by executing the parts of a schedule. -/
theorem run_of_schedule (volume : Volume) (parts : List (List Action)) (P : Past → State → Prop)
    [∀ h s, Decidable (P h s)]
    (he : ((controller.exec parts.flatten [] (initState volume)).any fun r => decide (P r.1 r.2)) = true) :
    ∃ h s, controller.Run h s ∧ P h s :=
  controller.exists_run ⟨volume, rfl⟩ parts.flatten P he

end ThyristorController
