import ThyristorController.App.ShutDown

/-!
# The start input is debounced

`gpio_entry` keeps three copies of the port word: the sample before, the last sample, and the word that it acts on.
The inner loop samples until two samples in succession agree, the outer loop tests the word before it samples again.
So a word that is acted on is 0, as at the start, or was read twice in succession (`start_debounced`).
-/

namespace ThyristorController

open Transition

variable {h : Past} {s s' : State} {a : Action} {w : GpioPort}

/-- No input active. -/
def noInput : GpioPort := fun _ => false

/-- The words that `read_all_pin` has left in `port_in`, newest first. -/
def samples : Past → List GpioPort
  | [] => []
  | (s, .gpio pins _) :: h => if s.gpioPc = .readPins then readAllPin pins s.portIn :: samples h else samples h
  | (_, .phase _) :: h | (_, .tick) :: h | (_, .adc _) :: h | (_, .pwm) :: h | (_, .serial _ _) :: h => samples h

/-- The word was read in two samples in succession. -/
def ReadTwice (w : GpioPort) (h : Past) : Prop := ∃ newer older, samples h = newer ++ w :: w :: older

local instance portNeZero : NeZero 32 := ⟨by decide⟩

/-- `GPIO_MI1` inactive and `GPIO_MI2` active. -/
def StartWord (w : GpioPort) : Prop := w 4 = false ∧ w 5 = true

/-! ## Words read twice -/

theorem samples_readPins (pins : Pins) (ok : Bool) (h : Past) (hpc : s.gpioPc = .readPins) :
    samples ((s, .gpio pins ok) :: h) = readAllPin pins s.portIn :: samples h := if_pos hpc

theorem samples_gpio (pins : Pins) (ok : Bool) (h : Past) (hpc : s.gpioPc ≠ .readPins) :
    samples ((s, .gpio pins ok) :: h) = samples h := if_neg hpc

theorem samples_cons : ∃ newer, samples ((s, a) :: h) = newer ++ samples h := by
  cases a with
  | gpio pins ok =>
    by_cases hpc : s.gpioPc = .readPins
    · exact ⟨[_], samples_readPins _ _ _ hpc⟩
    · exact ⟨[], samples_gpio _ _ _ hpc⟩
  | phase _ | tick | adc _ | pwm | serial _ _ => exact ⟨[], rfl⟩

theorem ReadTwice.cons (htwice : ReadTwice w h) : ReadTwice w ((s, a) :: h) := by
  obtain ⟨newer, older, heq⟩ := htwice
  obtain ⟨new, hnew⟩ := samples_cons (h := h) (s := s) (a := a)
  exact ⟨new ++ newer, older, by rw [hnew, heq, List.append_assoc]⟩

/-- The last two samples agree; before the first sample the copies are 0. -/
theorem readTwice_of_last (hlast : (samples h).headD noInput = w) (hbefore : (samples h).tail.headD noInput = w) :
    w = noInput ∨ ReadTwice w h := by
  unfold ReadTwice
  generalize samples h = l at hlast hbefore ⊢
  match l with
  | [] => exact .inl hlast.symm
  | [_] => exact .inl hbefore.symm
  | x :: y :: older =>
    obtain rfl : x = w := hlast
    obtain rfl : y = x := hbefore
    exact .inr ⟨[], older, rfl⟩

/-! ## The copies of the port word -/

/-- What the three copies hold at each statement. -/
structure CopiesOk (h : Past) (s : State) : Prop where
  last : s.portIn = (samples h).headD noInput
  copied : s.gpioPc = .readPins → s.portPre = s.portIn
  before : s.gpioPc = .testStable → s.portPre = (samples h).tail.headD noInput
  stable : s.gpioPc = .update → s.portIn = noInput ∨ ReadTwice s.portIn h
  acted : s.gpioPort = noInput ∨ ReadTwice s.gpioPort h
  start : s.gpioPc = .paraRead ∨ s.gpioPc = .record → StartWord s.gpioPort
  unused : ∀ i : Fin 32, i.val = 0 ∨ 6 ≤ i.val → s.gpioPort i = false ∧ s.portIn i = false

theorem CopiesOk.frame (hi : CopiesOk h s) (hsamples : samples ((s, a) :: h) = samples h)
    (hpc : s'.gpioPc = s.gpioPc) (hport : s'.gpioPort = s.gpioPort) (hpre : s'.portPre = s.portPre)
    (hin : s'.portIn = s.portIn) : CopiesOk ((s, a) :: h) s' := by
  obtain ⟨hlast, hcopied, hbefore, hstable, hacted, hstart, hunused⟩ := hi
  refine ⟨?_, ?_, ?_, ?_, ?_, ?_, ?_⟩
  · rw [hin, hsamples, hlast]
  · rwa [hpc, hpre, hin]
  · rwa [hpc, hpre, hsamples]
  · rw [hpc, hin]
    exact fun hu => (hstable hu).imp_right .cons
  · rw [hport]
    exact hacted.imp_right .cons
  · rwa [hpc, hport]
  · rwa [hport, hin]

theorem readAllPin_unused (pins : Pins) (port : GpioPort) {i : Fin 32} (hi : i.val = 0 ∨ 6 ≤ i.val) :
    readAllPin pins port i = port i := by
  unfold readAllPin
  repeat rw [Function.update_of_ne (by rintro rfl; revert hi; decide)]

theorem gpio_frame (hstep : controller.step s a = some s') (hgpio : ∀ pins ok, a ≠ .gpio pins ok) :
    s'.gpioPc = s.gpioPc ∧ s'.gpioPort = s.gpioPort ∧ s'.portPre = s.portPre ∧ s'.portIn = s.portIn := by
  cases step_effect hstep with
  | idle | tick | serial => exact ⟨rfl, rfl, rfl, rfl⟩
  | activate p hg => rw [releasePwm1Sem_eq]; exact ⟨rfl, rfl, rfl, rfl⟩
  | adc raw s' hadc =>
    cases hadc with
    | release hpc => rw [releasePwm1Sem_eq]; exact ⟨rfl, rfl, rfl, rfl⟩
    | _ => exact ⟨rfl, rfl, rfl, rfl⟩
  | gpio pins ok => exact absurd rfl (hgpio pins ok)
  | pwm s' hpwm => cases hpwm <;> exact ⟨rfl, rfl, rfl, rfl⟩

theorem copiesOk_gpio (pins : Pins) (ok : Bool) (hi : CopiesOk h s) :
    CopiesOk ((s, .gpio pins ok) :: h) (gpioEntry pins ok s) := by
  obtain ⟨hlast, hcopied, hbefore, hstable, hacted, hstart, hunused⟩ := hi
  have hacted' : ∀ a, s.gpioPort = noInput ∨ ReadTwice s.gpioPort ((s, a) :: h) := fun _ => hacted.imp_right .cons
  cases hpc : s.gpioPc with
  | readPins =>
    have hsamples := samples_readPins pins ok h hpc
    simp only [gpioEntry, hpc]
    refine ⟨?_, by simp, ?_, by simp, hacted' _, by simp, ?_⟩
    · rw [hsamples]
      rfl
    · intro _
      rw [hsamples, List.tail_cons, ← hlast]
      exact hcopied hpc
    · exact fun i hi => ⟨(hunused i hi).1, (readAllPin_unused pins s.portIn hi).trans (hunused i hi).2⟩
  | testStable =>
    have hsamples := samples_gpio (s := s) pins ok h (by simp [hpc])
    simp only [gpioEntry, hpc]
    split_ifs with heq
    · refine ⟨by rw [hsamples]; exact hlast, by simp, by simp, ?_, hacted' _, by simp, hunused⟩
      intro _
      exact (readTwice_of_last hlast.symm ((hbefore hpc).symm.trans heq)).imp_right .cons
    · exact ⟨by rw [hsamples]; exact hlast, by simp, by simp, by simp, hacted' _, by simp, hunused⟩
  | update =>
    have hsamples := samples_gpio (s := s) pins ok h (by simp [hpc])
    have hport : (if s.gpioPort ≠ s.portIn then s.portIn else s.gpioPort) = s.portIn := by
      split_ifs with hne
      · rfl
      · exact not_not.mp hne
    simp only [gpioEntry, hpc, hport]
    refine ⟨by rw [hsamples]; exact hlast, by simp, by simp, by simp, ?_, by simp, ?_⟩
    · exact (hstable hpc).imp_right .cons
    · exact fun i hi => ⟨(hunused i hi).2, (hunused i hi).2⟩
  | testStart =>
    have hsamples := samples_gpio (s := s) pins ok h (by simp [hpc])
    simp only [gpioEntry, hpc]
    split_ifs with hword
    · exact ⟨by rw [hsamples]; exact hlast, by simp, by simp, by simp, hacted' _, fun _ => hword, hunused⟩
    · exact ⟨by rw [hsamples]; exact hlast, by simp, by simp, by simp, hacted' _, by simp, hunused⟩
  | paraRead =>
    have hsamples := samples_gpio (s := s) pins ok h (by simp [hpc])
    simp only [gpioEntry, hpc]
    exact ⟨by rw [hsamples]; exact hlast, by simp, by simp, by simp, hacted' _, fun _ => hstart (.inl hpc), hunused⟩
  | setting | record | delay =>
    have hsamples := samples_gpio (s := s) pins ok h (by simp [hpc])
    simp only [gpioEntry, hpc]
    exact ⟨by rw [hsamples]; exact hlast, by simp, by simp, by simp, hacted' _, by simp, hunused⟩
  | copyPre =>
    have hsamples := samples_gpio (s := s) pins ok h (by simp [hpc])
    simp only [gpioEntry, hpc]
    exact ⟨by rw [hsamples]; exact hlast, fun _ => rfl, by simp, by simp, hacted' _, by simp, hunused⟩

theorem copiesOk_step (hi : CopiesOk h s) (hstep : controller.step s a = some s') : CopiesOk ((s, a) :: h) s' := by
  cases a with
  | gpio pins ok =>
    obtain rfl := Option.some.inj hstep
    exact copiesOk_gpio pins ok hi
  | phase _ | tick | adc _ | pwm | serial _ _ =>
    obtain ⟨hpc, hport, hpre, hin⟩ := gpio_frame hstep (by simp)
    exact hi.frame rfl hpc hport hpre hin

theorem copiesOk (hrun : controller.Run h s) : CopiesOk h s := by
  refine hrun.always (I := CopiesOk) ?_ ?_
  · rintro s ⟨volume, rfl⟩
    exact ⟨rfl, by simp [initState], by simp [initState], by simp [initState], .inl rfl, by simp [initState],
      fun _ _ => ⟨rfl, rfl⟩⟩
  · exact fun h s a s' _ hi hstep => copiesOk_step hi hstep

theorem not_startWord_noInput : ¬ StartWord noInput := fun hword => Bool.noConfusion hword.2

/-- A charge is started only on a start word that was read twice in succession, the word that is acted on is 0 or was
read twice in succession, and the bits without an input are 0. -/
theorem start_debounced (hrun : controller.Run h s) :
    Throughout (fun h s a => RecordStore s a → ∃ w, StartWord w ∧ ReadTwice w h) h ∧
      (s.gpioPort = noInput ∨ ReadTwice s.gpioPort h) ∧
      ∀ i : Fin 32, i.val = 0 ∨ 6 ≤ i.val → s.gpioPort i = false := by
  have hok := copiesOk hrun
  refine ⟨?_, hok.acted, fun i hi => (hok.unused i hi).1⟩
  refine hrun.throughout_always (I := CopiesOk) (fun h s hr => copiesOk hr) ?_
  intro h s a s' _ hi _ hstore
  cases a with
  | gpio pins ok =>
    have hword := hi.start (.inr hstore)
    refine ⟨s.gpioPort, hword, hi.acted.resolve_left fun hzero => ?_⟩
    rw [hzero] at hword
    exact not_startWord_noInput hword
  | phase _ | tick | adc _ | pwm | serial _ _ => exact hstore.elim

/-- A start word that is read for a while. -/
theorem start_debounced_run : ∃ h s, controller.Run h s ∧ count RecordStore h = 1 ∧
    Throughout (fun h s a => RecordStore s a → ∃ w, StartWord w ∧ ReadTwice w h) h := by
  obtain ⟨h, s, hrun, hcount⟩ := run_of_schedule ⟨true, some [0, 5, 0, 1]⟩ [startUp]
    (fun h _ => count RecordStore h = 1) (by decide +kernel)
  exact ⟨h, s, hrun, hcount, (start_debounced hrun).1⟩

end ThyristorController
