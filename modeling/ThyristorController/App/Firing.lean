import ThyristorController.App.Tokens

/-!
# Marked channels are started

When `pwm_thread_entry` has nothing left to do, a channel is marked as conducting exactly if it pulses.
Zero crossings that overwrite each other's slot do not break this: they leave a surplus token, and the
shut-down which that token causes turns every channel off. What does break it is a callback of a
channel that the shut-down in progress has not yet turned off (`marked_iff_pulsing`).
-/

namespace ThyristorController

open Transition TokenSlot

variable {h : Past} {s s' : State} {a : Action}

/-- The shut-down in progress has yet to clear `pwm1_status[c]`. -/
def uncleared (pc : PwmPc) (c : Fin 4) : Bool :=
  match pc with
  | .off i pc => decide (i < c) || (decide (i = c) && (pc = .pulse || pc = .status))
  | _ => false

/-- Channel `c` is marked as conducting exactly if it pulses. -/
def Agrees (s : State) (c : Fin 4) : Prop := s.pwm1Status c = 1 ↔ s.pwmSet c ≠ 0

instance (s : State) (c : Fin 4) : Decidable (Agrees s c) := inferInstanceAs (Decidable (_ ↔ _))

/-- Channel `c` agrees, or will: by a surplus token's shut-down, by its own firing, or by the shut-down
in progress. -/
def WillAgree (h : Past) (s : State) (c : Fin 4) : Prop :=
  Agrees s c ∨ (chan h).outstanding ≠ [] ∨ (s.pwm1Start = c ∧ s.pwmPc ≠ .clear) ∨
    uncleared s.pwmPc c = true

structure FiringInv (h : Past) (s : State) : Prop where
  slot_status : s.pwm1Start ≠ 0 → s.pwm1Status s.pwm1Start = 1
  slot_cleared : s.pwm1Start ≠ 0 → uncleared s.pwmPc s.pwm1Start = false
  off_pulse : ∀ i, s.pwmPc = .off i .status → s.pwmSet i = 0
  willAgree : ∀ c, c ≠ 0 → WillAgree h s c

theorem uncleared_released (pc : PwmPc) (c : Fin 4) : uncleared (released pc) c = uncleared pc c := by
  unfold released
  split_ifs with hb
  · rw [hb]
    rfl
  · rfl

theorem uncleared_first : ∀ c : Fin 4, c ≠ 0 → uncleared (.off 1 .pulse) c = true := by
  decide

theorem uncleared_next (i c : Fin 4) :
    uncleared (nextOff i) c = uncleared (.off i .relayOff) c := by
  revert i c
  decide

/-! ## Channels that will agree -/

theorem WillAgree.frame {c : Fin 4} (hw : WillAgree h s c) (hi : ChanInv h s) (hoff : ¬ ShutDownEntry s a)
    (hagree : Agrees s' c ↔ Agrees s c) (hslot : s'.pwm1Start = s.pwm1Start)
    (hclear : s'.pwmPc = .clear → s.pwmPc = .clear)
    (hun : uncleared s.pwmPc c = true → uncleared s'.pwmPc c = true) : WillAgree ((s, a) :: h) s' c := by
  rcases hw with ha | hne | ⟨hs, hpc⟩ | hu
  · exact .inl (hagree.mpr ha)
  · exact .inr (.inl (surplus_step hi hne hoff))
  · exact .inr (.inr (.inl ⟨hslot.trans hs, fun hc => hpc (hclear hc)⟩))
  · exact .inr (.inr (.inr (hun hu)))

theorem willAgree_activate (hi : ChanInv h s) (p : Phase) (hg : PhaseGuard p.channel p.turn s) {c : Fin 4}
    (hc : c ≠ 0) (hw : WillAgree h s c) :
    WillAgree ((s, .phase p) :: h) (releasePwm1Sem (marked p.channel p.turn s)) c := by
  have hpc := activate_pwmPc hi.refines.suspended p.channel p.turn
  by_cases hstart : s.pwm1Start = 0
  · by_cases hp : p.channel = c
    · -- the callback of the channel itself, while the thread is not in its firing branch
      have hfire : s.pwmPc ≠ .clear := fun hclear => slot_of_firing hi (by simp [hclear]) hstart
      refine .inr (.inr (.inl ⟨by simp [marked, hp], ?_⟩))
      rw [hpc, released]
      split_ifs
      · simp
      · exact hfire
    · rcases hw with ha | hne | ⟨hs, -⟩ | hu
      · left
        simpa [Agrees, marked, Function.update_of_ne (Ne.symm hp)] using ha
      · exact .inr (.inl (surplus_step hi hne id))
      · exact absurd (hs.symm.trans hstart) hc
      · right; right; right
        rwa [hpc, uncleared_released]
  · exact .inr (.inl (surplus_of_marked hi hg hstart))

theorem willAgree_pwm (hi : ChanInv h s) (hf : FiringInv h s) (hstep : PwmStep s s') {c : Fin 4}
    (hc : c ≠ 0) : WillAgree ((s, .pwm) :: h) s' c := by
  have hw := hf.willAgree c hc
  have hidle : s.pwmPc ≠ .test → ¬ ShutDownEntry s .pwm := fun hne hoff => hne hoff.1
  cases hstep with
  | testStop hpc hstart =>
    exact .inr (.inr (.inr (uncleared_first c hc)))
  | fire hpc =>
    have hslot := slot_of_firing hi (by simp [hpc])
    by_cases hcs : s.pwm1Start = c
    · left
      simp [Agrees, ← hcs, hf.slot_status hslot, pulse]
    · rcases hw with ha | hne | ⟨hs, -⟩ | hu
      · left
        simpa [Agrees, Function.update_of_ne (Ne.symm hcs)] using ha
      · exact .inr (.inl (surplus_step hi hne (hidle (by simp [hpc]))))
      · exact absurd hs hcs
      · simp [hpc, uncleared] at hu
  | clear hpc =>
    rcases hw with ha | hne | ⟨-, hnc⟩ | hu
    · exact .inl ha
    · exact .inr (.inl (surplus_step hi hne (hidle (by simp [hpc]))))
    · exact absurd hpc hnc
    · simp [hpc, uncleared] at hu
  | offPulse i hpc =>
    by_cases hic : i = c
    · right; right; right
      simp [uncleared, hic]
    · refine hw.frame hi (hidle (by simp [hpc])) ?_ rfl (by simp) ?_
      · simp [Agrees, Function.update_of_ne (Ne.symm hic)]
      · simp [hpc, uncleared]
  | offStatus i hpc =>
    by_cases hic : i = c
    · left
      simp [Agrees, ← hic, hf.off_pulse i hpc]
    · refine hw.frame hi (hidle (by simp [hpc])) ?_ rfl (by simp) ?_
      · simp [Agrees, Function.update_of_ne (Ne.symm hic)]
      · simp [hpc, uncleared, hic]
  | offRelayOff i hpc =>
    refine hw.frame hi (hidle (by simp [hpc])) Iff.rfl rfl ?_ ?_
    · exact fun hclear => absurd hclear (nextOff_ne i (by simp) (by simp))
    · rw [hpc, uncleared_next]
      exact id
  | testStart hpc hstart =>
    exact hw.frame hi (fun hoff => hstart hoff.2) Iff.rfl rfl (by simp) (by simp [hpc, uncleared])
  | waitMore hpc hcount => exact hw.frame hi (hidle (by simp [hpc])) Iff.rfl rfl id id
  | takeToken _ hpc | takeBlock _ hpc | reset hpc | waitDone hpc =>
    exact hw.frame hi (hidle (by simp [hpc])) Iff.rfl rfl (by simp) (by simp [hpc, uncleared])
  | offPercentage i hpc | offRecord i hpc | offRelayOn i hpc | offDelay i hpc =>
    exact hw.frame hi (hidle (by simp [hpc])) Iff.rfl rfl (by simp) (by simp [hpc, uncleared])

/-! ## The invariant -/

/-- A callback activates its channel only if no shut-down in progress has yet to clear it. -/
def ActivatesCleared (s : State) : Action → Prop
  | .phase p => PhaseGuard p.channel p.turn s → uncleared s.pwmPc p.channel = false
  | _ => True

instance (s : State) : (a : Action) → Decidable (ActivatesCleared s a)
  | .phase p => inferInstanceAs (Decidable (PhaseGuard p.channel p.turn s → _))
  | .tick | .adc _ | .gpio _ _ | .pwm | .serial _ _ => inferInstanceAs (Decidable True)

theorem firingInv_init (volume : Volume) : FiringInv [] (initState volume) := by
  refine ⟨?_, ?_, ?_, ?_⟩
  · simp [initState]
  · simp [initState]
  · simp [initState]
  · intro c _
    left
    simp [Agrees, initState]

theorem FiringInv.frame (hf : FiringInv h s) (hi : ChanInv h s) (hoff : ¬ ShutDownEntry s a)
    (hstatus : s'.pwm1Status = s.pwm1Status) (hset : s'.pwmSet = s.pwmSet)
    (hslot : s'.pwm1Start = s.pwm1Start) (hpc : s'.pwmPc = s.pwmPc ∨ s'.pwmPc = released s.pwmPc) :
    FiringInv ((s, a) :: h) s' := by
  have hun : ∀ c, uncleared s'.pwmPc c = uncleared s.pwmPc c := fun c => by
    rcases hpc with hpc | hpc <;> rw [hpc]
    exact uncleared_released _ _
  refine ⟨?_, ?_, ?_, ?_⟩
  · rw [hslot, hstatus]
    exact hf.slot_status
  · rw [hslot, hun]
    exact hf.slot_cleared
  · intro i he
    rw [hset]
    exact hf.off_pulse i ((released_eq_iff hpc (by simp) (by simp)).mp he)
  · intro c hc
    refine (hf.willAgree c hc).frame hi hoff (by rw [Agrees, Agrees, hstatus, hset]) hslot ?_ ?_
    · exact (released_eq_iff hpc (by simp) (by simp)).mp
    · rw [hun]
      exact id

theorem firingInv_activate (hi : ChanInv h s) (hf : FiringInv h s) (p : Phase)
    (hg : PhaseGuard p.channel p.turn s) (hcleared : uncleared s.pwmPc p.channel = false) :
    FiringInv ((s, .phase p) :: h) (releasePwm1Sem (marked p.channel p.turn s)) := by
  have hpc := activate_pwmPc hi.refines.suspended p.channel p.turn
  refine ⟨?_, ?_, ?_, ?_⟩
  · simp [marked]
  · rw [hpc, uncleared_released]
    simpa [marked] using fun _ => hcleared
  · intro i he
    rw [hpc, released_eq_iff (.inr rfl) (by simp) (by simp)] at he
    simpa [marked] using hf.off_pulse i he
  · exact fun c hc => willAgree_activate hi p hg hc (hf.willAgree c hc)

theorem firingInv_pwm (hi : ChanInv h s) (hf : FiringInv h s) (hstep : PwmStep s s') :
    FiringInv ((s, .pwm) :: h) s' := by
  refine ⟨?_, ?_, ?_, fun c hc => willAgree_pwm hi hf hstep hc⟩
  · intro hslot
    cases hstep with
    | clear => exact absurd rfl hslot
    | offStatus i hpc =>
      have hcleared := hf.slot_cleared hslot
      have hne : s.pwm1Start ≠ i := fun he => by simp [hpc, he, uncleared] at hcleared
      simpa [Function.update_of_ne hne] using hf.slot_status hslot
    | _ => exact hf.slot_status hslot
  · intro hslot
    have hcleared := hf.slot_cleared
    cases hstep with
    | clear => exact absurd rfl hslot
    | testStop hpc hstart => exact absurd hstart hslot
    | waitMore => exact hcleared hslot
    | offRelayOff i hpc =>
      rw [uncleared_next, ← hpc]
      exact hcleared hslot
    | _ => simp_all [uncleared]
  · intro i he
    cases hstep with
    | offPulse j hpc =>
      cases he
      simp
    | offRelayOff j hpc =>
      exact absurd he (nextOff_ne j (by simp) (by simp))
    | waitMore => exact hf.off_pulse i he
    | _ => cases he

theorem firingInv_step (hi : ChanInv h s) (hf : FiringInv h s) (hg : ActivatesCleared s a)
    (hstep : controller.step s a = some s') : FiringInv ((s, a) :: h) s' := by
  cases step_effect hstep with
  | idle p _ => exact hf.frame hi id rfl rfl rfl (.inl rfl)
  | activate p hact => exact firingInv_activate hi hf p hact (hg hact)
  | tick => exact hf.frame hi id rfl rfl rfl (.inl rfl)
  | adc raw s' hadc =>
    cases hadc with
    | release hpc =>
      exact hf.frame hi id (by simp) (by simp) (by simp) (.inr (release_pwmPc hi.refines.suspended))
    | _ => exact hf.frame hi id rfl rfl rfl (.inl rfl)
  | gpio pins mkfsOk s' hgpio =>
    cases hgpio <;> exact hf.frame hi id rfl rfl rfl (.inl rfl)
  | pwm s' hpwm => exact firingInv_pwm hi hf hpwm
  | serial v c volume => exact hf.frame hi id rfl rfl rfl (.inl rfl)

/-- If no callback marks a channel which the shut-down in progress has yet to clear, then whenever the
thread is blocked with no token left, a channel is marked exactly if it pulses. -/
theorem marked_iff_pulsing (hrun : controller.Run h s)
    (hguard : Throughout (fun _ s a => ActivatesCleared s a) h) :
    s.pwmPc = .blocked → s.pwm1Sem.value = 0 →
      ∀ c, c ≠ 0 → (s.pwm1Status c = 1 ↔ s.pwmSet c ≠ 0) := by
  intro hpc _ c hc
  have hf : FiringInv h s := by
    refine hrun.invariant ?_ ?_ hguard
    · rintro s ⟨volume, rfl⟩
      exact firingInv_init volume
    · exact fun h s a s' hr hf hg hstep => firingInv_step (chanInv hr) hf hg hstep
  obtain ⟨hnone, hslot⟩ := outstanding_of_blocked (chanInv hrun) hpc
  rcases hf.willAgree c hc with ha | hne | ⟨hs, -⟩ | hu
  · exact ha
  · exact absurd hnone hne
  · exact absurd (hs.symm.trans hslot) hc
  · simp [hpc, uncleared] at hu

/-- Channel 1 is started, the other two are not. -/
theorem marked_iff_pulsing_run : ∃ h s, controller.Run h s ∧
    (s.pwmPc = .blocked ∧ s.pwm1Sem.value = 0 ∧ s.pwm1Status 1 = 1) ∧
    (s.pwmPc = .blocked → s.pwm1Sem.value = 0 →
      ∀ c, c ≠ 0 → (s.pwm1Status c = 1 ↔ s.pwmSet c ≠ 0)) := by
  obtain ⟨h, s, hrun, hguard, hend⟩ := run_of_schedule ⟨true, none⟩
    [startUp, [.phase .U, .pwm, .pwm, .pwm], List.replicate 96 .tick, List.replicate 4 .pwm]
    (fun h s => Throughout (fun _ s a => ActivatesCleared s a) h ∧
      s.pwmPc = .blocked ∧ s.pwm1Sem.value = 0 ∧ s.pwm1Status 1 = 1) (by decide +kernel)
  exact ⟨h, s, hrun, hend, marked_iff_pulsing hrun hguard⟩

/-- `PHASE_V_cb` marks channel 2 before the shut-down reaches it: the mark is cleared, and the token
then starts the channel. -/
theorem pulsing_unmarked : ∃ h s, controller.Run h s ∧ s.pwmPc = .blocked ∧ s.pwm1Sem.value = 0 ∧
    ¬ ∀ c, c ≠ 0 → (s.pwm1Status c = 1 ↔ s.pwmSet c ≠ 0) :=
  run_of_schedule ⟨true, some [0, 0, 0, 1]⟩
    [startUp, List.replicate 4 (.adc fun _ => 0), [.pwm, .pwm, .phase .V], List.replicate 21 .pwm,
      [.pwm, .pwm, .pwm], List.replicate 96 .tick, List.replicate 4 .pwm]
    (fun _ s => s.pwmPc = .blocked ∧ s.pwm1Sem.value = 0 ∧
      ¬ ∀ c, c ≠ 0 → (s.pwm1Status c = 1 ↔ s.pwmSet c ≠ 0)) (by decide +kernel)

end ThyristorController
