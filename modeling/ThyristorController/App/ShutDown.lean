import ThyristorController.App.Tokens

/-!
# What a shut-down leaves behind

After a shut-down nothing fires until the next start, provided the shut-down ends with `run_record`,
`percentage_change` and `pwm1_start` all 0 and the ADC thread arms its ramp only during a charge
(`stays_off_after_shut_down`). The relay at `GPIO_MO1` is raised inside the loop over the channels, so
it signals that all of them are off only if channels 2 and 3 were off before (`relay_only_while_off`).
-/

namespace ThyristorController

open Transition

variable {h : Past} {s s' : State} {a : Action}

/-! ## No firing until the next start -/

/-- `pwm_thread_entry` completes its shut-down branch. -/
def ShutDownDone (s : State) : Action → Prop
  | .pwm => s.pwmPc = .off 3 .relayOff
  | _ => False

/-- `gpio_entry` stores `run_record = 1`. -/
def RecordStore (s : State) : Action → Prop
  | .gpio _ _ => s.gpioPc = .record
  | _ => False

/-- The ADC thread stores `percentage_change = 3`. -/
def RampStore (s : State) : Action → Prop
  | .adc _ => s.adcPc = .setChange
  | _ => False

instance (s : State) : (a : Action) → Decidable (ShutDownDone s a)
  | .pwm => inferInstanceAs (Decidable (s.pwmPc = .off 3 .relayOff))
  | .phase _ | .tick | .adc _ | .gpio _ _ | .serial _ _ => inferInstanceAs (Decidable False)

instance (s : State) : (a : Action) → Decidable (RecordStore s a)
  | .gpio _ _ => inferInstanceAs (Decidable (s.gpioPc = .record))
  | .phase _ | .tick | .adc _ | .pwm | .serial _ _ => inferInstanceAs (Decidable False)

instance (s : State) : (a : Action) → Decidable (RampStore s a)
  | .adc _ => inferInstanceAs (Decidable (s.adcPc = .setChange))
  | .phase _ | .tick | .pwm | .gpio _ _ | .serial _ _ => inferInstanceAs (Decidable False)

/-- The step sets no `pwm1_status` to 1 and issues no nonzero pulse. -/
def StaysOff (s : State) (a : Action) : Prop :=
  (∀ s' ∈ controller.step s a, ∀ c, s'.pwm1Status c = 1 → s.pwm1Status c = 1) ∧ ¬ PulseSet s a

instance (s : State) (a : Action) : Decidable (StaysOff s a) := inferInstanceAs (Decidable (_ ∧ _))

/-- A shut-down has been completed and `run_record` not stored since. -/
def Closed : Past → Prop := Since ShutDownDone RecordStore

instance (h : Past) : Decidable (Closed h) := inferInstanceAs (Decidable (Since _ _ h))

/-- Everything that could fire is disarmed when a shut-down ends, and the ramp is armed only in a charge. -/
def Disarms (s : State) (a : Action) : Prop :=
  (ShutDownDone s a → s.runRecord = 0 ∧ s.percentageChange = 0 ∧ s.pwm1Start = 0) ∧
    (RampStore s a → s.runRecord = 1)

instance (s : State) (a : Action) : Decidable (Disarms s a) := inferInstanceAs (Decidable (_ ∧ _))

/-- Nothing can fire. -/
structure Disarmed (s : State) : Prop where
  runRecord : s.runRecord = 0
  percentageChange : s.percentageChange = 0
  pwm1Start : s.pwm1Start = 0
  firing : firing s.pwmPc = false

theorem not_phaseGuard (hd : Disarmed s) (p : Phase) : ¬ PhaseGuard p.channel p.turn s := by
  rintro (⟨hrec, -⟩ | hturn)
  · rw [hd.runRecord] at hrec
    cases hrec
  · rw [hd.percentageChange] at hturn
    cases p <;> cases hturn

theorem disarmed_step (hs : Suspended s) (hd : Disarmed s) (hg : Disarms s a) (hq : ¬ RecordStore s a)
    (hstep : controller.step s a = some s') : Disarmed s' := by
  obtain ⟨hrec, hpch, hslot, hfire⟩ := id hd
  cases step_effect hstep with
  | idle | tick | serial => exact ⟨hrec, hpch, hslot, hfire⟩
  | activate p hact => exact absurd hact (not_phaseGuard hd p)
  | adc raw s' hadc =>
    cases hadc with
    | release hpc =>
      refine ⟨by simpa, by simpa, by simpa, ?_⟩
      rw [release_pwmPc hs, firing_released]
      exact hfire
    | setChange hpc =>
      rw [hg.2 hpc] at hrec
      cases hrec
    | _ => exact ⟨hrec, hpch, hslot, hfire⟩
  | gpio pins mkfsOk s' hgpio =>
    cases hgpio with
    | record hpc => exact absurd hpc hq
    | _ => exact ⟨hrec, hpch, hslot, hfire⟩
  | pwm s' hpwm =>
    cases hpwm with
    | testStart hpc hstart => exact absurd hslot hstart
    | offRecord i hpc => exact ⟨rfl, hpch, hslot, rfl⟩
    | clear hpc => exact ⟨hrec, hpch, rfl, rfl⟩
    | waitMore => exact ⟨hrec, hpch, hslot, hfire⟩
    | offRelayOff i hpc =>
      refine ⟨hrec, hpch, hslot, ?_⟩
      rcases nextOff_cases i with ⟨-, hnext⟩ | ⟨j, -, hnext⟩ <;> rw [hnext] <;> rfl
    | reset hpc | waitDone hpc | fire hpc => simp [hpc, firing] at hfire
    | _ => exact ⟨hrec, hpch, hslot, rfl⟩

theorem disarmed_of_done (hg : Disarms s a) (hdone : ShutDownDone s a)
    (hstep : controller.step s a = some s') : Disarmed s' := by
  obtain ⟨hrec, hpch, hslot⟩ := hg.1 hdone
  cases a with
  | pwm =>
    have hpc : s.pwmPc = .off 3 .relayOff := hdone
    cases step_effect hstep with
    | pwm _ hpwm =>
      cases hpwm with
      | offRelayOff i hpc' =>
        rw [hpc'] at hpc
        cases hpc
        exact ⟨hrec, hpch, hslot, rfl⟩
      | waitMore hpc' => rw [hpc'] at hpc; cases hpc
      | _ => simp_all
  | phase _ | tick | adc _ | gpio _ _ | serial _ _ => exact hdone.elim

/-- If every shut-down ends disarmed and the ramp is armed only during a charge, then from the end of a
shut-down to the next start no channel is marked and none is fired. -/
theorem stays_off_after_shut_down (hrun : controller.Run h s)
    (hdisarm : Throughout (fun _ s a => Disarms s a) h) :
    Throughout (fun h s a => Closed h → StaysOff s a) h := by
  refine hrun.throughout (I := fun h s => Closed h → Disarmed s) ?_ ?_ hdisarm
  · intro h s hrun hdisarm
    refine hrun.invariant (I := fun h s => Closed h → Disarmed s) ?_ ?_ hdisarm
    · exact fun _ _ hc => hc.elim
    · intro h s a s' hr hd hg hstep hclosed
      rcases hclosed with hdone | ⟨hq, hc⟩
      · exact disarmed_of_done hg hdone hstep
      · exact disarmed_step (chanInv hr).refines.suspended (hd hc) hg hq hstep
  · intro h s a s' hr hd hg hstep hclosed
    have hdis := hd hclosed
    refine ⟨?_, ?_⟩
    · intro t ht c
      cases step_effect (Option.mem_def.mp ht) with
      | idle | tick | serial => exact id
      | activate p hact => exact absurd hact (not_phaseGuard hdis p)
      | adc raw t hadc =>
        cases hadc with
        | release => simp
        | _ => exact id
      | gpio pins mkfsOk t hgpio => cases hgpio <;> exact id
      | pwm t hpwm =>
        cases hpwm with
        | offStatus i hpc =>
          by_cases hic : c = i
          · simp [hic]
          · simp [Function.update_of_ne hic]
        | _ => exact id
    · intro hset
      cases a with
      | pwm =>
        have hfire := hdis.firing
        rw [show s.pwmPc = .fire from hset] at hfire
        cases hfire
      | phase _ | tick | adc _ | gpio _ _ | serial _ _ => exact hset.elim

/-- A charge that is stopped, and three zero crossings after it. -/
theorem stays_off_after_shut_down_run : ∃ h s, controller.Run h s ∧ Closed h ∧
    Throughout (fun h s a => Closed h → StaysOff s a) h := by
  obtain ⟨h, s, hrun, hdisarm, hclosed⟩ := run_of_schedule ⟨true, some [0, 0, 0, 1]⟩
    [startUp, [.phase .U, .pwm, .pwm, .pwm], List.replicate 4 (.adc fun _ => 0), List.replicate 96 .tick,
      List.replicate 26 .pwm, [.phase .U, .phase .V, .phase .W, .pwm]]
    (fun h _ => Throughout (fun _ s a => Disarms s a) h ∧ Closed h) (by decide +kernel)
  exact ⟨h, s, hrun, hclosed, stays_off_after_shut_down hrun hdisarm⟩

/-- The ADC thread arms the ramp in the iteration that stops the charge. `percentage_change = 3`
survives the shut-down, and the next crossing of phase U fires channel 1. -/
theorem fires_after_shut_down : ∃ h s, controller.Run h s ∧
    ¬ Throughout (fun h s a => Closed h → StaysOff s a) h ∧ Closed h ∧ s.runRecord = 0 ∧ s.pwmSet 1 ≠ 0 :=
  run_of_schedule ⟨true, some [0, 5, 0, 1]⟩
    [startUp, List.replicate 8 (.adc fun _ => 4095), List.replicate 23 .pwm,
      [.phase .U, .pwm, .pwm, .pwm], List.replicate 96 .tick, [.pwm, .pwm]]
    (fun h s => ¬ Throughout (fun h s a => Closed h → StaysOff s a) h ∧ Closed h ∧ s.runRecord = 0 ∧
      s.pwmSet 1 ≠ 0) (by decide +kernel)

/-! ## The relay -/

/-- The relay is raised inside the shut-down loop only, where the channels are off. -/
structure RelayInv (s : State) : Prop where
  relay : s.gpioMO1 = 1 → ∃ i, s.pwmPc = .off i .delay ∨ s.pwmPc = .off i .relayOff
  first : ∀ i pc, s.pwmPc = .off i pc → i ≠ 0
  later : ∀ i pc, s.pwmPc = .off i pc → s.pwmSet 2 = 0 ∧ s.pwmSet 3 = 0
  one : ∀ i pc, s.pwmPc = .off i pc → s.pwmSet 1 = 0 ∨ (i = 1 ∧ pc = .pulse)

theorem RelayInv.frame (hi : RelayInv s) (hrelay : s'.gpioMO1 = 1 → s.gpioMO1 = 1)
    (hset : s'.pwmSet = s.pwmSet) (hpc : s'.pwmPc = s.pwmPc ∨ s'.pwmPc = released s.pwmPc) :
    RelayInv s' := by
  have hoff : ∀ i pc, s'.pwmPc = .off i pc ↔ s.pwmPc = .off i pc :=
    fun i pc => released_eq_iff hpc (by simp) (by simp)
  refine ⟨?_, ?_, ?_, ?_⟩
  · intro h1
    simpa only [hoff] using hi.relay (hrelay h1)
  · simpa only [hoff] using hi.first
  · simpa only [hoff, hset] using hi.later
  · simpa only [hoff, hset] using hi.one

theorem relayInv_pwm (hi : RelayInv s) (hg : ShutDownEntry s .pwm → s.pwmSet 2 = 0 ∧ s.pwmSet 3 = 0)
    (hstep : PwmStep s s') : RelayInv s' := by
  obtain ⟨hrelay, hfirst, hlater, hone⟩ := id hi
  have hlow : (∀ i, s.pwmPc ≠ .off i .delay ∧ s.pwmPc ≠ .off i .relayOff) → s.gpioMO1 ≠ 1 := by
    intro hpc h1
    obtain ⟨i, hd | hr⟩ := hrelay h1
    · exact (hpc i).1 hd
    · exact (hpc i).2 hr
  cases hstep with
  | waitMore => exact hi
  | testStop hpc hstart =>
    refine ⟨?_, ?_, ?_, ?_⟩
    · exact fun h1 => absurd h1 (hlow (by simp [hpc]))
    · rintro i pc ⟨rfl, rfl⟩
      decide
    · exact fun _ _ _ => hg ⟨hpc, hstart⟩
    · rintro i pc ⟨rfl, rfl⟩
      exact .inr ⟨rfl, rfl⟩
  | offPulse i hpc =>
    obtain ⟨h2, h3⟩ := hlater i _ hpc
    refine ⟨?_, ?_, ?_, ?_⟩
    · exact fun h1 => absurd h1 (hlow (by simp [hpc]))
    · rintro j pc ⟨rfl, rfl⟩
      exact hfirst i _ hpc
    · intro _ _ _
      simp [Function.update_apply, h2, h3]
    · intro _ _ _
      left
      rcases hone i _ hpc with h1 | ⟨rfl, -⟩
      · simp [Function.update_apply, h1]
      · simp
  | offRelayOff i hpc =>
    have h1 : s.pwmSet 1 = 0 := by simpa using hone i _ hpc
    refine ⟨by simp, ?_, fun _ _ _ => hlater i _ hpc, fun _ _ _ => .inl h1⟩
    intro j pc hj
    rcases nextOff_cases i with ⟨-, hnext⟩ | ⟨k, hk, hnext⟩
    · simp [hnext] at hj
    · simp only [hnext, PwmPc.off.injEq] at hj
      rw [← hj.1]
      intro hzero
      rw [hzero] at hk
      simp at hk
  | offStatus i hpc | offPercentage i hpc | offRecord i hpc =>
    have h1 : s.pwmSet 1 = 0 := by simpa using hone i _ hpc
    refine ⟨?_, ?_, fun _ _ _ => hlater i _ hpc, fun _ _ _ => .inl h1⟩
    · exact fun h1 => absurd h1 (hlow (by simp [hpc]))
    · rintro j pc ⟨rfl, rfl⟩
      exact hfirst i _ hpc
  | offRelayOn i hpc | offDelay i hpc =>
    have h1 : s.pwmSet 1 = 0 := by simpa using hone i _ hpc
    refine ⟨fun _ => ⟨i, by simp⟩, ?_, fun _ _ _ => hlater i _ hpc, fun _ _ _ => .inl h1⟩
    rintro j pc ⟨rfl, rfl⟩
    exact hfirst i _ hpc
  | takeToken _ hpc | takeBlock _ hpc | testStart hpc | reset hpc | waitDone hpc | fire hpc | clear hpc =>
    exact ⟨fun h1 => absurd h1 (hlow (by simp [hpc])), by simp, by simp, by simp⟩

theorem relayInv_step (hs : Suspended s) (hi : RelayInv s)
    (hg : ShutDownEntry s a → s.pwmSet 2 = 0 ∧ s.pwmSet 3 = 0) (hstep : controller.step s a = some s') :
    RelayInv s' := by
  cases step_effect hstep with
  | idle | tick | serial => exact hi.frame id rfl (.inl rfl)
  | activate p hact =>
    exact hi.frame (by simp [marked]) (by simp [marked]) (.inr (activate_pwmPc hs _ _))
  | adc raw s' hadc =>
    cases hadc with
    | release hpc =>
      exact hi.frame (by simp) (by simp) (.inr (release_pwmPc hs))
    | _ => exact hi.frame id rfl (.inl rfl)
  | gpio pins mkfsOk s' hgpio =>
    cases hgpio with
    | setting hpc => exact hi.frame (by simp) rfl (.inl rfl)
    | _ => exact hi.frame id rfl (.inl rfl)
  | pwm s' hpwm => exact relayInv_pwm hi hg hpwm

/-- If every shut-down finds channels 2 and 3 at pulse 0, the relay is high only while all three channels
are. -/
theorem relay_only_while_off (hrun : controller.Run h s)
    (hoff : Throughout (fun _ s a => ShutDownEntry s a → s.pwmSet 2 = 0 ∧ s.pwmSet 3 = 0) h) :
    s.gpioMO1 = 1 → ∀ c, c ≠ 0 → s.pwmSet c = 0 := by
  have hi : RelayInv s := by
    refine hrun.invariant (I := fun _ s => RelayInv s) ?_ ?_ hoff
    · rintro s ⟨volume, rfl⟩
      refine ⟨?_, ?_, ?_, ?_⟩ <;> simp [initState]
    · exact fun h s a s' hr hi hg hstep => relayInv_step (chanInv hr).refines.suspended hi hg hstep
  intro hhigh c hc
  obtain ⟨i, hpc⟩ := hi.relay hhigh
  obtain ⟨pc, hpc, hne⟩ : ∃ pc, s.pwmPc = .off i pc ∧ pc ≠ .pulse := by
    rcases hpc with hpc | hpc
    · exact ⟨_, hpc, by simp⟩
    · exact ⟨_, hpc, by simp⟩
  obtain ⟨h2, h3⟩ := hi.later i pc hpc
  have h1 : s.pwmSet 1 = 0 := by
    rcases hi.one i pc hpc with h1 | ⟨-, hp⟩
    · exact h1
    · exact absurd hp hne
  obtain rfl | rfl | rfl : c = 1 ∨ c = 2 ∨ c = 3 := by omega
  · exact h1
  · exact h2
  · exact h3

/-- Channel 1 has been started when the charge is stopped. -/
theorem relay_only_while_off_run : ∃ h s, controller.Run h s ∧ (s.gpioMO1 = 1 ∧ count FiringEntry h = 1) ∧
    (s.gpioMO1 = 1 → ∀ c, c ≠ 0 → s.pwmSet c = 0) := by
  obtain ⟨h, s, hrun, hoff, hend⟩ := run_of_schedule ⟨true, some [0, 0, 0, 1]⟩
    [startUp, [.phase .U, .pwm, .pwm, .pwm], List.replicate 4 (.adc fun _ => 0), List.replicate 96 .tick,
      List.replicate 10 .pwm]
    (fun h s => Throughout (fun _ s a => ShutDownEntry s a → s.pwmSet 2 = 0 ∧ s.pwmSet 3 = 0) h ∧
      s.gpioMO1 = 1 ∧ count FiringEntry h = 1) (by decide +kernel)
  exact ⟨h, s, hrun, hend, relay_only_while_off hrun hoff⟩

/-- Channel 2 pulses when the charge is stopped: the relay goes high while it still does. -/
theorem relay_while_pulsing : ∃ h s, controller.Run h s ∧ s.gpioMO1 = 1 ∧ s.pwmSet 2 ≠ 0 :=
  run_of_schedule ⟨true, some [0, 0, 0, 1]⟩
    [startUp, [.phase .V, .pwm, .pwm, .pwm], List.replicate 4 (.adc fun _ => 0), List.replicate 96 .tick,
      List.replicate 10 .pwm]
    (fun _ s => s.gpioMO1 = 1 ∧ s.pwmSet 2 ≠ 0) (by decide +kernel)

end ThyristorController
