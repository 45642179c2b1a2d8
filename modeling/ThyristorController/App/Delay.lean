import ThyristorController.App.SoftStart

/-!
# The firing delay

A firing waits for `count`, which `pwm_thread_entry` sets to 0 and `control_hwtimer_cb` increments, to
exceed `100 - percentage_set`. There is one `count` for three phases, set to 0 by the thread and not by
the zero crossing, so the delay is the one from the crossing of the fired channel only if the thread
turns to that crossing at once and no other one interferes (`firing_accurate`).
-/

namespace ThyristorController

open Transition

variable {h : Past} {s s' : State} {a : Action}

/-- The ticks since the latest zero-cross callback of channel `c`, if there was one. -/
def ticksSince (c : Fin 4) : Past → Option Nat
  | [] => none
  | (_, .phase p) :: h => if p.channel = c then some 0 else ticksSince c h
  | (_, .tick) :: h => (ticksSince c h).map (· + 1)
  | (_, .adc _) :: h | (_, .gpio _ _) :: h | (_, .pwm) :: h | (_, .serial _ _) :: h => ticksSince c h

/-- `percentage_set` as the wait loop last read it. -/
def percentageRead : Past → Option Int
  | [] => none
  | (s, .pwm) :: h => if s.pwmPc = .wait then some s.percentageSet else percentageRead h
  | (_, .phase _) :: h | (_, .tick) :: h | (_, .adc _) :: h | (_, .gpio _ _) :: h
  | (_, .serial _ _) :: h => percentageRead h

/-- The delay from the latest crossing of the channel about to be fired is the one set. -/
def Accurate (h : Past) (s : State) : Prop :=
  ∃ t ∈ ticksSince s.pwm1Start h, ∃ p ∈ percentageRead h, 100 - p ≤ (t : Int) ∧ (t : Int) ≤ 102 - p

instance (h : Past) (s : State) : Decidable (Accurate h s) :=
  inferInstanceAs (Decidable (∃ t ∈ ticksSince s.pwm1Start h, ∃ p ∈ percentageRead h, _))

/-- The timer ticks once the thread waits, before the wait is over or at most once after it. -/
def TickInTime (h : Past) (s : State) : Prop :=
  (s.pwmPc = .wait ∧ (s.count : Int) ≤ 101 - s.percentageSet) ∨
    (s.pwmPc = .fire ∧ ∀ p ∈ percentageRead h, (s.count : Int) ≤ 101 - p) ∨ s.pwmPc = .clear

instance (h : Past) (s : State) : Decidable (TickInTime h s) := inferInstanceAs (Decidable (_ ∨ _))

/-- What firings on time need of a step. After the first tick of a wait no callback activates, and none
comes for the channel in wait; while a channel is marked the timer ticks in time; the ramp does not
overtake `count`. -/
def InTime (h : Past) (s : State) : Action → Prop
  | .phase p =>
    PhaseGuard p.channel p.turn s ∨ p.channel = s.pwm1Start →
      s.pwmPc ≠ .fire ∧ (s.pwmPc = .wait → s.count = 0)
  | .tick => s.pwm1Start ≠ 0 → TickInTime h s
  | .adc _ =>
    ∀ j, s.adcPc = .setPercentage j → s.pwmPc = .wait → (s.count : Int) ≤ 102 - 5 * (j.val + 2)
  | .gpio _ _ | .pwm | .serial _ _ => True

/-- The thread gets to its wait before the next tick. -/
def Prompt (s : State) : Action → Prop
  | .tick => s.pwmPc ≠ .test ∧ s.pwmPc ≠ .reset
  | _ => True

instance (h : Past) (s : State) : (a : Action) → Decidable (InTime h s a)
  | .phase p => inferInstanceAs (Decidable (PhaseGuard p.channel p.turn s ∨ _ → _))
  | .tick => inferInstanceAs (Decidable (s.pwm1Start ≠ 0 → TickInTime h s))
  | .adc _ =>
    inferInstanceAs (Decidable (∀ j, s.adcPc = .setPercentage j → s.pwmPc = .wait →
      (s.count : Int) ≤ 102 - 5 * (j.val + 2)))
  | .gpio _ _ | .pwm | .serial _ _ => inferInstanceAs (Decidable True)

instance (s : State) : (a : Action) → Decidable (Prompt s a)
  | .tick => inferInstanceAs (Decidable (s.pwmPc ≠ .test ∧ s.pwmPc ≠ .reset))
  | .phase _ | .adc _ | .gpio _ _ | .pwm | .serial _ _ => inferInstanceAs (Decidable True)

/-- While a channel is marked, `count` is the time since its crossing. -/
structure DelayInv (h : Past) (s : State) : Prop where
  before : s.pwm1Start ≠ 0 → s.pwmPc ≠ .wait → s.pwmPc ≠ .fire → s.pwmPc ≠ .clear →
    ticksSince s.pwm1Start h = some 0
  wait : s.pwm1Start ≠ 0 → s.pwmPc = .wait →
    ticksSince s.pwm1Start h = some s.count ∧ (s.count : Int) ≤ 102 - s.percentageSet
  fire : s.pwm1Start ≠ 0 → s.pwmPc = .fire → ticksSince s.pwm1Start h = some s.count ∧
    ∃ p ∈ percentageRead h, 5 ≤ p ∧ 101 - p ≤ (s.count : Int) ∧ (s.count : Int) ≤ 102 - p

theorem delayInv_init (volume : Volume) : DelayInv [] (initState volume) := by
  refine ⟨?_, ?_, ?_⟩ <;> exact fun hslot => absurd rfl hslot

theorem DelayInv.frame (hd : DelayInv h s) (hticks : ∀ c, ticksSince c ((s, a) :: h) = ticksSince c h)
    (hread : percentageRead ((s, a) :: h) = percentageRead h) (hcount : s'.count = s.count)
    (hslot : s'.pwm1Start = s.pwm1Start) (hpc : s'.pwmPc = s.pwmPc ∨ s'.pwmPc = released s.pwmPc)
    (hset : s.pwmPc = .wait → s'.percentageSet = s.percentageSet ∨
      (s.count : Int) ≤ 102 - s'.percentageSet) : DelayInv ((s, a) :: h) s' := by
  have hwait : s'.pwmPc = .wait ↔ s.pwmPc = .wait := released_eq_iff hpc (by simp) (by simp)
  have hfire : s'.pwmPc = .fire ↔ s.pwmPc = .fire := released_eq_iff hpc (by simp) (by simp)
  have hclear : s'.pwmPc = .clear ↔ s.pwmPc = .clear := released_eq_iff hpc (by simp) (by simp)
  refine ⟨?_, ?_, ?_⟩
  · rw [hslot, hticks, Ne, Ne, hwait, Ne, hfire, Ne, hclear]
    exact hd.before
  · rw [hslot, hticks, hwait, hcount]
    intro hne hw
    obtain ⟨ht, hle⟩ := hd.wait hne hw
    refine ⟨ht, ?_⟩
    rcases hset hw with he | he
    · rw [he]
      exact hle
    · exact he
  · rw [hslot, hticks, hread, hfire, hcount]
    exact hd.fire

theorem delayInv_marked {p : Phase} (hs' : s'.pwm1Start = p.channel) (hcount : s'.count = s.count)
    (hset : s'.percentageSet = s.percentageSet) (hpc : s'.pwmPc = s.pwmPc ∨ s'.pwmPc = released s.pwmPc)
    (hr : RampInv s) (hfire : s.pwmPc ≠ .fire) (hwait : s.pwmPc = .wait → s.count = 0) :
    DelayInv ((s, .phase p) :: h) s' := by
  have hticks : ticksSince s'.pwm1Start ((s, .phase p) :: h) = some 0 := by
    rw [ticksSince, if_pos hs'.symm]
  refine ⟨fun _ _ _ _ => hticks, ?_, ?_⟩
  · intro _ hw
    rw [hticks, hcount, hset, hwait ((released_eq_iff hpc (by simp) (by simp)).mp hw)]
    refine ⟨rfl, ?_⟩
    have := hr.upper
    push_cast
    omega
  · exact fun _ hf => absurd ((released_eq_iff hpc (by simp) (by simp)).mp hf) hfire

theorem delayInv_phase (hs : Suspended s) (hr : RampInv s) (hd : DelayInv h s) (p : Phase)
    (hg : InTime h s (.phase p)) : DelayInv ((s, .phase p) :: h) (p.cb s) := by
  rw [p.cb_eq]
  by_cases hact : PhaseGuard p.channel p.turn s
  · obtain ⟨hfire, hwait⟩ := hg (.inl hact)
    rw [phaseCb_pos hact]
    exact delayInv_marked (by simp [marked]) (by simp [marked]) (by simp [marked])
      (.inr (activate_pwmPc hs _ _)) hr hfire hwait
  · rw [phaseCb_neg hact]
    by_cases hp : p.channel = s.pwm1Start
    · obtain ⟨hfire, hwait⟩ := hg (.inr hp)
      exact delayInv_marked hp.symm rfl rfl (.inl rfl) hr hfire hwait
    · have hticks : ticksSince s.pwm1Start ((s, .phase p) :: h) = ticksSince s.pwm1Start h := by
        rw [ticksSince, if_neg hp]
      refine ⟨?_, ?_, ?_⟩ <;> rw [hticks]
      · exact hd.before
      · exact hd.wait
      · exact hd.fire

theorem delayInv_tick (hr : RampInv s) (hd : DelayInv h s) (hg : InTime h s .tick) :
    DelayInv ((s, .tick) :: h) { s with count := (s.count + 1) % 2 ^ 32 } := by
  obtain ⟨hbefore, hwait, hfire⟩ := hd
  have hlo := hr.lower
  have hticks : ticksSince s.pwm1Start ((s, .tick) :: h) = (ticksSince s.pwm1Start h).map (· + 1) := rfl
  refine ⟨?_, ?_, ?_⟩
  · intro hne h1 h2 h3
    rcases hg hne with ⟨hpc, -⟩ | ⟨hpc, -⟩ | hpc
    · exact absurd hpc h1
    · exact absurd hpc h2
    · exact absurd hpc h3
  · intro hne hw
    have hlt : (s.count : Int) ≤ 101 - s.percentageSet := by
      rcases hg hne with ⟨-, hlt⟩ | ⟨hpc, -⟩ | hpc
      · exact hlt
      · simp [show s.pwmPc = .wait from hw] at hpc
      · simp [show s.pwmPc = .wait from hw] at hpc
    have hmod : (s.count + 1) % 2 ^ 32 = s.count + 1 := Nat.mod_eq_of_lt (by omega)
    dsimp only
    rw [hticks, (hwait hne hw).1, hmod]
    refine ⟨rfl, ?_⟩
    push_cast
    omega
  · intro hne hf
    obtain ⟨ht, p, hp, hp5, hge, hle⟩ := hfire hne hf
    have hlt : (s.count : Int) ≤ 101 - p := by
      rcases hg hne with ⟨hpc, -⟩ | ⟨-, hlt⟩ | hpc
      · simp [show s.pwmPc = .fire from hf] at hpc
      · exact hlt p hp
      · simp [show s.pwmPc = .fire from hf] at hpc
    have hmod : (s.count + 1) % 2 ^ 32 = s.count + 1 := Nat.mod_eq_of_lt (by omega)
    dsimp only
    rw [hticks, ht, hmod]
    refine ⟨rfl, p, hp, hp5, ?_, ?_⟩ <;> push_cast <;> omega

theorem delayInv_pwm (hr : RampInv s) (hd : DelayInv h s) (hstep : PwmStep s s') :
    DelayInv ((s, .pwm) :: h) s' := by
  obtain ⟨hbefore, hwait, hfire⟩ := hd
  have hticks : ∀ c, ticksSince c ((s, .pwm) :: h) = ticksSince c h := fun _ => rfl
  cases hstep with
  | reset hpc =>
    refine ⟨fun _ hne => absurd rfl hne, fun hne _ => ?_, by simp⟩
    rw [hticks, hbefore hne (by simp [hpc]) (by simp [hpc]) (by simp [hpc])]
    have := hr.upper
    refine ⟨rfl, ?_⟩
    push_cast
    omega
  | waitMore hpc hcount => exact ⟨hbefore, hwait, fun _ hf => by simp [hpc] at hf⟩
  | waitDone hpc hcount =>
    refine ⟨fun _ _ hne => absurd rfl hne, by simp, fun hne _ => ?_⟩
    obtain ⟨ht, hle⟩ := hwait hne hpc
    have hread : percentageRead ((s, .pwm) :: h) = some s.percentageSet := if_pos hpc
    have hdelay := waitTicks_eq hr.lower hr.upper
    refine ⟨(hticks _).trans ht, s.percentageSet, hread, hr.lower, ?_, hle⟩
    show 101 - s.percentageSet ≤ (s.count : Int)
    omega
  | fire hpc => exact ⟨fun _ _ _ hne => absurd rfl hne, by simp, by simp⟩
  | clear hpc => exact ⟨fun hne => absurd rfl hne, by simp, by simp⟩
  | offRelayOff i hpc =>
    refine ⟨fun hne _ _ _ => hbefore hne ?_ ?_ ?_, ?_, ?_⟩
    · simp [hpc]
    · simp [hpc]
    · simp [hpc]
    · exact fun _ hw => absurd hw (nextOff_ne i (by simp) (by simp))
    · exact fun _ hf => absurd hf (nextOff_ne i (by simp) (by simp))
  | takeToken _ hpc | takeBlock _ hpc | testStart hpc | testStop hpc | offPulse _ hpc | offStatus _ hpc
  | offPercentage _ hpc | offRecord _ hpc | offRelayOn _ hpc | offDelay _ hpc =>
    refine ⟨fun hne _ _ _ => hbefore hne ?_ ?_ ?_, by simp, by simp⟩ <;> simp [hpc]

theorem delayInv_step (hs : Suspended s) (hr : RampInv s) (hd : DelayInv h s) (hg : InTime h s a)
    (hstep : controller.step s a = some s') : DelayInv ((s, a) :: h) s' := by
  cases a with
  | phase p =>
    cases hstep
    exact delayInv_phase hs hr hd p hg
  | tick =>
    cases hstep
    exact delayInv_tick hr hd hg
  | adc raw =>
    cases step_effect hstep with
    | adc _ _ hadc =>
      cases hadc with
      | release hpc =>
        exact hd.frame (fun _ => rfl) rfl (by simp) (by simp) (.inr (release_pwmPc hs))
          (fun _ => .inl (by simp))
      | setPercentage j hpc =>
        refine hd.frame (fun _ => rfl) rfl rfl rfl (.inl rfl) (fun hw => .inr ?_)
        dsimp only
        rw [voltagePercentageTable_succ]
        exact hg j hpc hw
      | _ => exact hd.frame (fun _ => rfl) rfl rfl rfl (.inl rfl) (fun _ => .inl rfl)
  | gpio pins mkfsOk =>
    cases step_effect hstep with
    | gpio _ _ _ hgpio =>
      cases hgpio <;> exact hd.frame (fun _ => rfl) rfl rfl rfl (.inl rfl) (fun _ => .inl rfl)
  | pwm => exact delayInv_pwm hr hd (pwmThreadEntry_step hstep)
  | serial v c =>
    cases hstep
    exact hd.frame (fun _ => rfl) rfl rfl rfl (.inl rfl) (fun _ => .inl rfl)

/-- If callbacks and ticks come in time, every pulse starts at the delay that was set, counted from the
latest crossing of its own phase. -/
theorem firing_accurate (hrun : controller.Run h s) (htime : Throughout InTime h) :
    Throughout (fun h s a => PulseSet s a → Accurate h s) h := by
  refine hrun.throughout (I := DelayInv) ?_ ?_ htime
  · intro h s hrun htime
    refine hrun.invariant (I := DelayInv) ?_ ?_ htime
    · rintro s ⟨volume, rfl⟩
      exact delayInv_init volume
    · intro h s a s' hr hd hg hstep
      exact delayInv_step (chanInv hr).refines.suspended (rampInv hr) hd hg hstep
  · intro h s a s' hr hd _ _ hset
    cases a with
    | pwm =>
      have hpc : s.pwmPc = .fire := hset
      have hslot := slot_of_firing (chanInv hr) (by simp [hpc])
      obtain ⟨ht, p, hp, -, hge, hle⟩ := hd.fire hslot hpc
      exact ⟨s.count, ht, p, hp, by omega, hle⟩
    | phase _ | tick | adc _ | gpio _ _ | serial _ _ => exact hset.elim

/-- Channels 1 and 2 are fired one after the other. -/
theorem firing_accurate_run : ∃ h s, controller.Run h s ∧ count PulseSet h = 2 ∧
    Throughout (fun h s a => PulseSet s a → Accurate h s) h := by
  obtain ⟨h, s, hrun, htime, hcount⟩ := run_of_schedule ⟨true, none⟩
    [startUp, [.pwm, .phase .U, .pwm, .pwm], List.replicate 96 .tick, List.replicate 4 .pwm,
      [.phase .V, .pwm, .pwm], List.replicate 97 .tick, List.replicate 4 .pwm]
    (fun h _ => Throughout InTime h ∧ count PulseSet h = 2) (by decide +kernel)
  exact ⟨h, s, hrun, hcount, firing_accurate hrun htime⟩

/-- `PHASE_V_cb` comes 33 ticks into the wait for channel 1: channel 2 is fired in place of it, 63 ticks
after its own crossing where 95 to 97 are set. -/
theorem fired_early : ∃ h s, controller.Run h s ∧ Throughout (fun _ s a => Prompt s a) h ∧
    ¬ Throughout (fun h s a => PulseSet s a → Accurate h s) h :=
  run_of_schedule ⟨true, none⟩
    [startUp, [.pwm, .phase .U, .pwm, .pwm], List.replicate 33 .tick, [.phase .V],
      List.replicate 63 .tick, [.pwm, .pwm]]
    (fun h _ => Throughout (fun _ s a => Prompt s a) h ∧
      ¬ Throughout (fun h s a => PulseSet s a → Accurate h s) h) (by decide +kernel)

end ThyristorController
