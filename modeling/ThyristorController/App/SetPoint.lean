import ThyristorController.App.Tokens

/-!
# Set-points that can be reached

The filtered voltage of a channel never exceeds 320, whatever is sampled, while `voltage_set` is any
16-bit value and 500 at the start. A charge can be ended by its voltage exactly if the set-point is at
most 320 (`endsCharge_iff`).
-/

namespace ThyristorController

open Transition

variable {h : Past} {s s' : State} {a : Action}

/-! ## What is reached -/

/-- The range of the filter. -/
structure VoltageInv (s : State) : Prop where
  last : ∀ i, s.adcVoltage i = s.lastVoltage i
  range : ∀ i, 0 ≤ s.lastVoltage i ∧ s.lastVoltage i ≤ 320
  voltageSet : 0 ≤ s.voltageSet ∧ s.voltageSet < 65536

theorem lowPass_range (i : Fin 7) (raw : Fin 4096) {last : Int} (hl : 0 ≤ last ∧ last ≤ 320) :
    0 ≤ lowPass binary32 (convert i raw) last ∧ lowPass binary32 (convert i raw) last ≤ 320 := by
  have ha := convert_range i raw
  have hl' : 0 ≤ last ∧ last ≤ 329 := ⟨hl.1, by omega⟩
  exact ⟨lowPass_nonneg binary32_unit ha hl', lowPass_le binary32_unit ha hl' (by omega)⟩

theorem voltageInv_step (hi : VoltageInv s) (hstep : controller.step s a = some s') : VoltageInv s' := by
  obtain ⟨hlast, hrange, hset⟩ := hi
  cases step_effect hstep with
  | idle | tick | serial => exact ⟨hlast, hrange, hset⟩
  | activate p hg => exact ⟨by simpa [marked], by simpa [marked], by simpa [marked]⟩
  | adc raw s' hadc =>
    cases hadc with
    | sample v hpc hv =>
      refine ⟨fun _ => rfl, fun i => ?_, hset⟩
      dsimp only
      rw [hv i]
      exact lowPass_range i (raw i) (hrange i)
    | release hpc => exact ⟨by simpa, by simpa, by simpa⟩
    | _ => exact ⟨hlast, hrange, hset⟩
  | gpio pins mkfsOk s' hgpio =>
    cases hgpio with
    | paraRead volume v c hpc hread =>
      refine ⟨hlast, hrange, ?_⟩
      have hcases := paraRead_voltageSet s.volume s.voltageSet s.currentSet mkfsOk
      rw [hread] at hcases
      rcases hcases with he | he
      · rw [show v = s.voltageSet from he]
        exact hset
      · exact he
    | _ => exact ⟨hlast, hrange, hset⟩
  | pwm s' hpwm => cases hpwm <;> exact ⟨hlast, hrange, hset⟩

theorem voltageInv (hrun : controller.Run h s) : VoltageInv s := by
  refine hrun.always (I := fun _ s => VoltageInv s) ?_ ?_
  · rintro s ⟨volume, rfl⟩
    exact ⟨fun _ => rfl, fun _ => ⟨le_refl 0, by simp [initState]⟩, by simp [initState, voltageSetInit]⟩
  · exact fun h s a s' _ hi hstep => voltageInv_step hi hstep

/-! ## Ending a charge -/

/-- The ADC thread starts an iteration. -/
def SampleStep (s : State) : Action → Prop
  | .adc _ => s.adcPc = .sample
  | _ => False

/-- The ADC thread releases the semaphore at a voltage that has reached `v`. -/
def ReachedRelease (v : Int) (s : State) (a : Action) : Prop := StopRelease s a ∧ v ≤ s.adcVoltage 1

instance (s : State) : (a : Action) → Decidable (SampleStep s a)
  | .adc _ => inferInstanceAs (Decidable (s.adcPc = .sample))
  | .phase _ | .tick | .pwm | .gpio _ _ | .serial _ _ => inferInstanceAs (Decidable False)

instance (v : Int) (s : State) (a : Action) : Decidable (ReachedRelease v s a) :=
  inferInstanceAs (Decidable (_ ∧ _))

/-- A step of a charge to `v` in which channel 1 can only be read as `r`. -/
def ChargingAt (v : Int) (r : Fin 4096) (s : State) : Action → Prop
  | .adc raw => s.runRecord = 1 ∧ s.voltageSet = v ∧ raw 1 = r
  | _ => s.runRecord = 1 ∧ s.voltageSet = v

/-- The set-point `v` can end a charge: if a suitable sample is read all the time, the semaphore is
released at a voltage that has reached `v`, after finitely many iterations of the ADC thread. -/
def EndsCharge (v : Int) : Prop :=
  ∃ r, ∀ h, ∃ N, ∀ seg s, controller.Run (seg ++ h) s → (∀ e ∈ seg, ChargingAt v r e.1 e.2) →
    N ≤ count SampleStep seg → 0 < count (ReachedRelease v) seg

/-! ### The greatest sample climbs to 320 -/

theorem lowPass_climbs {last : Int} (hl : 0 ≤ last ∧ last ≤ 320) :
    min 320 (last + 1) ≤ lowPass binary32 (convert 1 4095) last := by
  have hl' : 0 ≤ last ∧ last ≤ 329 := ⟨hl.1, by omega⟩
  rw [convert_max]
  by_cases h319 : last = 319
  · rw [h319, show lowPass binary32 329 319 = 320 by decide +kernel]
    exact min_le_left _ _
  · exact le_lowPass binary32_unit (by omega) hl' (by omega)

/-- After `k` samples the voltage is at least `k`, and with the sample that reached 320 the thread goes to
its release. -/
def Climbing (v : Int) (seg : Past) (s : State) : Prop :=
  0 < count (ReachedRelease v) seg ∨
    ((count SampleStep seg : Int) ≤ s.adcVoltage 1 ∧
      (count SampleStep seg = 320 →
        s.adcPc = .testRecord ∨ s.adcPc = .testVoltage ∨ s.adcPc = .release))

theorem Climbing.frame {v : Int} {seg : Past} (hclimb : Climbing v seg s) (hsample : ¬ SampleStep s a)
    (hvoltage : s'.adcVoltage 1 = s.adcVoltage 1)
    (hpc : 320 ≤ s.adcVoltage 1 →
      s.adcPc = .testRecord ∨ s.adcPc = .testVoltage ∨ s.adcPc = .release →
      ReachedRelease v s a ∨ s'.adcPc = .testRecord ∨ s'.adcPc = .testVoltage ∨ s'.adcPc = .release) :
    Climbing v ((s, a) :: seg) s' := by
  rw [Climbing, count_cons, count_cons, if_neg hsample, Nat.add_zero, hvoltage]
  rcases hclimb with hpos | ⟨hmin, hphase⟩
  · left
    omega
  · by_cases hrel : ReachedRelease v s a
    · left
      rw [if_pos hrel]
      omega
    · right
      refine ⟨hmin, fun hk => ?_⟩
      exact (hpc (by omega) (hphase hk)).resolve_left hrel

theorem climbing_sample {v : Int} {seg : Past} (hi : VoltageInv s) (hclimb : Climbing v seg s)
    {raw : Fin 7 → Fin 4096} (hraw : raw 1 = 4095) (hpc : s.adcPc = .sample)
    (hv : s'.adcVoltage 1 = lowPass binary32 (convert 1 (raw 1)) (s.lastVoltage 1))
    (hpc' : s'.adcPc = .testRecord) : Climbing v ((s, .adc raw) :: seg) s' := by
  have hsample : SampleStep s (.adc raw) := hpc
  rw [Climbing, count_cons, count_cons, if_pos hsample, hv, hraw]
  rcases hclimb with hpos | ⟨hmin, hphase⟩
  · left
    omega
  · right
    have hne : count SampleStep seg ≠ 320 := fun hk => by simpa [hpc] using hphase hk
    have hclimbs := lowPass_climbs (hi.range 1)
    have hle := (hi.range 1).2
    rw [hi.last] at hmin
    refine ⟨?_, fun _ => .inl hpc'⟩
    push_cast
    omega

theorem climbing_step {v : Int} (hv : v ≤ 320) {seg : Past} (hi : VoltageInv s)
    (hclimb : Climbing v seg s) (hc : ChargingAt v 4095 s a) (hstep : controller.step s a = some s') :
    Climbing v ((s, a) :: seg) s' := by
  cases step_effect hstep with
  | idle | tick | serial => exact hclimb.frame id rfl fun _ => .inr
  | activate p hg => exact hclimb.frame id (by simp [marked]) fun _ h => .inr (by simpa [marked] using h)
  | gpio pins mkfsOk s' hgpio => cases hgpio <;> exact hclimb.frame id rfl fun _ => .inr
  | pwm s' hpwm => cases hpwm <;> exact hclimb.frame id rfl fun _ => .inr
  | adc raw s' hadc =>
    obtain ⟨hrec, hset, hraw⟩ := hc
    have hidle : s.adcPc ≠ .sample → ¬ SampleStep s (.adc raw) := fun hne hs => hne hs
    cases hadc with
    | sample w hpc hw => exact climbing_sample hi hclimb hraw hpc (hw 1) rfl
    | recorded hpc hr => exact hclimb.frame (hidle (by simp [hpc])) rfl fun _ _ => .inr (.inr (.inl rfl))
    | notRecorded hpc hr => exact absurd hrec hr
    | reached hpc hge => exact hclimb.frame (hidle (by simp [hpc])) rfl fun _ _ => .inr (.inr (.inr rfl))
    | below hpc hlt =>
      refine hclimb.frame (hidle (by simp [hpc])) rfl fun hge _ => ?_
      omega
    | release hpc =>
      refine hclimb.frame (hidle (by simp [hpc])) (by simp) fun hge _ => .inl ⟨hpc, ?_⟩
      omega
    | ramp hpc | top hpc | found _ hpc | next _ hpc | setPercentage _ hpc | setChange hpc | delay hpc =>
      refine hclimb.frame (hidle (by simp [hpc])) rfl fun _ h => ?_
      simp [hpc] at h

theorem climbing {v : Int} (hv : v ≤ 320) (seg : Past) : ∀ s, controller.Run (seg ++ h) s →
    (∀ e ∈ seg, ChargingAt v 4095 e.1 e.2) → Climbing v seg s := by
  induction seg with
  | nil =>
    intro s hrun _
    have hi := voltageInv hrun
    right
    rw [count_nil, hi.last]
    exact ⟨(hi.range 1).1, by simp⟩
  | cons e seg ih =>
    intro s hrun hc
    cases hrun with
    | step hr hstep =>
      have hseg := ih _ hr fun e he => hc e (List.mem_cons_of_mem _ he)
      exact climbing_step hv (voltageInv hr) hseg (hc _ (List.mem_cons_self ..)) hstep

theorem endsCharge_of_le {v : Int} (hv : v ≤ 320) : EndsCharge v := by
  refine ⟨4095, fun h => ⟨321, fun seg s hrun hc hcount => ?_⟩⟩
  rcases climbing hv seg s hrun hc with hpos | ⟨hle, -⟩
  · exact hpos
  · have hi := voltageInv hrun
    rw [hi.last] at hle
    have hmax := (hi.range 1).2
    omega

/-! ### A set-point above 320 is never reached -/

theorem not_reached {v : Int} (hv : 320 < v) (hrun : controller.Run h s) :
    count (ReachedRelease v) h = 0 := by
  refine count_eq_zero ?_
  refine hrun.throughout_always (I := fun _ s => VoltageInv s) (fun h s hr => voltageInv hr) ?_
  rintro h s a s' - hi - ⟨-, hge⟩
  rw [hi.last] at hge
  have hmax := (hi.range 1).2
  omega

/-- `n` statements of the ADC thread alone, with one sample. -/
def adcRun (raw : Fin 7 → Fin 4096) (s : State) : Nat → Past × State
  | 0 => ([], s)
  | n + 1 => (((adcRun raw s n).2, .adc raw) :: (adcRun raw s n).1, readKnobVolEntry raw (adcRun raw s n).2)

section adcRun

variable (raw : Fin 7 → Fin 4096)

theorem adcRun_run (hrun : controller.Run h s) (n : Nat) :
    controller.Run ((adcRun raw s n).1 ++ h) (adcRun raw s n).2 := by
  induction n with
  | zero => exact hrun
  | succ n ih => exact .step ih rfl

theorem AdcStep.charge {raw : Fin 7 → Fin 4096} (hstep : AdcStep raw s s') :
    s'.runRecord = s.runRecord ∧ s'.voltageSet = s.voltageSet := by
  cases hstep <;> simp

theorem adcRun_charge (s : State) (n : Nat) :
    ((adcRun raw s n).2.runRecord = s.runRecord ∧ (adcRun raw s n).2.voltageSet = s.voltageSet) ∧
      ∀ e ∈ (adcRun raw s n).1,
        e.1.runRecord = s.runRecord ∧ e.1.voltageSet = s.voltageSet ∧ e.2 = .adc raw := by
  induction n with
  | zero => exact ⟨⟨rfl, rfl⟩, by simp [adcRun]⟩
  | succ n ih =>
    obtain ⟨⟨hrec, hset⟩, hall⟩ := ih
    obtain ⟨hrec', hset'⟩ := (readKnobVolEntry_step raw (adcRun raw s n).2).charge
    refine ⟨⟨hrec'.trans hrec, hset'.trans hset⟩, ?_⟩
    intro e he
    rcases List.mem_cons.mp he with rfl | he
    · exact ⟨hrec, hset, rfl⟩
    · exact hall e he

/-- How far the thread is from its next sample. -/
def adcRank : AdcPc → Nat
  | .sample => 0
  | .delay => 1
  | .setChange => 2
  | .setPercentage _ => 3
  | .scan j => 22 - j.val
  | .testPercentage => 23
  | .release => 24
  | .testVoltage => 25
  | .testRecord => 26

theorem AdcStep.rank_lt {raw : Fin 7 → Fin 4096} (hstep : AdcStep raw s s') (hpc : s.adcPc ≠ .sample) :
    adcRank s'.adcPc < adcRank s.adcPc := by
  cases hstep with
  | sample _ hs => exact absurd hs hpc
  | found j hs =>
    have hj := j.isLt
    rw [hs]
    show 3 < 22 - j.val
    omega
  | next j hs =>
    have hj := j.isLt
    rw [hs]
    show adcRank (nextScan j) < 22 - j.val
    unfold nextScan
    split
    · show 22 - (j.val + 1) < 22 - j.val
      omega
    · show 1 < 22 - j.val
      omega
  | release hs =>
    rw [releasePwm1Sem_adcPc, hs]
    simp [adcRank]
  | recorded hs | notRecorded hs | reached hs | below hs | ramp hs | top hs | setPercentage _ hs
  | setChange hs | delay hs =>
    rw [hs]
    simp [adcRank]

theorem adcRun_sample (s : State) (n : Nat) : ∃ m, n ≤ m ∧ (adcRun raw s m).2.adcPc = .sample := by
  induction hk : adcRank (adcRun raw s n).2.adcPc using Nat.strong_induction_on generalizing n with
  | _ k ih =>
    by_cases hpc : (adcRun raw s n).2.adcPc = .sample
    · exact ⟨n, le_refl n, hpc⟩
    · obtain ⟨m, hm, he⟩ := ih _ (hk ▸ (readKnobVolEntry_step raw _).rank_lt hpc) (n + 1) rfl
      exact ⟨m, by omega, he⟩

theorem adcRun_count_mono (s : State) {n m : Nat} (hnm : n ≤ m) :
    count SampleStep (adcRun raw s n).1 ≤ count SampleStep (adcRun raw s m).1 := by
  induction m, hnm using Nat.le_induction with
  | base => exact le_refl _
  | succ m _ ih =>
    rw [adcRun, count_cons]
    omega

theorem adcRun_unbounded (s : State) (N : Nat) : ∃ n, N ≤ count SampleStep (adcRun raw s n).1 := by
  induction N with
  | zero => exact ⟨0, Nat.zero_le _⟩
  | succ N ih =>
    obtain ⟨n, hn⟩ := ih
    obtain ⟨m, hm, hpc⟩ := adcRun_sample raw s n
    have hmono := adcRun_count_mono raw s hm
    refine ⟨m + 1, ?_⟩
    rw [adcRun, count_cons, if_pos (show SampleStep _ (.adc raw) from hpc)]
    omega

end adcRun

/-- Any pair that the serial thread stores can be the set-point of a charge. -/
theorem charge_at {v : Int} (hv : 0 < v ∧ v < 65536) :
    ∃ h s, controller.Run h s ∧ s.runRecord = 1 ∧ s.voltageSet = v := by
  obtain ⟨h, s, hrun, hpc, hrec, hm, hp⟩ := run_of_schedule ⟨true, some [1, 244, 5, 220]⟩
    [startUp, List.replicate 6 (.gpio startPins true)]
    (fun _ s => s.gpioPc = .paraRead ∧ s.runRecord = 1 ∧ s.volume.mounted = true ∧
      s.volume.params = some [1, 244, 5, 220]) (by decide +kernel)
  have hstored := ofInt_toNat (v := v) (by omega) hv.2
  have hserial : controller.Run ((s, .serial (UInt16.ofInt v) 1) :: h)
      { s with volume := paraWrite s.volume v 1 } := by
    refine .step hrun ?_
    show some _ = some _
    rw [hstored]
    rfl
  have hread := paraRead_paraWrite hm hp ⟨by omega, hv.2⟩ (c := 1) (by omega) (.inr (by omega)) s.voltageSet
    s.currentSet true
  have hgpio : controller.step { s with volume := paraWrite s.volume v 1 } (.gpio startPins true) =
      some { s with
        volume := (paraRead (paraWrite s.volume v 1) s.voltageSet s.currentSet true).1
        voltageSet := v
        currentSet := 1
        gpioPc := .record } := by
    show some (gpioEntry startPins true _) = _
    rw [gpioEntry, hpc]
    dsimp only
    rw [congrArg Prod.fst hread, congrArg Prod.snd hread]
  exact ⟨_, _, .step hserial hgpio, hrec, rfl⟩

theorem not_endsCharge {v : Int} (hv : 320 < v) (hv' : v < 65536) : ¬ EndsCharge v := by
  rintro ⟨r, hends⟩
  obtain ⟨h, s, hrun, hrec, hset⟩ := charge_at (v := v) ⟨by omega, hv'⟩
  obtain ⟨N, hN⟩ := hends h
  obtain ⟨n, hn⟩ := adcRun_unbounded (fun _ => r) s N
  have hrun' := adcRun_run (fun _ => r) hrun n
  have hnone := not_reached hv hrun'
  have hpos := hN _ _ hrun' (fun e he => ?_) hn
  · rw [count_append] at hnone
    omega
  · obtain ⟨hrec', hset', ha⟩ := (adcRun_charge (fun _ => r) s n).2 e he
    rw [ha]
    exact ⟨hrec'.trans hrec, hset'.trans hset, rfl⟩

/-! ### The exact condition -/

/-- A value that `voltage_set` can hold ends a charge exactly if it is at most 320. -/
theorem endsCharge_iff (hrun : controller.Run h s) : EndsCharge s.voltageSet ↔ s.voltageSet ≤ 320 := by
  refine ⟨fun hends => ?_, endsCharge_of_le⟩
  by_contra hgt
  exact not_endsCharge (by omega) (voltageInv hrun).voltageSet.2 hends

/-- The set-point 3.2 V, loaded from the flash. -/
theorem endsCharge_iff_run : ∃ h s, controller.Run h s ∧ s.voltageSet = 320 ∧
    (EndsCharge s.voltageSet ↔ s.voltageSet ≤ 320) := by
  obtain ⟨h, s, hrun, hset⟩ := run_of_schedule ⟨true, some [1, 64, 0, 1]⟩
    [startUp]
    (fun _ s => s.voltageSet = 320) (by decide +kernel)
  exact ⟨h, s, hrun, hset, endsCharge_iff hrun⟩

/-- The initial set-point, 5 V, ends no charge. -/
theorem initial_set_point_unreachable : ∃ h s, controller.Run h s ∧ s.voltageSet = 500 ∧
    ¬ EndsCharge s.voltageSet :=
  ⟨[], initState ⟨true, none⟩, .init ⟨_, rfl⟩, rfl, not_endsCharge (by decide) (by decide)⟩

end ThyristorController
