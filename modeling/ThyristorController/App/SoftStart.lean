import ThyristorController.App.Tokens

/-!
# The ramp of `percentage_set`

`read_knob_vol_entry` tests `percentage_set` against a row of its table and stores the next row. The
shut-down loop stores 5, the initial value, before it clears `run_record`. No other statement writes
`percentage_set`, so the ramp never goes down but by that reset (`soft_start`), and it starts at the
bottom if the stores of the ramp fall into the charge that computed them.
-/

namespace ThyristorController

open Transition

variable {h : Past} {s s' : State} {a : Action}

/-! ## The range of the ramp -/

/-- The row that the ADC thread is about to leave is not below `percentage_set`. -/
structure RampInv (s : State) : Prop where
  lower : 5 ≤ s.percentageSet
  upper : s.percentageSet ≤ 100
  row : ∀ j, s.adcPc = .setPercentage j → s.percentageSet ≤ 5 * (j.val + 1)

theorem rampInv_step (hi : RampInv s) (hstep : controller.step s a = some s') : RampInv s' := by
  obtain ⟨hlo, hhi, hrow⟩ := hi
  cases step_effect hstep with
  | idle | tick | serial => exact ⟨hlo, hhi, hrow⟩
  | activate p hg => exact ⟨by simpa [marked], by simpa [marked], by simpa [marked]⟩
  | adc raw s' hadc =>
    cases hadc with
    | sample | recorded | notRecorded | reached | below | ramp | top | delay => exact ⟨hlo, hhi, by simp⟩
    | release hpc => exact ⟨by simpa, by simpa, by simp⟩
    | found j hpc hv hp =>
      refine ⟨hlo, hhi, ?_⟩
      rintro k ⟨rfl⟩
      rwa [voltagePercentageTable_eq] at hp
    | next j hpc =>
      refine ⟨hlo, hhi, ?_⟩
      intro k hk
      unfold nextScan at hk
      split at hk <;> cases hk
    | setPercentage j hpc =>
      have hj := j.isLt
      refine ⟨?_, ?_, by simp⟩ <;> simp only [voltagePercentageTable_succ] <;> omega
    | setChange hpc => exact ⟨hlo, hhi, by simp⟩
  | gpio pins mkfsOk s' hgpio => cases hgpio <;> exact ⟨hlo, hhi, hrow⟩
  | pwm s' hpwm =>
    cases hpwm with
    | offPercentage i hpc =>
      refine ⟨le_refl 5, by norm_num, fun j hj => ?_⟩
      show (5 : Int) ≤ 5 * (j.val + 1)
      omega
    | _ => exact ⟨hlo, hhi, hrow⟩

theorem rampInv (hrun : controller.Run h s) : RampInv s := by
  refine hrun.always (I := fun _ s => RampInv s) ?_ ?_
  · rintro s ⟨volume, rfl⟩
    exact ⟨le_refl 5, by simp [initState], by simp [initState]⟩
  · exact fun h s a s' _ hi hstep => rampInv_step hi hstep

/-! ## The ramp during a charge -/

/-- The shut-down loop stores the initial value of `percentage_set`. -/
def PercentageReset (s : State) : Action → Prop
  | .pwm => ∃ i, s.pwmPc = .off i .percentage
  | _ => False

/-- The shut-down loop clears `run_record`. -/
def RecordClear (s : State) : Action → Prop
  | .pwm => ∃ i, s.pwmPc = .off i .record
  | _ => False

/-- The ADC thread stores one of the two variables of the ramp. -/
def RampWrite (s : State) : Action → Prop
  | .adc _ => (∃ j, s.adcPc = .setPercentage j) ∨ s.adcPc = .setChange
  | _ => False

instance (s : State) : (a : Action) → Decidable (PercentageReset s a)
  | .pwm => inferInstanceAs (Decidable (∃ i, s.pwmPc = .off i .percentage))
  | .phase _ | .tick | .adc _ | .gpio _ _ | .serial _ _ => inferInstanceAs (Decidable False)

instance (s : State) : (a : Action) → Decidable (RecordClear s a)
  | .pwm => inferInstanceAs (Decidable (∃ i, s.pwmPc = .off i .record))
  | .phase _ | .tick | .adc _ | .gpio _ _ | .serial _ _ => inferInstanceAs (Decidable False)

instance (s : State) : (a : Action) → Decidable (RampWrite s a)
  | .adc _ => inferInstanceAs (Decidable ((∃ j, s.adcPc = .setPercentage j) ∨ s.adcPc = .setChange))
  | .phase _ | .tick | .pwm | .gpio _ _ | .serial _ _ => inferInstanceAs (Decidable False)

/-- A charge starts at the bottom of the ramp. -/
def StartsSoft (s : State) (a : Action) : Prop :=
  ChargeStart s a → s.percentageSet = 5 ∧ s.percentageChange = 0

/-- The step does not lower `percentage_set`. -/
def NotLowered (s : State) (a : Action) : Prop :=
  ∀ s' ∈ controller.step s a, s.percentageSet ≤ s'.percentageSet

instance (s : State) (a : Action) : Decidable (StartsSoft s a) := inferInstanceAs (Decidable (_ → _))
instance (s : State) (a : Action) : Decidable (NotLowered s a) :=
  inferInstanceAs (Decidable (∀ s' ∈ controller.step s a, _))

/-- The ramp is written in the charge that computed it, and has been taken up when the charge ends. -/
def RampInCharge (s : State) (a : Action) : Prop :=
  (RampWrite s a → s.runRecord = 1 ∧ ∀ i, s.pwmPc ≠ .off i .record) ∧
    (RecordClear s a → s.percentageChange = 0)

instance (s : State) (a : Action) : Decidable (RampInCharge s a) := inferInstanceAs (Decidable (_ ∧ _))

theorem notLowered_step (hi : RampInv s) (hreset : ¬ PercentageReset s a) : NotLowered s a := by
  intro s' hs'
  cases step_effect (Option.mem_def.mp hs') with
  | idle | tick | serial => exact le_refl _
  | activate p hg => simp [marked]
  | adc raw s' hadc =>
    cases hadc with
    | release hpc => simp
    | setPercentage j hpc =>
      have hrow := hi.row j hpc
      rw [voltagePercentageTable_succ]
      show s.percentageSet ≤ 5 * ((j.val : Int) + 2)
      omega
    | _ => exact le_refl _
  | gpio pins mkfsOk s' hgpio => cases hgpio <;> exact le_refl _
  | pwm s' hpwm =>
    cases hpwm with
    | offPercentage i hpc => exact absurd ⟨i, hpc⟩ hreset
    | _ => exact le_refl _

/-- Out of a charge the ramp is at the bottom; the shut-down puts it there before it ends the charge. -/
structure BottomInv (s : State) : Prop where
  idle : s.runRecord = 1 ∨ (s.percentageSet = 5 ∧ s.percentageChange = 0)
  ending : ∀ i, s.pwmPc = .off i .record → s.percentageSet = 5

theorem bottomInv_step (hs : Suspended s) (hi : BottomInv s) (hg : RampInCharge s a)
    (hstep : controller.step s a = some s') : BottomInv s' := by
  obtain ⟨hidle, hend⟩ := hi
  have hreleased : ∀ i, released s.pwmPc = .off i .record → s.percentageSet = 5 :=
    fun i hpc => hend i ((released_eq_iff (.inr rfl) (by simp) (by simp)).mp hpc)
  cases step_effect hstep with
  | idle | tick | serial => exact ⟨hidle, hend⟩
  | activate p hact =>
    refine ⟨?_, ?_⟩
    · rcases hidle with hrec | ⟨-, hpch⟩
      · left
        simpa [marked] using hrec
      · rcases hact with ⟨hrec, -⟩ | hturn
        · left
          simpa [marked] using hrec
        · rw [hpch] at hturn
          cases p <;> cases hturn
    · intro i hpc
      rw [activate_pwmPc hs] at hpc
      simpa [marked] using hreleased i hpc
  | adc raw s' hadc =>
    cases hadc with
    | release hpc =>
      refine ⟨by simpa using hidle, ?_⟩
      intro i hi
      rw [release_pwmPc hs] at hi
      simpa using hreleased i hi
    | setPercentage j hpc =>
      obtain ⟨hrec, hnot⟩ := hg.1 (.inl ⟨j, hpc⟩)
      exact ⟨.inl hrec, fun i hi => absurd hi (hnot i)⟩
    | setChange hpc => exact ⟨.inl (hg.1 (.inr hpc)).1, hend⟩
    | _ => exact ⟨hidle, hend⟩
  | gpio pins mkfsOk s' hgpio =>
    cases hgpio with
    | record => exact ⟨.inl rfl, hend⟩
    | _ => exact ⟨hidle, hend⟩
  | pwm s' hpwm =>
    cases hpwm with
    | offPercentage i hpc => exact ⟨hidle.imp_right fun h => ⟨rfl, h.2⟩, fun _ _ => rfl⟩
    | offRecord i hpc => exact ⟨.inr ⟨hend i hpc, hg.2 ⟨i, hpc⟩⟩, by simp⟩
    | offRelayOff i hpc =>
      exact ⟨hidle, fun j hj => absurd hj (nextOff_ne i (by simp) (by simp))⟩
    | waitMore => exact ⟨hidle, hend⟩
    | _ => exact ⟨hidle, by simp⟩

/-- `percentage_set` is lowered by the reset of the shut-down only; and if the ramp is written in its
charge and taken up before the end of it, every charge starts at the bottom. -/
theorem soft_start (hrun : controller.Run h s) :
    Throughout (fun _ s a => ¬ PercentageReset s a → NotLowered s a) h ∧
      (Throughout (fun _ s a => RampInCharge s a) h → Throughout (fun _ s a => StartsSoft s a) h) := by
  refine ⟨?_, ?_⟩
  · refine hrun.throughout_always (I := fun _ s => RampInv s) ?_ ?_
    · exact fun h s hr => rampInv hr
    · exact fun h s a s' _ hi _ => notLowered_step hi
  · intro hramp
    refine hrun.throughout (I := fun _ s => BottomInv s) ?_ ?_ hramp
    · intro h s hr hramp
      refine hr.invariant (I := fun _ s => BottomInv s) ?_ ?_ hramp
      · rintro s ⟨volume, rfl⟩
        exact ⟨.inr ⟨rfl, rfl⟩, by simp [initState]⟩
      · exact fun h s a s' hr hi hg hstep => bottomInv_step (chanInv hr).refines.suspended hi hg hstep
    · intro h s a s' _ hi _ _ hstart
      cases a with
      | gpio pins mkfsOk =>
        rcases hi.idle with hrec | hbottom
        · rw [hstart.2] at hrec
          cases hrec
        · exact hbottom
      | phase _ | tick | adc _ | pwm | serial _ _ => exact hstart.elim

/-- Two charges, the first with a step of the ramp that all three phases take up. -/
theorem soft_start_run : ∃ h s, controller.Run h s ∧ (count ChargeStart h = 2 ∧ count RampWrite h = 2) ∧
    Throughout (fun _ s a => StartsSoft s a) h := by
  obtain ⟨h, s, hrun, hramp, hend⟩ := run_of_schedule ⟨true, some [0, 5, 0, 1]⟩
    [startUp, List.replicate 8 (.adc fun _ => 4095), [.phase .U, .phase .V, .phase .W],
      List.replicate 3 .pwm, List.replicate 91 .tick, List.replicate 26 .pwm,
      List.replicate 8 (.gpio startPins true)]
    (fun h _ => Throughout (fun _ s a => RampInCharge s a) h ∧ count ChargeStart h = 2 ∧
      count RampWrite h = 2) (by decide +kernel)
  exact ⟨h, s, hrun, hend, (soft_start hrun).2 hramp⟩

/-- The shut-down of a charge that has ramped up to 10 stores 5 while `run_record` is still 1. -/
theorem lowered_in_charge : ∃ h s, controller.Run h s ∧
    ¬ Throughout (fun _ s a => StartsSoft s a ∧ (s.runRecord = 1 → NotLowered s a)) h :=
  run_of_schedule ⟨true, some [0, 5, 0, 1]⟩
    [startUp, List.replicate 8 (.adc fun _ => 4095), List.replicate 5 .pwm]
    (fun h _ => ¬ Throughout (fun _ s a => StartsSoft s a ∧ (s.runRecord = 1 → NotLowered s a)) h)
    (by decide +kernel)

end ThyristorController
