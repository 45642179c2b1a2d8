import ThyristorController.App.SoftStart
import ThyristorController.App.FilterLimit

/-!
# The height of the ramp

The iterations of `read_knob_vol_entry` and the shut-downs of `pwm_thread_entry` as single steps, connected to the
statements of the two threads by `adcIteration_steps` and `shutDown_steps`. When they are executed one at a time,
`percentage_set` climbs the rows of the table one by one: the search finds the row of `percentage_set` or no row at all
(`tableRow_eq`). So an iteration adds 5 or nothing, and the ramp stays within one row of the greatest voltage of the
charge (`ramp_follows_voltage`).
-/

namespace ThyristorController

open Transition

variable {s s' : State} {raw : Fin 7 → Fin 4096}

/-! ## An iteration and a shut-down -/

local instance tableNeZero : NeZero 2 := ⟨by decide⟩

/-- The two comparisons with row `j` of the table. -/
def RowMatches (adcVoltage percentageSet : Int) (j : Fin 19) : Prop :=
  adcVoltage ≥ voltagePercentageTable 0 j.castSucc ∧ percentageSet ≤ voltagePercentageTable 1 j.castSucc

instance (adcVoltage percentageSet : Int) (j : Fin 19) : Decidable (RowMatches adcVoltage percentageSet j) :=
  inferInstanceAs (Decidable (_ ∧ _))

/-- The loop over the table: the first row that matches. -/
def tableRow (adcVoltage percentageSet : Int) : Option (Fin 19) :=
  (List.finRange 19).find? (RowMatches adcVoltage percentageSet ·)

/-- What the loop stores. -/
def storeRow (s : State) : Option (Fin 19) → State
  | some j => { s with percentageSet := voltagePercentageTable 1 j.succ, percentageChange := 3 }
  | none => s

/-- The statements behind the sampling loops. -/
def testRecord (s : State) : State :=
  if s.runRecord = 1 then
    let s := if s.adcVoltage 1 ≥ s.voltageSet then releasePwm1Sem s else s
    if s.percentageSet < 100 then storeRow s (tableRow (s.adcVoltage 1) s.percentageSet) else s
  else s

/-- What the sampling loops store. -/
def sampled (adcVoltage : Fin 7 → Int) (s : State) : State :=
  { s with adcVoltage := adcVoltage, lastVoltage := adcVoltage }

/-- An iteration of `read_knob_vol_entry`, from one sampling to the next. -/
def adcIteration (raw : Fin 7 → Fin 4096) (s : State) : State :=
  testRecord (sampled (sampleLoops binary32 raw s.lastVoltage) s)

/-- The body of the shut-down loop for channel `i`. -/
def offChannel (i : Fin 4) (s : State) : State :=
  { s with
    pwmSet := Function.update s.pwmSet i 0
    pwm1Status := Function.update s.pwm1Status i 0
    percentageSet := 5
    runRecord := 0
    gpioMO1 := 0 }

/-- The shut-down branch of `pwm_thread_entry`. -/
def shutDown (s : State) : State := { offChannel 3 (offChannel 2 (offChannel 1 s)) with pwmPc := .take }

/-! ## They are what the statements do -/

/-- The ADC thread runs alone. -/
def OnlyAdc (raw : Fin 7 → Fin 4096) (_ : State) (a : Action) : Prop := a = .adc raw

/-- The PWM thread runs alone. -/
def OnlyPwm (_ : State) (a : Action) : Prop := a = .pwm

theorem steps_adc (raw : Fin 7 → Fin 4096) (s : State) : controller.Steps (OnlyAdc raw) s (readKnobVolEntry raw s) :=
  System.Steps.single rfl rfl

theorem steps_pwm (h : pwmThreadEntry s = some s') : controller.Steps OnlyPwm s s' :=
  System.Steps.single rfl h

theorem store_steps (j : Fin 19) :
    controller.Steps (OnlyAdc raw) { s with adcPc := .setPercentage j } { storeRow s (some j) with adcPc := .sample } :=
  (steps_adc raw _).trans ((steps_adc raw _).trans (steps_adc raw _))

theorem test_steps (j : Fin 19) :
    controller.Steps (OnlyAdc raw) { s with adcPc := .scan j }
      { s with
        adcPc := if RowMatches (s.adcVoltage 1) s.percentageSet j then .setPercentage j else nextScan j } :=
  steps_adc raw _

/-- The loop from row `n` on. -/
def rowFrom (adcVoltage percentageSet : Int) (n : Nat) : Option (Fin 19) :=
  ((List.finRange 19).drop n).find? (RowMatches adcVoltage percentageSet ·)

theorem rowFrom_eq (v p : Int) (j : Fin 19) :
    rowFrom v p j.val = if RowMatches v p j then some j else rowFrom v p (j.val + 1) := by
  have hlt : j.val < (List.finRange 19).length := by simp
  rw [rowFrom, List.drop_eq_getElem_cons hlt, List.getElem_finRange, List.find?_cons]
  split_ifs with hrow
  · simp [hrow]
  · simp [hrow, rowFrom]

theorem scan_steps (d : Nat) (j : Fin 19) (hd : j.val + d = 18) :
    controller.Steps (OnlyAdc raw) { s with adcPc := .scan j }
      { storeRow s (rowFrom (s.adcVoltage 1) s.percentageSet j.val) with adcPc := .sample } := by
  -- induction on the number of rows behind `j`
  induction d generalizing j with
  | zero =>
    have htest := @test_steps s raw j
    rw [rowFrom_eq]
    split_ifs at htest ⊢ with hrow
    · exact htest.trans (store_steps j)
    · have hend : nextScan j = .delay := dif_neg (by omega)
      have hnone : rowFrom (s.adcVoltage 1) s.percentageSet (j.val + 1) = none := by
        rw [rowFrom, List.drop_eq_nil_of_le (by simp; omega), List.find?_nil]
      rw [hend] at htest
      rw [hnone]
      exact htest.trans (steps_adc raw _)
  | succ d ih =>
    have htest := @test_steps s raw j
    rw [rowFrom_eq]
    split_ifs at htest ⊢ with hrow
    · exact htest.trans (store_steps j)
    · have hnext : nextScan j = .scan ⟨j.val + 1, by omega⟩ := dif_pos (by omega)
      rw [hnext] at htest
      exact htest.trans (ih ⟨j.val + 1, by omega⟩ (by dsimp only; omega))

theorem withAdcPc_eq {pc : AdcPc} (hpc : s.adcPc = pc) : { s with adcPc := pc } = s := by
  rw [← hpc]

theorem releasePwm1Sem_withAdcPc (s : State) (pc : AdcPc) :
    releasePwm1Sem { s with adcPc := pc } = { releasePwm1Sem s with adcPc := pc } := by
  unfold releasePwm1Sem
  cases rtSemRelease s.pwm1Sem with
  | mk sem r => cases r <;> rfl

theorem ramp_steps (s : State) :
    controller.Steps (OnlyAdc raw) { s with adcPc := .testPercentage }
      { (if s.percentageSet < 100 then storeRow s (tableRow (s.adcVoltage 1) s.percentageSet) else s) with
        adcPc := .sample } := by
  have htest : controller.Steps (OnlyAdc raw) { s with adcPc := .testPercentage }
      { s with adcPc := if s.percentageSet < 100 then .scan 0 else .delay } := steps_adc raw _
  split_ifs at htest ⊢ with hp
  · exact htest.trans (scan_steps 18 0 rfl)
  · exact htest.trans (steps_adc raw _)

theorem testRecord_steps (s : State) :
    controller.Steps (OnlyAdc raw) { s with adcPc := .testRecord } { testRecord s with adcPc := .sample } := by
  have hrecord : controller.Steps (OnlyAdc raw) { s with adcPc := .testRecord }
      { s with adcPc := if s.runRecord = 1 then .testVoltage else .delay } := steps_adc raw _
  have hvoltage : controller.Steps (OnlyAdc raw) { s with adcPc := .testVoltage }
      { s with adcPc := if s.adcVoltage 1 ≥ s.voltageSet then .release else .testPercentage } := steps_adc raw _
  have hrelease : controller.Steps (OnlyAdc raw) { s with adcPc := .release }
      { releasePwm1Sem s with adcPc := .testPercentage } := by
    rw [← releasePwm1Sem_withAdcPc]
    exact steps_adc raw _
  unfold testRecord
  by_cases hrec : s.runRecord = 1
  · rw [if_pos hrec] at hrecord ⊢
    by_cases hv : s.adcVoltage 1 ≥ s.voltageSet
    · rw [if_pos hv] at hvoltage ⊢
      exact hrecord.trans (hvoltage.trans (hrelease.trans (ramp_steps _)))
    · rw [if_neg hv] at hvoltage ⊢
      exact hrecord.trans (hvoltage.trans (ramp_steps s))
  · rw [if_neg hrec] at hrecord ⊢
    exact hrecord.trans (steps_adc raw _)

@[simp] theorem storeRow_adcPc (s : State) (row : Option (Fin 19)) : (storeRow s row).adcPc = s.adcPc := by
  cases row <;> rfl

@[simp] theorem sampled_adcPc (v : Fin 7 → Int) (s : State) : (sampled v s).adcPc = s.adcPc := rfl

@[simp] theorem testRecord_adcPc (s : State) : (testRecord s).adcPc = s.adcPc := by
  unfold testRecord
  dsimp only
  split_ifs <;> simp

@[simp] theorem adcIteration_adcPc (raw : Fin 7 → Fin 4096) (s : State) : (adcIteration raw s).adcPc = s.adcPc := by
  rw [adcIteration, testRecord_adcPc, sampled_adcPc]

theorem sample_steps {v : Fin 7 → Int} (hv : sampleLoops binary32 raw s.lastVoltage = v) (hpc : s.adcPc = .sample) :
    controller.Steps (OnlyAdc raw) s { sampled v s with adcPc := .testRecord } := by
  have hstep := steps_adc raw s
  rw [readKnobVolEntry_sample raw hpc, hv] at hstep
  exact hstep

theorem sampled_steps {v : Fin 7 → Int} (hv : sampleLoops binary32 raw s.lastVoltage = v) (hpc : s.adcPc = .sample) :
    controller.Steps (OnlyAdc raw) s (testRecord (sampled v s)) := by
  have hback : (testRecord (sampled v s)).adcPc = .sample := by rw [testRecord_adcPc, sampled_adcPc, hpc]
  rw [← withAdcPc_eq hback]
  exact (sample_steps hv hpc).trans (testRecord_steps (sampled v s))

/-- From one sampling to the next, the statements of the ADC thread are an iteration. -/
theorem adcIteration_steps (raw : Fin 7 → Fin 4096) (hpc : s.adcPc = .sample) :
    controller.Steps (OnlyAdc raw) s (adcIteration raw s) :=
  sampled_steps rfl hpc

theorem offChannel_steps (i : Fin 4) (s : State) :
    controller.Steps OnlyPwm { s with pwmPc := .off i .pulse } { offChannel i s with pwmPc := nextOff i } := by
  refine (steps_pwm rfl).trans ?_
  refine (steps_pwm rfl).trans ?_
  refine (steps_pwm rfl).trans ?_
  refine (steps_pwm rfl).trans ?_
  refine (steps_pwm rfl).trans ?_
  refine (steps_pwm rfl).trans ?_
  exact steps_pwm rfl

/-- From its start to its end, the statements of the shut-down loop are a shut-down. -/
theorem shutDown_steps (hpc : s.pwmPc = .off 1 .pulse) : controller.Steps OnlyPwm s (shutDown s) := by
  have hfirst := offChannel_steps 1 s
  rw [← hpc] at hfirst
  exact hfirst.trans ((offChannel_steps 2 _).trans (offChannel_steps 3 _))

/-! ## One iteration -/

theorem rowMatches_iff (v p : Int) (j : Fin 19) :
    RowMatches v p j ↔ 5 * (j.val + 1 : Int) ≤ v ∧ p ≤ 5 * (j.val + 1) := by
  rw [RowMatches, voltagePercentageTable_eq, voltagePercentageTable_eq]
  simp

theorem tableRow_eq {v p : Int} (k : Fin 19) (hp : p = 5 * (k.val + 1)) :
    tableRow v p = if p ≤ v then some k else none := by
  split_ifs with hv
  · rw [tableRow, List.find?_eq_some_iff_getElem]
    refine ⟨?_, k.val, by simp, by simp, ?_⟩
    · simp only [decide_eq_true_eq, rowMatches_iff]
      omega
    · intro j hj
      simp only [List.getElem_finRange, Bool.not_eq_true', decide_eq_false_iff_not, rowMatches_iff]
      simp
      omega
  · rw [tableRow, List.find?_eq_none]
    intro j _
    simp only [decide_eq_true_eq, rowMatches_iff]
    omega

/-- A row of the table. -/
def OnTable (percentageSet : Int) : Prop := 5 ∣ percentageSet ∧ 5 ≤ percentageSet ∧ percentageSet ≤ 100

theorem onTable_five : OnTable 5 := ⟨dvd_refl 5, le_refl 5, by norm_num⟩

/-- The variables of the ramp behind an iteration with the voltage `v`. -/
def nextRow (v : Int) (s : State) : Int × Nat :=
  if s.percentageSet < 100 ∧ s.percentageSet ≤ v then (s.percentageSet + 5, 3)
  else (s.percentageSet, s.percentageChange)

theorem nextRow_follows (hp : OnTable s.percentageSet) (v : Int) :
    OnTable (nextRow v s).1 ∧ ((nextRow v s).1 = s.percentageSet ∨ (nextRow v s).1 ≤ 5 * (v / 5 + 1)) := by
  obtain ⟨hdvd, hlow, htop⟩ := id hp
  unfold nextRow
  split_ifs with hnext
  · refine ⟨⟨?_, ?_, ?_⟩, .inr ?_⟩ <;> dsimp only <;> omega
  · exact ⟨hp, .inl rfl⟩

theorem storeRow_ramp (hp : OnTable s.percentageSet) (hlt : s.percentageSet < 100) (v : Int) :
    ((storeRow s (tableRow v s.percentageSet)).percentageSet,
      (storeRow s (tableRow v s.percentageSet)).percentageChange) = nextRow v s := by
  obtain ⟨⟨m, hm⟩, hlow, -⟩ := hp
  obtain ⟨k, hk⟩ := Int.eq_ofNat_of_zero_le (show 0 ≤ m - 1 by omega)
  have hrow : s.percentageSet = 5 * (k + 1) := by omega
  rw [tableRow_eq ⟨k, by omega⟩ hrow, nextRow]
  by_cases hv : s.percentageSet ≤ v
  · rw [if_pos hv, if_pos ⟨hlt, hv⟩, storeRow, voltagePercentageTable_succ]
    simp
    omega
  · rw [if_neg hv, if_neg (fun h => hv h.2), storeRow]

theorem testRecord_ramp (hp : OnTable s.percentageSet) :
    ((testRecord s).percentageSet, (testRecord s).percentageChange) =
      if s.runRecord = 1 then nextRow (s.adcVoltage 1) s else (s.percentageSet, s.percentageChange) := by
  have hbranch : ∀ t : State, OnTable t.percentageSet →
      ((if t.percentageSet < 100 then storeRow t (tableRow (t.adcVoltage 1) t.percentageSet) else t).percentageSet,
        (if t.percentageSet < 100 then storeRow t (tableRow (t.adcVoltage 1) t.percentageSet)
          else t).percentageChange) =
        nextRow (t.adcVoltage 1) t := by
    intro t ht
    split_ifs with hlt
    · exact storeRow_ramp ht hlt _
    · rw [nextRow, if_neg (fun h => hlt h.1)]
  unfold testRecord
  by_cases hrec : s.runRecord = 1
  · simp only [if_pos hrec]
    by_cases hv : s.adcVoltage 1 ≥ s.voltageSet
    · rw [if_pos hv, hbranch _ (by simpa), nextRow, nextRow]
      simp
    · rw [if_neg hv, hbranch s hp]
  · simp only [if_neg hrec]

/-! ## Runs -/

/-- An iteration, a shut-down, or a statement of another thread while neither is under way. -/
inductive RampAction where
  | adcIteration (raw : Fin 7 → Fin 4096)
  | shutDown
  | other (a : Action)

/-- The PWM thread is in its shut-down loop. -/
def shuttingDown : PwmPc → Bool
  | .off _ _ => true
  | _ => false

/-- The statements that belong to neither an iteration nor a shut-down. -/
def outside (s : State) : Action → Bool
  | .adc _ => false
  | .pwm => !shuttingDown s.pwmPc
  | _ => true

def rampStep (s : State) : RampAction → Option State
  | .adcIteration raw => if s.adcPc = .sample then some (adcIteration raw s) else none
  | .shutDown => if s.pwmPc = .off 1 .pulse then some (shutDown s) else none
  | .other a => if outside s a then controller.step s a else none

/-- Iterations and shut-downs one at a time. -/
def ramp : System State RampAction where
  init := controller.init
  step := rampStep

variable {h : History State RampAction} {a : RampAction}

theorem ramp_refines (hrun : ramp.Run h s) : ∃ h', controller.Run h' s := by
  refine hrun.always (I := fun _ s => ∃ h', controller.Run h' s) ?_ ?_
  · exact fun s hs => ⟨[], .init hs⟩
  · rintro h s a s' - ⟨h', hr⟩ hstep
    cases a with
    | adcIteration raw =>
      obtain ⟨hpc, heq⟩ := Option.ite_none_right_eq_some.mp hstep
      cases heq
      exact (adcIteration_steps raw hpc).run hr
    | shutDown =>
      obtain ⟨hpc, heq⟩ := Option.ite_none_right_eq_some.mp hstep
      cases heq
      exact (shutDown_steps hpc).run hr
    | other a =>
      obtain ⟨-, heq⟩ := Option.ite_none_right_eq_some.mp hstep
      exact ⟨_, hr.step heq⟩

/-- The values of `adc_voltage[1]` in the iterations of this charge, newest first. -/
def seen : History State RampAction → List Int
  | [] => []
  | (s, .adcIteration raw) :: h => if s.runRecord = 1 then (adcIteration raw s).adcVoltage 1 :: seen h else seen h
  | (_, .shutDown) :: _ => []
  | (_, .other _) :: h => seen h

/-- The greatest of them, 0 if there is none. -/
def largest (voltages : List Int) : Int := voltages.foldr max 0

theorem le_largest {voltages : List Int} {v : Int} (hv : v ∈ voltages) : v ≤ largest voltages := by
  induction hv with
  | head => exact le_max_left _ _
  | tail _ _ ih => exact ih.trans (le_max_right _ _)

@[simp] theorem storeRow_adcVoltage (s : State) (row : Option (Fin 19)) :
    (storeRow s row).adcVoltage = s.adcVoltage := by
  cases row <;> rfl

@[simp] theorem testRecord_adcVoltage (s : State) : (testRecord s).adcVoltage = s.adcVoltage := by
  unfold testRecord
  dsimp only
  split_ifs <;> simp

theorem adcIteration_ramp (raw : Fin 7 → Fin 4096) (hp : OnTable s.percentageSet) :
    ((adcIteration raw s).percentageSet, (adcIteration raw s).percentageChange) =
      if s.runRecord = 1 then nextRow ((adcIteration raw s).adcVoltage 1) s
      else (s.percentageSet, s.percentageChange) := by
  obtain ⟨v, hv⟩ : ∃ v, adcIteration raw s = testRecord (sampled v s) := ⟨_, rfl⟩
  rw [hv, testRecord_adcVoltage]
  exact testRecord_ramp (s := sampled v s) hp

/-- The ramp is on the table, and within a row of a voltage of the charge. -/
structure RampOk (h : History State RampAction) (s : State) : Prop where
  onTable : OnTable s.percentageSet
  follows : s.percentageSet = 5 ∨ ∃ v ∈ seen h, s.percentageSet ≤ 5 * (v / 5 + 1)

/-- A statement outside iterations and shut-downs leaves the ramp alone. -/
theorem outside_percentageSet {a : Action} (hout : outside s a = true) (hstep : controller.step s a = some s') :
    s'.percentageSet = s.percentageSet := by
  cases step_effect hstep with
  | idle | tick | serial => rfl
  | activate p hg => simp [marked]
  | adc raw s' hadc => cases hout
  | gpio pins mkfsOk s' hgpio => cases hgpio <;> rfl
  | pwm s' hpwm =>
    cases hpwm with
    | offPercentage i hpc => simp [outside, shuttingDown, hpc] at hout
    | _ => rfl

theorem rampOk_step (hi : RampOk h s) (hstep : ramp.step s a = some s') : RampOk ((s, a) :: h) s' := by
  obtain ⟨htable, hfollows⟩ := hi
  cases a with
  | adcIteration raw =>
    obtain ⟨-, heq⟩ := Option.ite_none_right_eq_some.mp hstep
    obtain rfl := Option.some.inj heq
    have hramp := adcIteration_ramp raw htable
    by_cases hrec : s.runRecord = 1
    · rw [if_pos hrec] at hramp
      have hseen : seen ((s, .adcIteration raw) :: h) = (adcIteration raw s).adcVoltage 1 :: seen h := if_pos hrec
      have hnext := nextRow_follows htable ((adcIteration raw s).adcVoltage 1)
      rw [← hramp] at hnext
      refine ⟨hnext.1, ?_⟩
      rw [hseen]
      rcases hnext.2 with hsame | hrow
      · dsimp only at hsame
        rw [hsame]
        exact hfollows.imp_right fun ⟨v, hv, hle⟩ => ⟨v, .tail _ hv, hle⟩
      · exact .inr ⟨_, .head _, hrow⟩
    · rw [if_neg hrec] at hramp
      have hseen : seen ((s, .adcIteration raw) :: h) = seen h := if_neg hrec
      obtain ⟨hsame, -⟩ := Prod.mk.inj hramp
      exact ⟨hsame ▸ htable, by rwa [hseen, hsame]⟩
  | shutDown =>
    obtain ⟨-, heq⟩ := Option.ite_none_right_eq_some.mp hstep
    cases heq
    exact ⟨onTable_five, .inl rfl⟩
  | other a =>
    obtain ⟨hout, heq⟩ := Option.ite_none_right_eq_some.mp hstep
    have hsame := outside_percentageSet hout heq
    exact ⟨hsame ▸ htable, hsame ▸ hfollows⟩

theorem rampOk (hrun : ramp.Run h s) : RampOk h s := by
  refine hrun.always (I := RampOk) ?_ ?_
  · rintro s ⟨volume, rfl⟩
    exact ⟨onTable_five, .inl rfl⟩
  · exact fun h s a s' _ hi hstep => rampOk_step hi hstep

/-- With iterations and shut-downs one at a time, `percentage_set` is on the table, an iteration of a charge takes the
next row exactly if the voltage has come to the present one, the ramp is at most one row above the greatest voltage of
the charge, and the wait for the firing does not wrap around. -/
theorem ramp_follows_voltage (hrun : ramp.Run h s) :
    (5 ∣ s.percentageSet ∧ 5 ≤ s.percentageSet ∧ s.percentageSet ≤ 100) ∧
      (∀ raw, s.runRecord = 1 →
        ((adcIteration raw s).percentageSet ≠ s.percentageSet ↔
          s.percentageSet < 100 ∧ s.percentageSet ≤ (adcIteration raw s).adcVoltage 1) ∧
        ((adcIteration raw s).percentageSet ≠ s.percentageSet →
          (adcIteration raw s).percentageSet = s.percentageSet + 5 ∧ (adcIteration raw s).percentageChange = 3)) ∧
      s.percentageSet ≤ max 5 (5 * (largest (seen h) / 5 + 1)) ∧
      (waitTicks s.percentageSet : Int) = 100 - s.percentageSet := by
  obtain ⟨htable, hfollows⟩ := rampOk hrun
  refine ⟨htable, ?_, ?_, waitTicks_eq htable.2.1 htable.2.2⟩
  · intro raw hrec
    have hramp := adcIteration_ramp raw htable
    rw [if_pos hrec, nextRow] at hramp
    split_ifs at hramp with hnext
    · obtain ⟨hp, hc⟩ := Prod.mk.inj hramp
      rw [hp]
      exact ⟨⟨fun _ => hnext, fun _ => by omega⟩, fun _ => ⟨rfl, hc⟩⟩
    · obtain ⟨hp, -⟩ := Prod.mk.inj hramp
      exact ⟨⟨fun hne => absurd hp hne, fun h => absurd h hnext⟩, fun hne => absurd hp hne⟩
  · rcases hfollows with hfive | ⟨v, hv, hle⟩
    · rw [hfive]
      exact le_max_left _ _
    · have hlargest := le_largest hv
      refine le_max_of_le_right (hle.trans ?_)
      omega

/-- A charge with two rows, its end, and the first iteration of the next charge. -/
theorem ramp_follows_voltage_run : ∃ h s, ramp.Run h s ∧ (s.percentageSet = 10 ∧ largest (seen h) = 54) ∧
    s.percentageSet ≤ max 5 (5 * (largest (seen h) / 5 + 1)) := by
  obtain ⟨h, s, hrun, hend⟩ := ramp.exists_run (s := initState ⟨true, some [0, 0, 0, 1]⟩) ⟨_, rfl⟩
    (startUp.map .other ++ [.adcIteration fun _ => 4095, .adcIteration fun _ => 4095] ++
      List.replicate 2 (.other .pwm) ++ [.shutDown] ++ List.replicate 8 (.other (.gpio startPins true)) ++
        [.adcIteration fun _ => 0])
    (fun h s => s.percentageSet = 10 ∧ largest (seen h) = 54) (by decide +kernel)
  exact ⟨h, s, hrun, hend, (ramp_follows_voltage hrun).2.2.1⟩

end ThyristorController
