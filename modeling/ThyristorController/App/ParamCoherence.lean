import ThyristorController.App.ParamFile

/-!
# The set-points in use and the set-points on the flash

When `para_read` returns, the pair in use should be the one that `/params.dat` decodes to. The branch for a file with
parameters takes the pair from the file, and the branch for a file without writes the pair to it. The branch for a
failed open relies on `para_write` as well, which opens without `O_CREAT`: behind a format there is no file to open.
`paraRead_stores_iff` says when the pair is on the flash.
-/

namespace ThyristorController.ParamFile

variable {vol : ElmVolume} {bytes : List UInt8} {o : Outcomes}

/-- The pair that the first four bytes stand for; a missing byte counts as 0. -/
def decode (bytes : List UInt8) : Int × Int := (loadedVoltage bytes, loadedCurrent bytes)

/-- The flash holds the pair. -/
def Stores (vol : ElmVolume) (pair : Int × Int) : Prop := ∃ bytes, vol.params = some bytes ∧ decode bytes = pair

/-- Two 16-bit values, as the bytes of a file with parameters stand for them. -/
structure PairOk (pair : Int × Int) : Prop where
  voltage : 0 ≤ pair.1 ∧ pair.1 < 65536
  current : 0 ≤ pair.2 ∧ pair.2 < 65536
  nonzero : pair ≠ (0, 0)

/-- `voltage_set` and `current_set` behind some calls of `para_read`, each with what it found. -/
def inUse (calls : List (ElmVolume × Outcomes)) : Int × Int :=
  calls.foldl (fun pair call => (paraRead call.1 call.2 pair.1 pair.2).2) (voltageSetInit, currentSetInit)

/-- The state of the file system, and the outcomes of its calls, from which the pair comes to the flash. -/
def Recovers (vol : ElmVolume) (o : Outcomes) (pair : Int × Int) : Prop :=
  if vol.mounted = true ∧ o.openGranted = true then
    (∃ bytes, vol.params = some bytes ∧ AnyParam bytes) ∨ o.rewriteGranted = true
  else
    o.mkfsOk = false ∧
      ((vol.mounted = true ∧ o.rewriteGranted = true ∧ vol.params ≠ none) ∨ Stores vol pair)

/-! ## Decoding -/

theorem getD_take {i : Nat} (hi : i < 5) : (bytes.take 5).getD i 0 = bytes.getD i 0 := by
  rw [List.getD_eq_getElem?_getD, List.getD_eq_getElem?_getD, List.getElem?_take, if_pos hi]

theorem anyParam_take : AnyParam (bytes.take 5) ↔ AnyParam bytes := by
  simp only [AnyParam, getD_take (by decide : 0 < 5), getD_take (by decide : 1 < 5), getD_take (by decide : 2 < 5),
    getD_take (by decide : 3 < 5)]

theorem decode_take : decode (bytes.take 5) = decode bytes := by
  simp only [decode, loadedVoltage, loadedCurrent, getD_take (by decide : 0 < 5), getD_take (by decide : 1 < 5),
    getD_take (by decide : 2 < 5), getD_take (by decide : 3 < 5)]

theorem decode_nonzero : decode bytes ≠ (0, 0) ↔ AnyParam bytes := by
  have h0 := toNat_pos (b := bytes.getD 0 0)
  have h1 := toNat_pos (b := bytes.getD 1 0)
  have h2 := toNat_pos (b := bytes.getD 2 0)
  have h3 := toNat_pos (b := bytes.getD 3 0)
  rw [AnyParam, ← h0, ← h1, ← h2, ← h3, decode, loadedVoltage, loadedCurrent, Ne, Prod.mk.injEq]
  omega

theorem pairOk_decode (hany : AnyParam bytes) : PairOk (decode bytes) := by
  have h0 := (bytes.getD 0 0).toNat_lt
  have h1 := (bytes.getD 1 0).toNat_lt
  have h2 := (bytes.getD 2 0).toNat_lt
  have h3 := (bytes.getD 3 0).toNat_lt
  refine ⟨?_, ?_, decode_nonzero.mpr hany⟩
  · simp only [decode, loadedVoltage]
    omega
  · simp only [decode, loadedCurrent]
    omega

theorem decode_paraBytes {v c : Int} (hok : PairOk (v, c)) (rest : List UInt8) :
    decode (paraBytes v c ++ rest) = (v, c) := by
  obtain ⟨-, hv, hc⟩ := loaded_paraBytes hok.voltage hok.current hok.nonzero rest
  rw [← decode_take, decode, hv, hc]

/-! ## The pair in use -/

theorem pairOk_init : PairOk (voltageSetInit, currentSetInit) := ⟨by decide, by decide, by decide⟩

theorem refused_of_not (hopen : ¬ (vol.mounted = true ∧ o.openGranted = true)) :
    o.openGranted = false ∨ vol.mounted = false := by
  rw [not_and_or, Bool.not_eq_true, Bool.not_eq_true] at hopen
  exact hopen.symm

theorem paraRead_pair {v c : Int} (hok : PairOk (v, c)) : PairOk (paraRead vol o v c).2 := by
  by_cases hopen : vol.mounted = true ∧ o.openGranted = true
  · cases hp : vol.params with
    | none =>
      rw [paraRead_absent hopen.1 hp hopen.2]
      exact hok
    | some bytes =>
      rw [paraRead_existing hopen.1 hp hopen.2]
      split_ifs with hany
      · exact pairOk_decode hany
      · exact hok
  · rw [paraRead_refused (refused_of_not hopen)]
    exact hok

theorem pairOk_inUse (calls : List (ElmVolume × Outcomes)) : PairOk (inUse calls) := by
  unfold inUse
  generalize hinit : (voltageSetInit, currentSetInit) = pair
  have hok : PairOk pair := hinit ▸ pairOk_init
  clear hinit
  induction calls generalizing pair with
  | nil => exact hok
  | cons call calls ih => exact ih _ (paraRead_pair hok)

/-! ## The pair on the flash -/

/-- `para_write` brings a pair to a file that it can open, and changes nothing else. -/
theorem stores_paraWrite {v c : Int} (hok : PairOk (v, c)) (granted : Bool) :
    Stores (paraWrite vol granted v c) (v, c) ↔
      (vol.mounted = true ∧ granted = true ∧ vol.params ≠ none) ∨ Stores vol (v, c) := by
  by_cases hfile : granted = false ∨ vol.mounted = false ∨ vol.params = none
  · rw [paraWrite_refused hfile]
    grind
  · obtain ⟨bytes, hp⟩ := Option.ne_none_iff_exists'.mp (by tauto : vol.params ≠ none)
    have hm : vol.mounted = true := by simpa using (by tauto : vol.mounted ≠ false)
    have hg : granted = true := by simpa using (by tauto : granted ≠ false)
    subst hg
    rw [paraWrite_file hm hp]
    have hstores : Stores { vol with params := some (paraBytes v c ++ bytes.drop 4) } (v, c) :=
      ⟨_, rfl, decode_paraBytes hok _⟩
    exact ⟨fun _ => .inl ⟨hm, rfl, by simp [hp]⟩, fun _ => hstores⟩

theorem not_stores {pair : Int × Int} (hok : PairOk pair) (hp : vol.params = some bytes) (hany : ¬ AnyParam bytes) :
    ¬ Stores vol pair := by
  rintro ⟨bytes', hp', rfl⟩
  obtain rfl : bytes' = bytes := by simpa [hp'] using hp
  exact hany (decode_nonzero.mp hok.nonzero)

/-- The pair in use behind a call of `para_read` is on the flash exactly if the call could recover it. -/
theorem stores_paraRead {v c : Int} (hok : PairOk (v, c)) :
    Stores (paraRead vol o v c).1 (paraRead vol o v c).2 ↔ Recovers vol o (v, c) := by
  unfold Recovers
  by_cases hopen : vol.mounted = true ∧ o.openGranted = true
  · rw [if_pos hopen]
    cases hp : vol.params with
    | none =>
      rw [paraRead_absent hopen.1 hp hopen.2, stores_paraWrite hok]
      have hempty : ¬ Stores { vol with params := some [] } (v, c) := not_stores hok rfl (by decide)
      rw [or_iff_left hempty]
      simp [hopen.1]
    | some bytes =>
      rw [paraRead_existing hopen.1 hp hopen.2]
      by_cases hany : AnyParam bytes
      · rw [if_pos (anyParam_take.mpr hany)]
        exact ⟨fun _ => .inl ⟨bytes, rfl, hany⟩, fun _ => ⟨bytes, hp, decode_take.symm⟩⟩
      · rw [if_neg (fun h => hany (anyParam_take.mp h)), stores_paraWrite hok]
        simp [not_stores hok hp hany, hany, hopen.1, hp]
  · rw [if_neg hopen, paraRead_refused (refused_of_not hopen), stores_paraWrite hok]
    cases hmkfs : o.mkfsOk with
    | true => simp [dfsElmMkfs, Stores]
    | false => simp [dfsElmMkfs]

theorem paraRead_stores_iff (earlier : List (ElmVolume × Outcomes)) (vol : ElmVolume) (o : Outcomes) :
    let after := paraRead vol o (inUse earlier).1 (inUse earlier).2
    (Stores after.1 after.2 ∧ (0 ≤ after.2.1 ∧ after.2.1 ≤ 65535) ∧ (0 ≤ after.2.2 ∧ after.2.2 ≤ 65535)) ↔
      Recovers vol o (inUse earlier) := by
  intro after
  have hok := pairOk_inUse earlier
  have hafter : PairOk after.2 := paraRead_pair hok
  have hv := hafter.voltage
  have hc := hafter.current
  rw [show Recovers vol o (inUse earlier) ↔ Stores after.1 after.2 from (stores_paraRead hok).symm]
  refine ⟨fun h => h.1, fun h => ⟨h, ?_, ?_⟩⟩ <;> omega

/-- A flash that is not mounted is formatted, and no file is made. -/
theorem format_leaves_no_file :
    let after := paraRead { mounted := false, params := none, id := 0 } ⟨true, true, true⟩ 500 1500
    inUse [] = (500, 1500) ∧ after.2 = (500, 1500) ∧ after.1.params = none ∧ ¬ Stores after.1 after.2 := by
  refine ⟨rfl, rfl, rfl, ?_⟩
  rintro ⟨bytes, hp, -⟩
  cases hp

end ThyristorController.ParamFile
