import ThyristorController.Dfs.ElmFile

/-!
# The set-points on the flash, through the file layer (`applications/main.c`)

`para_read` and `para_write` over the descriptors of `Dfs/ElmFile.lean`. `paraWrite_refines` and
`paraRead_refines` connect them with the functions of `App/Params.lean`, which see the bytes of the file
only; `stored_pair_is_loaded` is the round trip.
-/

namespace ThyristorController.ParamFile

/-- Which requests of a call find a free descriptor and memory, and whether a format succeeds. -/
structure Outcomes where
  openGranted : Bool
  rewriteGranted : Bool
  mkfsOk : Bool

/-- `para_write`. -/
def paraWrite (vol : ElmVolume) (granted : Bool) (voltageSetObay currentSetObay : Int) : ElmVolume :=
  match posixOpen vol granted oWronly with
  | .ok (vol, fd) => posixClose vol (posixWrite vol fd (paraBytes voltageSetObay currentSetObay))
  | .error _ => vol

/-- `para_read`'s test whether the file holds parameters. -/
def AnyParam (params : List UInt8) : Prop :=
  params.getD 0 0 > 0 ∨ params.getD 1 0 > 0 ∨ params.getD 2 0 > 0 ∨ params.getD 3 0 > 0

instance (params : List UInt8) : Decidable (AnyParam params) := inferInstanceAs (Decidable (_ ∨ _))

/-- `voltage_set` and `current_set` as `para_read` takes them from the buffer. -/
def loadedVoltage (params : List UInt8) : Int := (params.getD 0 0).toNat * 256 + (params.getD 1 0).toNat
def loadedCurrent (params : List UInt8) : Int := (params.getD 2 0).toNat * 256 + (params.getD 3 0).toNat

/-- `para_read`: the volume, `voltage_set` and `current_set` after it. -/
def paraRead (vol : ElmVolume) (o : Outcomes) (voltageSet currentSet : Int) : ElmVolume × Int × Int :=
  match posixOpen vol o.openGranted (oWronly ||| oCreat) with
  | .ok (vol, fd) =>
    let (params, fd) := posixRead vol fd 5
    let vol := posixClose vol fd
    if AnyParam params then (vol, loadedVoltage params, loadedCurrent params)
    else (paraWrite vol o.rewriteGranted voltageSet currentSet, voltageSet, currentSet)
  | .error _ =>
    (paraWrite (dfsElmMkfs vol o.mkfsOk) o.rewriteGranted voltageSet currentSet, voltageSet, currentSet)

/-! ## The descriptors that the two functions get -/

/-- A descriptor as `posixOpen` returns it: at the start of a file with the bytes `bytes`. -/
def freshFd (id : Nat) (flags : UInt32) (mode : UInt8) (bytes : List UInt8) : DfsFd where
  flags := flags ||| dfsFOpen
  pos := 0
  size := bytes.length
  data := { id := id, flag := mode, fptr := 0, objsize := bytes.length, buf := none }

section descriptors

variable {vol : ElmVolume} {bytes : List UInt8}

theorem posixOpen_wronly (hm : vol.mounted = true) (hp : vol.params = some bytes) :
    posixOpen vol true oWronly = .ok (vol, freshFd vol.id oWronly 0x03 bytes) := by
  have hopen : fOpen vol (openMode oWronly) = .ok (vol, newFil vol.id 0x03 bytes) := by
    simp only [fOpen, hp]
    rfl
  rw [posixOpen, if_pos rfl, dfsFileOpen, if_pos hm, dfsElmOpen, hopen]
  rfl

theorem posixOpen_creat (hm : vol.mounted = true) (hp : vol.params = some bytes) :
    posixOpen vol true (oWronly ||| oCreat) =
      .ok (vol, freshFd vol.id (oWronly ||| oCreat) 0x13 bytes) := by
  have hopen : fOpen vol (openMode (oWronly ||| oCreat)) = .ok (vol, newFil vol.id 0x13 bytes) := by
    simp only [fOpen, hp]
    rfl
  rw [posixOpen, if_pos rfl, dfsFileOpen, if_pos hm, dfsElmOpen, hopen]
  rfl

/-- `O_CREAT` on an absent file creates it empty; the descriptor then counts as modified. -/
theorem posixOpen_creates (hm : vol.mounted = true) (hp : vol.params = none) :
    posixOpen vol true (oWronly ||| oCreat) =
      .ok ({ vol with params := some [] }, freshFd vol.id (oWronly ||| oCreat) 0x5b []) := by
  have hopen : fOpen vol (openMode (oWronly ||| oCreat)) =
      .ok ({ vol with params := some [] }, newFil vol.id 0x5b []) := by
    simp only [fOpen, hp]
    rfl
  rw [posixOpen, if_pos rfl, dfsFileOpen, if_pos hm, dfsElmOpen, hopen]
  rfl

theorem posixOpen_refused {granted : Bool}
    (h : granted = false ∨ vol.mounted = false ∨ vol.params = none) :
    ∃ e, posixOpen vol granted oWronly = .error e := by
  by_cases hg : granted = true
  · by_cases hm : vol.mounted = true
    · have hp : vol.params = none := by simpa [hg, hm] using h
      have hopen : fOpen vol (openMode oWronly) = .error .noFile := by
        simp only [fOpen, hp]
        rfl
      exact ⟨.enoent, by rw [posixOpen, if_pos hg, dfsFileOpen, if_pos hm, dfsElmOpen, hopen]; rfl⟩
    · exact ⟨.enoent, by rw [posixOpen, if_pos hg, dfsFileOpen, if_neg hm]⟩
  · exact ⟨.enomem, by rw [posixOpen, if_neg hg]⟩

end descriptors

/-! ## The two functions -/

section functions

variable {vol : ElmVolume} {bytes : List UInt8}

theorem paraWrite_file (hm : vol.mounted = true) (hp : vol.params = some bytes) (v c : Int) :
    paraWrite vol true v c = { vol with params := some (paraBytes v c ++ bytes.drop 4) } := by
  have htake : (paraBytes v c ++ bytes.drop 4).take (max bytes.length 4) = paraBytes v c ++ bytes.drop 4 :=
    List.take_of_length_le (by simp [paraBytes]; omega)
  rw [paraWrite, posixOpen_wronly hm hp]
  dsimp only
  rw [posixClose_posixWrite rfl (by decide : (0x03 : UInt8) &&& faWrite ≠ 0) rfl rfl _ rfl, hp]
  exact congrArg (fun b => { vol with params := some b }) htake

theorem paraWrite_refused {granted : Bool} (h : granted = false ∨ vol.mounted = false ∨ vol.params = none)
    (v c : Int) : paraWrite vol granted v c = vol := by
  obtain ⟨e, he⟩ := posixOpen_refused h
  rw [paraWrite, he]

theorem paraWrite_refines (vol : ElmVolume) (v c : Int) :
    (paraWrite vol true v c).toVolume = ThyristorController.paraWrite vol.toVolume v c := by
  unfold ThyristorController.paraWrite Volume.openParams
  by_cases hm : vol.mounted = true
  · rw [if_pos hm]
    cases hp : vol.params with
    | none => rw [paraWrite_refused (.inr (.inr hp))]; rfl
    | some bytes =>
      rw [paraWrite_file hm hp]
      simp [Volume.write, hp, paraBytes]
  · rw [if_neg hm, paraWrite_refused (.inr (.inl (by simpa using hm)))]

theorem paraRead_opened {fd : DfsFd} {vol' : ElmVolume} {o : Outcomes}
    (hopen : posixOpen vol o.openGranted (oWronly ||| oCreat) = .ok (vol', fd)) (v c : Int) :
    paraRead vol o v c =
      let params := (posixRead vol' fd 5).1
      let vol' := posixClose vol' (posixRead vol' fd 5).2
      if AnyParam params then (vol', loadedVoltage params, loadedCurrent params)
      else (paraWrite vol' o.rewriteGranted v c, v, c) := by
  rw [paraRead, hopen]

theorem paraRead_existing (hm : vol.mounted = true) (hp : vol.params = some bytes) {o : Outcomes}
    (ho : o.openGranted = true) (v c : Int) :
    paraRead vol o v c =
      if AnyParam (bytes.take 5) then (vol, loadedVoltage (bytes.take 5), loadedCurrent (bytes.take 5))
      else (paraWrite vol o.rewriteGranted v c, v, c) := by
  have hread : (posixRead vol (freshFd vol.id (oWronly ||| oCreat) 0x13 bytes) 5).1 = bytes.take 5 := by
    rw [posixRead_start rfl (by decide : (0x13 : UInt8) &&& faRead ≠ 0) rfl rfl, hp]
    show (bytes.take bytes.length).take 5 = _
    rw [List.take_length]
  have hclose : posixClose vol (posixRead vol (freshFd vol.id (oWronly ||| oCreat) 0x13 bytes) 5).2 = vol := by
    refine posixClose_unmodified vol ?_
    rw [(posixRead_frame vol _ 5).2.1]
    show (0x13 : UInt8) &&& faModified = 0
    decide
  rw [paraRead_opened (by rw [ho]; exact posixOpen_creat hm hp)]
  dsimp only
  rw [hread, hclose]

theorem paraRead_absent (hm : vol.mounted = true) (hp : vol.params = none) {o : Outcomes}
    (ho : o.openGranted = true) (v c : Int) :
    paraRead vol o v c = (paraWrite { vol with params := some [] } o.rewriteGranted v c, v, c) := by
  let fd := freshFd vol.id (oWronly ||| oCreat) 0x5b []
  let vol' : ElmVolume := { vol with params := some [] }
  have hread : (posixRead vol' fd 5).1 = [] := by
    rw [posixRead_start rfl (by decide : (0x5b : UInt8) &&& faRead ≠ 0) rfl rfl]
    rfl
  obtain ⟨hid, hflag, hsize⟩ := posixRead_frame vol' fd 5
  -- the created file counts as modified, so the close sets its size, which is still zero
  have hclose : posixClose vol' (posixRead vol' fd 5).2 = vol' := by
    rw [posixClose_clean vol' hid (by rw [hflag]; exact (by decide : (0x5b : UInt8) &&& faModified ≠ 0))
      (by rw [hflag]; exact (by decide : (0x5b : UInt8) &&& faDirty = 0)), hsize]
    rfl
  rw [paraRead_opened (by rw [ho]; exact posixOpen_creates hm hp)]
  dsimp only
  rw [hread, hclose, if_neg (by decide)]

theorem paraRead_refused {o : Outcomes} (h : o.openGranted = false ∨ vol.mounted = false) (v c : Int) :
    paraRead vol o v c = (paraWrite (dfsElmMkfs vol o.mkfsOk) o.rewriteGranted v c, v, c) := by
  unfold paraRead posixOpen
  by_cases hg : o.openGranted = true
  · have hm : ¬ vol.mounted = true := by simpa [hg] using h
    rw [if_pos hg, dfsFileOpen, if_neg hm]
  · rw [if_neg hg]

theorem toNat_pos {b : UInt8} : (b.toNat : Int) > 0 ↔ b > 0 := by
  rw [gt_iff_lt, gt_iff_lt, UInt8.lt_iff_toNat_lt]
  exact Int.natCast_pos

theorem paraRead_refines (vol : ElmVolume) (mkfsOk : Bool) (v c : Int) :
    ((paraRead vol ⟨true, true, mkfsOk⟩ v c).1.toVolume, (paraRead vol ⟨true, true, mkfsOk⟩ v c).2) =
      ThyristorController.paraRead vol.toVolume v c mkfsOk := by
  unfold ThyristorController.paraRead Volume.openParams
  by_cases hm : vol.mounted = true
  · rw [if_pos hm]
    cases hp : vol.params with
    | none =>
      rw [paraRead_absent hm hp rfl]
      simp [paraWrite_refines, Volume.read]
    | some bytes =>
      rw [paraRead_existing hm hp rfl]
      have hany : AnyParam (bytes.take 5) ↔
          (((bytes.take 5).getD 0 0).toNat : Int) > 0 ∨ (((bytes.take 5).getD 1 0).toNat : Int) > 0 ∨
            (((bytes.take 5).getD 2 0).toNat : Int) > 0 ∨ (((bytes.take 5).getD 3 0).toNat : Int) > 0 := by
        simp only [AnyParam, toNat_pos]
      by_cases h : AnyParam (bytes.take 5)
      · rw [if_pos h]
        dsimp only [Volume.read]
        rw [hp, Option.getD_some, if_pos (hany.mp h)]
        rfl
      · rw [if_neg h, paraWrite_refines]
        dsimp only [Volume.read]
        rw [hp, Option.getD_some, if_neg (fun h' => h (hany.mpr h'))]
  · rw [if_neg hm, paraRead_refused (.inr (by simpa using hm))]
    rw [paraWrite_refines]
    cases mkfsOk <;> rfl

/-! ## The round trip -/

theorem loaded_paraBytes {v c : Int} (hv : 0 ≤ v ∧ v < 65536) (hc : 0 ≤ c ∧ c < 65536)
    (hne : (v, c) ≠ (0, 0)) (rest : List UInt8) :
    AnyParam ((paraBytes v c ++ rest).take 5) ∧ loadedVoltage ((paraBytes v c ++ rest).take 5) = v ∧
      loadedCurrent ((paraBytes v c ++ rest).take 5) = c := by
  have hv' := ofInt_toNat hv.1 hv.2
  have hc' := ofInt_toNat hc.1 hc.2
  have hpos (b : UInt8) : b > 0 ↔ 0 < b.toNat := by rw [gt_iff_lt, UInt8.lt_iff_toNat_lt]; rfl
  refine ⟨?_, ?_, ?_⟩
  · rw [AnyParam, hpos, hpos, hpos, hpos]
    show 0 < _ ∨ 0 < _ ∨ 0 < _ ∨ 0 < _
    simp only [paraBytes, List.cons_append, List.take_succ_cons, List.getD_cons_zero, List.getD_cons_succ,
      high_toNat, low_toNat]
    have hne' : v ≠ 0 ∨ c ≠ 0 := by
      by_contra h
      exact hne (by rw [Prod.mk.injEq]; omega)
    omega
  · simp only [loadedVoltage, paraBytes, List.cons_append, List.take_succ_cons, List.getD_cons_zero,
      List.getD_cons_succ, high_toNat, low_toNat]
    omega
  · simp only [loadedCurrent, paraBytes, List.cons_append, List.take_succ_cons, List.getD_cons_zero,
      List.getD_cons_succ, high_toNat, low_toNat]
    omega

/-- A pair of 16-bit set-points, not both zero, is loaded again by `para_read`, whatever the file held
before and whatever is in use; loading leaves the flash alone. -/
theorem stored_pair_is_loaded (hm : vol.mounted = true) (hp : vol.params = some bytes) {v c : Int}
    (hv : 0 ≤ v ∧ v < 65536) (hc : 0 ≤ c ∧ c < 65536) (hne : (v, c) ≠ (0, 0)) {o : Outcomes}
    (ho : o.openGranted = true) (voltageSet currentSet : Int) :
    (paraRead (paraWrite vol true v c) o voltageSet currentSet).2 = (v, c) ∧
      (paraRead (paraWrite vol true v c) o voltageSet currentSet).1 = paraWrite vol true v c := by
  obtain ⟨hany, hvolt, hcurr⟩ := loaded_paraBytes hv hc hne (bytes.drop 4)
  rw [paraWrite_file hm hp, paraRead_existing (by exact hm) rfl ho, if_pos hany, hvolt, hcurr]
  exact ⟨rfl, rfl⟩

/-- The greatest pair, over a file of one byte. -/
theorem stored_pair_is_loaded_run :
    let vol : ElmVolume := { mounted := true, params := some [7], id := 0 }
    (paraRead (paraWrite vol true 65535 65535) ⟨true, false, false⟩ 500 1500).2 = (65535, 65535) := by
  intro vol
  have hm : vol.mounted = true := rfl
  have hp : vol.params = some [7] := rfl
  exact (stored_pair_is_loaded hm hp (by decide) (by decide) (by decide) rfl 500 1500).1

end functions

end ThyristorController.ParamFile
