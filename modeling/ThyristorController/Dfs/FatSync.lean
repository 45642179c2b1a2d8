import ThyristorController.Dfs.FatSeek

/-!
# `f_sync` on a good drive

`f_sync` writes the buffer, the directory entry and the window back. After it, what the volume shows is what the drive
has.
-/

namespace ThyristorController.Fat

open Bytes Chain

variable {ι : Type} {table : Nat → Nat} {kept : Nat → Prop} {v v' : Volume ι} {i : ι} {g : Geometry} {fs fs' : Fatfs}
  {fp : Fil} {l : List Nat} {f : Content} {s tm : Nat} {m : Memory}

/-! ## The directory entry -/

section entry

theorem entry_outside (fp : Fil) {x : Nat} (hx : x < fp.dirPtr ∨ fp.dirPtr + 32 ≤ x) : fp.entry g m tm x = m x := by
  unfold Fil.entry stClust
  dsimp only
  rw [stWord, stDword, stDword, store_outside (by omega), store_outside (by omega), store_outside (by omega)]
  split
  · rw [stWord, stWord, store_outside (by omega), store_outside (by omega), Function.update_of_ne (by omega)]
  · rw [stWord, store_outside (by omega), Function.update_of_ne (by omega)]

theorem ldDword_entry (fp : Fil) (h : fp.objsize ≤ 0xffffffff) :
    ldDword (fp.entry g m tm) (fp.dirPtr + 28) = fp.objsize := by
  unfold Fil.entry ldDword
  dsimp only
  rw [stWord, stDword, stDword, load_store_apart (by omega), load_store_apart (by omega), load_store]
  exact Nat.mod_eq_of_lt (Nat.lt_succ_of_le h)

theorem ldClust_entry (fp : Fil) (hg : g.Ok) (h : fp.sclust < g.nFatent) :
    ldClust g (fp.entry g m tm) fp.dirPtr = fp.sclust := by
  have hmax := hg.nFatent.2
  unfold ldClust Fil.entry stClust ldWord
  dsimp only
  rw [stWord, stDword, stDword]
  by_cases htype : g.fsType = .fat32
  · rw [htype] at hmax
    rw [if_pos htype, if_pos htype, stWord, stWord, load_store_apart (by omega), load_store_apart (by omega),
      load_store_apart (by omega), load_store_apart (by omega), load_store, load_store_apart (by omega),
      load_store_apart (by omega), load_store_apart (by omega), load_store]
    have hlow : fp.sclust % 256 ^ 2 < 2 ^ 16 := Nat.mod_lt _ (by decide)
    have hhigh : fp.sclust >>> 16 % 256 ^ 2 = fp.sclust / 2 ^ 16 := by
      rw [Nat.shiftRight_eq_div_pow]
      exact Nat.mod_eq_of_lt (Nat.div_lt_of_lt_mul (Nat.lt_of_lt_of_le h (Nat.le_trans hmax (by decide))))
    rw [Nat.or_comm, hhigh, ← Nat.shiftLeft_add_eq_or_of_lt hlow, Nat.shiftLeft_eq, Nat.mul_comm]
    exact Nat.div_add_mod ..
  · rw [if_neg htype, if_neg htype, stWord, load_store_apart (by omega), load_store_apart (by omega),
      load_store_apart (by omega), load_store]
    refine Nat.mod_eq_of_lt (Nat.lt_of_lt_of_le h (Nat.le_trans hmax ?_))
    cases hcase : g.fsType with
    | fat12 => decide
    | fat16 => decide
    | fat32 => exact absurd hcase htype

end entry

/-! ## The window -/

section window

theorem sector_of_clean (hs : Sound fs) (hclean : fs.wflag = false) (hlt : s < noSector) :
    fs.drive.sector s = fs.view s := by
  unfold Fatfs.view
  split
  · rename_i hw
    rw [hw, hs.clean hclean (hw ▸ hlt)]
  · rfl

/-- The sectors that have no copy are as the drive has them, and nothing waits to be written. -/
structure Clean (fs : Fatfs) : Prop where
  sound : Sound fs
  wflag : fs.wflag = false

theorem syncFs_spec (hs : Sound fs) (hgood : ¬ fs.Faulty)
    (hinfo : fs.fsType = .fat32 → fs.volbase + 1 < fs.fatbase) :
    (syncFs fs).2 = .ok ∧ Clean (syncFs fs).1 ∧ (syncFs fs).1.toGeometry = fs.toGeometry ∧
      (syncFs fs).1.drive.bad = fs.drive.bad ∧
      ((syncFs fs).1.winsect = fs.winsect ∨ (syncFs fs).1.winsect < fs.fatbase) ∧
      ∀ s < noSector, ¬ fs.Copy s → fs.fatbase ≤ s → (syncFs fs).1.view s = fs.view s := by
  have hno (s : Nat) : fs.drive.bad s = false := by
    by_contra hbad
    exact hgood ⟨s, Bool.eq_true_of_not_eq_false hbad⟩
  unfold syncFs
  obtain ⟨hok, hmoves, hsound, hclean, hsect, -⟩ | ⟨-, hbad⟩ := syncWindow_spec hs
  · dsimp only
    rw [if_pos hok]
    generalize (syncWindow fs).1 = fs₁ at hmoves hsound hclean hsect
    have hgeom : fs₁.toGeometry = fs.toGeometry := hmoves.geometry
    split
    · rename_i hfsi
      have hlow : fs₁.volbase + 1 < fs₁.fatbase := by
        rw [hgeom] at hfsi ⊢
        exact hinfo hfsi.1
      have hcopy : ¬ fs₁.Copy (fs₁.volbase + 1) := fun hc => by
        have := hc.1
        omega
      have hgood₁ : ¬ (fs₁.drive.bad (fs₁.volbase + 1) = true) := by
        rw [hmoves.bad, hno]
        exact Bool.false_ne_true
      rw [if_neg hgood₁]
      refine ⟨rfl, ⟨⟨hsound.geometry, fun _ _ => (write_self ..).symm, ?_, hcopy⟩, hclean⟩, hgeom, hmoves.bad,
        .inr ?_, ?_⟩
      · exact fun hw => absurd (hclean.symm.trans hw) Bool.false_ne_true
      · rwa [← hgeom]
      · intro s hlt hc hge
        rw [← hmoves.view s hlt hc, ← sector_of_clean hsound hclean hlt]
        have hne : s ≠ fs₁.volbase + 1 := by
          rw [hgeom] at hlow ⊢
          omega
        exact (if_neg hne).trans (write_of_ne hne)
    · exact ⟨rfl, ⟨hsound, hclean⟩, hgeom, hmoves.bad, .inl hsect, fun s hlt hc _ => hmoves.view s hlt hc⟩
  · rw [hno] at hbad
    cases hbad

/-- The directory entry of a file is in a directory. -/
structure Listed (kept : Nat → Prop) (g : Geometry) (fp : Fil) : Prop where
  above : g.fatbase + g.nFats * g.fsize ≤ fp.dirSect
  lt : fp.dirSect < noSector
  kept : g.database ≤ fp.dirSect → kept (g.clusterOf fp.dirSect)
  aligned : 32 ∣ fp.dirPtr

theorem Listed.outside (h : Listed kept g fp) (hg : g.Ok) : ¬ g.Copy fp.dirSect ∧ ¬ g.Table fp.dirSect := by
  have habove := h.above
  have hcopies := Nat.mul_le_mul_right g.fsize hg.nFats
  refine ⟨fun hc => ?_, fun ht => ?_⟩
  · have := hc.2
    omega
  · have := ht.2
    omega

/-- The directory entry is written, with the window and the FSInfo sector, and the rest of the volume stays. -/
theorem writeEntry_spec (tm : Nat) (h : Steady table kept v) (hlist : Listed kept v.fs.toGeometry fp)
    (hinfo : v.fs.fsType = .fat32 → v.fs.volbase + 1 < v.fs.fatbase) :
    (moveWindow v.fs fp.dirSect).2 = .ok ∧
      ∃ fs, syncFs ((moveWindow v.fs fp.dirSect).1.edit
          (fp.entry (moveWindow v.fs fp.dirSect).1.toGeometry (moveWindow v.fs fp.dirSect).1.win tm)) = (fs, .ok) ∧
        Steady table kept ⟨fs, v.chains⟩ ∧ Clean fs ∧ fs.toGeometry = v.fs.toGeometry ∧
        fs.view fp.dirSect = fp.entry v.fs.toGeometry (v.fs.view fp.dirSect) tm ∧
        ∀ s < noSector, ¬ v.fs.Copy s → v.fs.fatbase ≤ s → s ≠ fp.dirSect → fs.view s = v.fs.view s := by
  have hg := h.sound.geometry
  obtain ⟨hcopy, htab⟩ := hlist.outside hg
  obtain ⟨hmoves, hsound, hres⟩ := moveWindow_spec h.sound hlist.lt hcopy
  obtain ⟨hok, hsect, hwin⟩ : (moveWindow v.fs fp.dirSect).2 = .ok ∧
      (moveWindow v.fs fp.dirSect).1.winsect = fp.dirSect ∧
      (moveWindow v.fs fp.dirSect).1.win = v.fs.view fp.dirSect := by
    refine hres.resolve_right fun hfail => ?_
    obtain ⟨hbad, -⟩ | ⟨hbad, -⟩ := hfail.2 <;> exact absurd (hbad.symm.trans (h.drive_good _)) Bool.false_ne_true.symm
  refine ⟨hok, ?_⟩
  rw [hwin]
  generalize (moveWindow v.fs fp.dirSect).1 = fs₁ at hmoves hsound hsect
  have hgeom : fs₁.toGeometry = v.fs.toGeometry := hmoves.geometry
  rw [hgeom]
  generalize hwin' : fp.entry v.fs.toGeometry (v.fs.view fp.dirSect) tm = win
  have hbad : (fs₁.edit win).drive.bad = v.fs.drive.bad := hmoves.bad
  have hsound' : Sound (fs₁.edit win) :=
    ⟨hsound.geometry, fun hw => absurd hw.symm Bool.false_ne_true, fun _ => hsect.symm ▸ hlist.lt, hsound.apart⟩
  have hgood : ¬ (fs₁.edit win).Faulty := by
    unfold Fatfs.Faulty
    rw [hbad]
    exact h.good
  obtain ⟨hok', hclean, hgeom', hbad', hsect', hview⟩ := syncFs_spec hsound' hgood (by
    show fs₁.fsType = .fat32 → fs₁.volbase + 1 < fs₁.fatbase
    rw [hgeom]
    exact hinfo)
  generalize syncFs (fs₁.edit win) = r at hok' hclean hgeom' hbad' hsect' hview
  obtain ⟨fs, res⟩ := r
  dsimp only at hok' hclean hgeom' hbad' hsect' hview
  subst hok'
  have hsame : fs.toGeometry = v.fs.toGeometry := hgeom'.trans hgeom
  have hfatbase : (fs₁.edit win).fatbase = v.fs.fatbase := congrArg Geometry.fatbase hgeom
  have habove : v.fs.fatbase ≤ fp.dirSect := Nat.le_trans (Nat.le_add_right ..) hlist.above
  have hothers (s : Nat) (hlt : s < noSector) (hc : ¬ v.fs.Copy s) (hge : v.fs.fatbase ≤ s) (hne : s ≠ fp.dirSect) :
      fs.view s = v.fs.view s := by
    have hfirst : (fs₁.edit win).view s = fs₁.view s := view_edit win (by rwa [hsect])
    rw [hview s hlt (hmoves.copy.not.mpr hc) (by rwa [hfatbase]), hfirst, hmoves.view s hlt hc]
  have hdir : fs.view fp.dirSect = win := by
    rw [hview _ hlist.lt (hmoves.copy.not.mpr hcopy) (by rw [hfatbase]; exact habove), ← hsect]
    exact view_winsect (fs₁.edit win)
  have hentry (c : Nat) (hc : c < v.fs.nFatent) : fs.entry c = v.fs.entry c := by
    refine entry_of_view h.sound hsame (fun s ht => ?_) hc
    obtain ⟨hlt, hc, -⟩ := hg.not_copy ht
    exact hothers s hlt hc ht.1 fun he => htab (he ▸ ht)
  have hthree := hg.nFatent.1
  refine ⟨fs, rfl, ⟨?_, ?_⟩, hclean, hsame, hdir, hothers⟩
  · exact h.toTidy.congr hclean.sound hsame (table_congr hsame hentry) (hbad'.trans hbad) fun c hc =>
      hentry c (by omega)
  · have hdata := hg.database
    unfold Apart
    dsimp only
    rw [hsame]
    obtain hw | hw := hsect'
    · rw [hw.trans hsect]
      exact fun hge _ => hlist.kept hge
    · rw [hfatbase] at hw
      intro hge
      omega

end window

end ThyristorController.Fat
