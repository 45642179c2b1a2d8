import Mathlib.Order.Interval.Finset.Nat
import ThyristorController.Dfs.FatTable
import ThyristorController.Lib.ChainFamily
import ThyristorController.Lib.Counting

/-!
# Cluster chains (`components/dfs/filesystems/elmfat/ff.c`)

`create_chain` takes a free cluster and links it behind another one, `remove_chain` gives clusters back, and
`f_getfree` counts what is left. The table is what `get_fat` sees (`Fatfs.table`), and the chains are linked by
`Fatfs.next`.

A failed `put_fat` may leave half an entry on FAT12, and so the chains are safe on a drive that fails only on FAT16 and
FAT32 (`Robust`).
-/

namespace ThyristorController.Fat

open Bytes Transition Chain

/-- The value that `put_fat` makes the end of a chain, and `get_fat` returns for no cluster. -/
def endOfChain : Nat := 0xffffffff

/-- The search of `create_chain`: `.ok` is a free cluster, and `.error` the value that is returned. No cluster is
looked at twice, and so `n_fatent` rounds are enough. -/
def searchFree (scl : Nat) : Nat → Fatfs → Nat → Fatfs × Except Nat Nat
  | 0, fs, _ => (fs, .error 0)
  | n + 1, fs, ncl =>
    let ncl := ncl + 1
    if fs.nFatent ≤ ncl ∧ 2 > scl then (fs, .error 0)
    else
      let ncl := if fs.nFatent ≤ ncl then 2 else ncl
      let (fs, cs) := getFat fs ncl
      if cs = 0 then (fs, .ok ncl)
      else if cs = 1 ∨ cs = noSector then (fs, .error cs)
      else if ncl = scl then (fs, .error 0)
      else searchFree scl n fs ncl

/-- The number of free clusters, if it is known, after one was taken. The counter is unsigned. -/
def Fatfs.took (fs : Fatfs) (ncl : Nat) : Fatfs :=
  { fs with
    lastClst := ncl
    freeClst := if fs.freeClst < fs.nFatent - 2 then (fs.freeClst + 0xffffffff) % 0x100000000 else fs.freeClst
    fsiFlag := fs.fsiFlag ||| (1 : UInt8) }

/-- `create_chain` behind the check of the cluster that is stretched. -/
def allocate (fs : Fatfs) (clst scl : Nat) : Fatfs × Nat :=
  match searchFree scl fs.nFatent fs scl with
  | (fs, .error res) => (fs, res)
  | (fs, .ok ncl) =>
    let (fs, res) := putFat fs ncl endOfChain
    let (fs, res) := if res = .ok ∧ clst ≠ 0 then putFat fs clst ncl else (fs, res)
    if res = .ok then (fs.took ncl, ncl) else (fs, if res = .diskErr then noSector else 1)

def createChain (fs : Fatfs) (clst : Nat) : Fatfs × Nat :=
  if clst = 0 then allocate fs 0 (if fs.lastClst = 0 ∨ fs.nFatent ≤ fs.lastClst then 1 else fs.lastClst)
  else
    let (fs, cs) := getFat fs clst
    if cs < 2 then (fs, 1)
    else if cs = noSector then (fs, cs)
    else if cs < fs.nFatent then (fs, cs)
    else allocate fs clst clst

/-- A cluster was given back. -/
def Fatfs.gave (fs : Fatfs) : Fatfs :=
  if fs.freeClst < fs.nFatent - 2 then
    { fs with freeClst := fs.freeClst + 1, fsiFlag := fs.fsiFlag ||| (1 : UInt8) }
  else fs

/-- The loop of `remove_chain`. A cluster that was given back ends it, and so `n_fatent` rounds are enough. -/
def removeLoop : Nat → Fatfs → Nat → Fatfs × FResult
  | 0, fs, _ => (fs, .intErr)
  | n + 1, fs, clst =>
    let (fs, nxt) := getFat fs clst
    if nxt = 0 then (fs, .ok)
    else if nxt = 1 then (fs, .intErr)
    else if nxt = noSector then (fs, .diskErr)
    else
      let (fs, res) := putFat fs clst 0
      if res ≠ .ok then (fs, res)
      else
        let fs := fs.gave
        if nxt < fs.nFatent then removeLoop n fs nxt else (fs, .ok)

def removeChain (fs : Fatfs) (clst pclst : Nat) : Fatfs × FResult :=
  if clst < 2 ∨ fs.nFatent ≤ clst then (fs, .intErr)
  else
    let (fs, res) := if pclst ≠ 0 then putFat fs pclst endOfChain else (fs, .ok)
    if res ≠ .ok then (fs, res) else removeLoop fs.nFatent fs clst

/-! ## The table -/

/-- What `get_fat` sees. -/
def Fatfs.table (fs : Fatfs) (c : Nat) : Nat := if 2 ≤ c ∧ c < fs.nFatent then fs.entry c else 1

/-- The cluster behind another one. -/
def Fatfs.next (fs : Fatfs) (c : Nat) : Option Nat := if fs.table c < fs.nFatent then some (fs.table c) else none

/-- A chain can be trusted on this drive. -/
def Fatfs.Robust (fs : Fatfs) : Prop := fs.fsType = .fat12 → ¬ fs.Faulty

/-- What every access to the table leaves as it is: the volume, the drive's faults, and all that is not of the table. -/
structure Touch (fs fs' : Fatfs) : Prop where
  geometry : fs'.toGeometry = fs.toGeometry
  bad : fs'.drive.bad = fs.drive.bad
  mirrored : CopiesGood fs → Mirrored fs → Mirrored fs'
  sound : Sound fs'
  window : fs'.winsect = fs.winsect ∨ fs.Table fs'.winsect ∨ fs'.winsect = noSector
  head : ∀ c < 2, fs'.entry c = fs.entry c
  view : ∀ s < noSector, ¬ fs.Copy s → ¬ fs.Table s → fs'.view s = fs.view s

section tables

variable {fs fs' fs'' : Fatfs} {c d v : Nat}

theorem Touch.refl (hs : Sound fs) : Touch fs fs :=
  ⟨rfl, rfl, fun _ hm => hm, hs, .inl rfl, fun _ _ => rfl, fun _ _ _ _ => rfl⟩

theorem Touch.copiesGood (h : Touch fs fs') (hgood : CopiesGood fs) : CopiesGood fs' := by
  intro s hs
  rw [h.bad]
  exact hgood s (by rwa [h.geometry] at hs)

theorem Touch.trans (h : Touch fs fs') (h' : Touch fs' fs'') : Touch fs fs'' where
  geometry := h'.geometry.trans h.geometry
  bad := h'.bad.trans h.bad
  mirrored hgood hm := h'.mirrored (h.copiesGood hgood) (h.mirrored hgood hm)
  sound := h'.sound
  window := by
    rcases h'.window with hw | hw | hw
    · rw [hw]
      exact h.window
    · rw [h.geometry] at hw
      exact .inr (.inl hw)
    · exact .inr (.inr hw)
  head c hc := (h'.head c hc).trans (h.head c hc)
  view s hs hc ht := by
    rw [h'.view s hs (by rwa [h.geometry]) (by rwa [h.geometry]), h.view s hs hc ht]

theorem Touch.faulty (h : Touch fs fs') : fs'.Faulty ↔ fs.Faulty := by
  rw [Fatfs.Faulty, h.bad]
  rfl

theorem Touch.robust (h : Touch fs fs') (hr : fs.Robust) : fs'.Robust := by
  unfold Fatfs.Robust
  rw [h.geometry, h.faulty]
  exact hr

theorem Access.touch (hs : Sound fs) (h : Access fs fs') : Touch fs fs' where
  geometry := h.geometry
  bad := h.bad
  mirrored := h.mirrored
  sound := h.sound
  window := h.window
  head _ hc := h.entry hs.geometry (Nat.lt_trans hc hs.geometry.nFatent.1)
  view s hs hc _ := h.view s hs hc

theorem Put.touch (hs : Sound fs) (hc : 2 ≤ c) (h : Put fs fs' c) : Touch fs fs' where
  geometry := h.geometry
  bad := h.bad
  mirrored := h.mirrored
  sound := h.sound
  window := h.window
  head d hd := h.others d (Nat.lt_trans hd hs.geometry.nFatent.1) (by omega)
  view := h.view

theorem Access.table (hs : Sound fs) (h : Access fs fs') : fs'.table = fs.table := by
  funext d
  unfold Fatfs.table
  rw [h.geometry]
  split
  · rename_i hd
    exact h.entry hs.geometry hd.2
  · rfl

theorem Same.table (h : Same fs fs') : fs'.table = fs.table := by
  funext d
  unfold Fatfs.table
  rw [h.geometry]
  split
  · rename_i hd
    exact h.entry d hd.2
  · rfl

theorem table_lt (h : fs.table c ≠ 1) : 2 ≤ c ∧ c < fs.nFatent := by
  by_contra hc
  exact h (if_neg hc)

theorem getFat_table (hs : Sound fs) (c : Nat) :
    Touch fs (getFat fs c).1 ∧ (getFat fs c).1.table = fs.table ∧ (getFat fs c).1.freeClst = fs.freeClst ∧
      ((getFat fs c).2 = fs.table c ∨ (getFat fs c).2 = noSector ∧ fs.Faulty) := by
  by_cases hc : 2 ≤ c ∧ c < fs.nFatent
  · obtain ⟨hacc, hres⟩ := getFat_spec hs hc
    refine ⟨hacc.touch hs, hacc.table hs, hacc.freeClst, ?_⟩
    rwa [Fatfs.table, if_pos hc]
  · have hout : c < 2 ∨ fs.nFatent ≤ c := by omega
    rw [getFat, if_pos hout]
    exact ⟨.refl hs, rfl, rfl, .inl (if_neg hc).symm⟩

/-- `put_fat` changes the table at one cluster, or the drive fails and nothing changes. -/
theorem putFat_table (hs : Sound fs) (hr : fs.Robust) (hc : 2 ≤ c ∧ c < fs.nFatent) (v : Nat) :
    Touch fs (putFat fs c v).1 ∧ (putFat fs c v).1.freeClst = fs.freeClst ∧
      ((putFat fs c v).2 = .ok ∧ (putFat fs c v).1.table = Function.update fs.table c (fs.fsType.mask v) ∨
        (putFat fs c v).2 = .diskErr ∧ fs.Faulty ∧ (putFat fs c v).1.table = fs.table) := by
  obtain ⟨hput, hres⟩ := putFat_spec hs hc v
  have hothers (d : Nat) (hd : d ≠ c) : (putFat fs c v).1.table d = fs.table d := by
    unfold Fatfs.table
    rw [hput.geometry]
    split
    · rename_i hin
      exact hput.others d hin.2 hd
    · rfl
  have hself : (putFat fs c v).1.table c = (putFat fs c v).1.entry c := by
    rw [Fatfs.table, hput.geometry, if_pos hc]
  refine ⟨hput.touch hs hc.1, hput.freeClst, ?_⟩
  obtain ⟨hok, hentry⟩ | ⟨hfail, hbad, hkept⟩ := hres
  · refine .inl ⟨hok, ?_⟩
    funext d
    by_cases hd : d = c
    · subst hd
      rw [Function.update_self, hself, hentry]
    · rw [Function.update_of_ne hd, hothers d hd]
  · refine .inr ⟨hfail, hbad, ?_⟩
    funext d
    by_cases hd : d = c
    · subst hd
      rw [hself, hkept fun htype => hr htype hbad, Fatfs.table, if_pos hc]
    · exact hothers d hd

theorem maxFatent_le (t : FsType) : t.maxFatent ≤ t.mask endOfChain ∧ t.maxFatent < noSector := by
  cases t <;> decide

theorem mask_of_lt (hs : Sound fs) (hc : c < fs.nFatent) : fs.fsType.mask c = c := by
  have hmax := hs.geometry.nFatent.2
  cases htype : fs.fsType with
  | fat12 =>
    rw [htype] at hmax
    have : c < 0xff7 := Nat.lt_of_lt_of_le hc hmax
    exact Nat.mod_eq_of_lt (by omega)
  | fat16 =>
    rw [htype] at hmax
    have : c < 0xfff7 := Nat.lt_of_lt_of_le hc hmax
    exact Nat.mod_eq_of_lt (by omega)
  | fat32 =>
    rw [htype] at hmax
    have : c < 0xffffff7 := Nat.lt_of_lt_of_le hc hmax
    show c &&& 0x0fffffff = c
    rw [show (0x0fffffff : Nat) = 2 ^ 28 - 1 from rfl, Nat.and_two_pow_sub_one_eq_mod]
    exact Nat.mod_eq_of_lt (by omega)

theorem mask_end (hs : Sound fs) : fs.nFatent ≤ fs.fsType.mask endOfChain :=
  Nat.le_trans hs.geometry.nFatent.2 (maxFatent_le _).1

theorem nFatent_lt (hs : Sound fs) : fs.nFatent < noSector :=
  Nat.lt_of_le_of_lt hs.geometry.nFatent.2 (maxFatent_le _).2

end tables

/-! ## `create_chain` -/

/-- What the search of `create_chain` tells about the table. -/
inductive Found (fs : Fatfs) : Except Nat Nat → Prop
  | free {c : Nat} (hc : 2 ≤ c ∧ c < fs.nFatent) (hfree : fs.table c = 0) : Found fs (.ok c)
  | full (h : ∀ c, 2 ≤ c → c < fs.nFatent → fs.table c ≠ 0) : Found fs (.error 0)
  | broken (h : ∃ c, 2 ≤ c ∧ c < fs.nFatent ∧ fs.table c = 1) : Found fs (.error 1)
  | faulty (h : fs.Faulty) : Found fs (.error noSector)

/-- The clusters that were looked at: those behind the first, up to this one, around the end of the table. -/
def Looked (scl ncl c : Nat) : Prop := (scl ≤ ncl → scl < c ∧ c ≤ ncl) ∧ (ncl < scl → scl < c ∨ c ≤ ncl)

/-- The rounds that are left. -/
def roundsLeft (n scl ncl : Nat) : Nat := if scl ≤ ncl then n - ncl + scl else scl - ncl

section create

variable {fs fs' fs'' : Fatfs} {scl ncl n c clst : Nat}

theorem entry_lt (fs : Fatfs) (c : Nat) : fs.entry c < noSector := by
  unfold Fatfs.entry FsType.entry
  cases fs.fsType with
  | fat12 =>
    dsimp only
    cases decide (c % 2 = 1) with
    | true =>
      have h₁ := (fs.area (c + c / 2)).toNat_lt
      have h₂ := (fs.area (c + c / 2 + 1)).toNat_lt
      rw [Packed12.get_odd, noSector]
      omega
    | false =>
      have h₁ := (fs.area (c + c / 2)).toNat_lt
      rw [Packed12.get_even, noSector]
      omega
  | fat16 => exact Nat.lt_of_lt_of_le (load_lt _ _ 2) (by decide)
  | fat32 => exact Nat.lt_of_le_of_lt Nat.and_le_right (by decide)

theorem table_ne_noSector (fs : Fatfs) (c : Nat) : fs.table c ≠ noSector := by
  unfold Fatfs.table
  split
  · exact Nat.ne_of_lt (entry_lt fs c)
  · decide

/-- One round: the next cluster is in the table, and it was the last one if it is the first. -/
theorem round_spec {nx : Nat} (hscl : 1 ≤ scl ∧ scl < n) (hn : 3 ≤ n) (hncl : ncl < n ∧ (ncl < scl → 2 ≤ ncl))
    (hmore : ¬ (n ≤ ncl + 1 ∧ 2 > scl)) (hnx : nx = if n ≤ ncl + 1 then 2 else ncl + 1) :
    2 ≤ nx ∧ nx < n ∧
      (nx = scl → ∀ c, 2 ≤ c → c < n → c = nx ∨ Looked scl ncl c) ∧
      (nx ≠ scl → roundsLeft n scl nx < roundsLeft n scl ncl ∧
        ∀ c, 2 ≤ c → c < n → Looked scl nx c → c = nx ∨ Looked scl ncl c) := by
  unfold Looked roundsLeft
  split at hnx
  · refine ⟨by omega, by omega, fun _ c _ _ => by omega, fun _ => ⟨?_, fun c _ _ _ => by omega⟩⟩
    split <;> split <;> omega
  · refine ⟨by omega, by omega, fun _ c _ _ => by omega, fun _ => ⟨?_, fun c _ _ _ => by omega⟩⟩
    split <;> split <;> omega

theorem searchFree_spec (hs : Sound fs) (hscl : 1 ≤ scl ∧ scl < fs.nFatent)
    (hncl : ncl < fs.nFatent ∧ (ncl < scl → 2 ≤ ncl)) (hfuel : roundsLeft fs.nFatent scl ncl ≤ n)
    (hlooked : ∀ c, 2 ≤ c → c < fs.nFatent → Looked scl ncl c → fs.table c ≠ 0) :
    Touch fs (searchFree scl n fs ncl).1 ∧ (searchFree scl n fs ncl).1.table = fs.table ∧
      (searchFree scl n fs ncl).1.freeClst = fs.freeClst ∧ Found fs (searchFree scl n fs ncl).2 := by
  induction n generalizing fs ncl with
  | zero =>
    unfold roundsLeft at hfuel
    split at hfuel <;> omega
  | succ n ih =>
    rw [searchFree]
    dsimp only
    have hthree := hs.geometry.nFatent.1
    split
    · refine ⟨.refl hs, rfl, rfl, .full fun c h₂ hc => hlooked c h₂ hc ?_⟩
      unfold Looked
      omega
    · rename_i hmore
      obtain ⟨h₂, hlt, hlast, hnext⟩ := round_spec hscl hthree hncl hmore rfl
      generalize hnx : (if fs.nFatent ≤ ncl + 1 then 2 else ncl + 1) = nx at h₂ hlt hlast hnext
      obtain ⟨htouch, htable, hfree, hres⟩ := getFat_table hs nx
      generalize getFat fs nx = r at htouch htable hfree hres
      obtain ⟨fs₁, cs⟩ := r
      dsimp only at htouch htable hfree hres ⊢
      obtain rfl | ⟨rfl, hbad⟩ := hres
      · split
        · rename_i hzero
          exact ⟨htouch, htable, hfree, .free ⟨h₂, hlt⟩ hzero⟩
        · rename_i hused
          split
          · rename_i herr
            obtain hone | hnone := herr
            · rw [hone]
              exact ⟨htouch, htable, hfree, .broken ⟨nx, h₂, hlt, hone⟩⟩
            · exact absurd hnone (table_ne_noSector fs nx)
          · split
            · rename_i heq
              refine ⟨htouch, htable, hfree, .full fun c hc₂ hc => ?_⟩
              obtain rfl | hc' := hlast heq c hc₂ hc
              · exact hused
              · exact hlooked c hc₂ hc hc'
            · rename_i hne
              obtain ⟨hrounds, hvisit⟩ := hnext hne
              have hgeom : fs₁.nFatent = fs.nFatent := by rw [htouch.geometry]
              obtain ⟨htouch', htable', hfree', hfound⟩ := @ih fs₁ nx htouch.sound (by rwa [hgeom])
                ⟨by rwa [hgeom], fun _ => h₂⟩ (by rw [hgeom]; omega) fun c hc₂ hc hlook => by
                  rw [hgeom] at hc
                  rw [htable]
                  obtain rfl | hc' := hvisit c hc₂ hc hlook
                  · exact hused
                  · exact hlooked c hc₂ hc hc'
              refine ⟨htouch.trans htouch', htable'.trans htable, hfree'.trans hfree, ?_⟩
              generalize (searchFree scl n fs₁ nx).2 = r at hfound
              cases hfound with
              | free hc hzero => exact .free (by rwa [hgeom] at hc) (by rwa [htable] at hzero)
              | full h =>
                rw [hgeom, htable] at h
                exact .full h
              | broken h => exact .broken (by rwa [hgeom, htable] at h)
              | faulty h => exact .faulty (htouch.faulty.mp h)
      · exact ⟨htouch, htable, hfree, .faulty hbad⟩

/-- What `create_chain` does to the table. The cluster `clst` is stretched if it is not 0. -/
inductive Created (fs fs' : Fatfs) (clst : Nat) : Nat → Prop
  /-- The chain goes on already. -/
  | follows (hc : clst ≠ 0) (hnext : 2 ≤ fs.table clst ∧ fs.table clst < fs.nFatent) (htable : fs'.table = fs.table)
      (hfree : fs'.freeClst = fs.freeClst) : Created fs fs' clst (fs.table clst)
  /-- A free cluster was taken, and linked behind the other one. -/
  | took {ncl : Nat} (hin : 2 ≤ ncl ∧ ncl < fs.nFatent) (hzero : fs.table ncl = 0)
      (hend : clst ≠ 0 → 2 ≤ clst ∧ clst < fs.nFatent ∧ fs.nFatent ≤ fs.table clst)
      (htable : fs'.table = if clst = 0 then Function.update fs.table ncl (fs.fsType.mask endOfChain)
        else Function.update (Function.update fs.table ncl (fs.fsType.mask endOfChain)) clst ncl)
      (hfree : fs'.freeClst = (fs.took ncl).freeClst) : Created fs fs' clst ncl
  | full (h : ∀ c, 2 ≤ c → c < fs.nFatent → fs.table c ≠ 0) (htable : fs'.table = fs.table)
      (hfree : fs'.freeClst = fs.freeClst) : Created fs fs' clst 0
  /-- The table is corrupt. -/
  | broken (h : clst ≠ 0 ∧ fs.table clst < 2 ∨ ∃ c, 2 ≤ c ∧ c < fs.nFatent ∧ fs.table c = 1)
      (htable : fs'.table = fs.table) (hfree : fs'.freeClst = fs.freeClst) : Created fs fs' clst 1
  /-- The drive failed. A cluster may have been taken and not linked. -/
  | faulty (h : fs.Faulty)
      (htable : fs'.table = fs.table ∨
        ∃ ncl, 2 ≤ ncl ∧ ncl < fs.nFatent ∧ fs.table ncl = 0 ∧
          fs'.table = Function.update fs.table ncl (fs.fsType.mask endOfChain))
      (hfree : fs'.freeClst = fs.freeClst) : Created fs fs' clst noSector

theorem Sound.took (hs : Sound fs) (ncl : Nat) : Sound (fs.took ncl) := ⟨hs.geometry, hs.clean, hs.dirty, hs.apart⟩

theorem Touch.took (hs : Sound fs) (ncl : Nat) : Touch fs (fs.took ncl) :=
  ⟨rfl, rfl, fun _ hm => hm, hs.took ncl, .inl rfl, fun _ _ => rfl, fun _ _ _ _ => rfl⟩

theorem took_freeClst (htouch : Touch fs fs') (hfree : fs'.freeClst = fs.freeClst) :
    (fs'.took c).freeClst = (fs.took c).freeClst := by
  unfold Fatfs.took
  rw [hfree, htouch.geometry]

theorem allocate_spec (clst scl : Nat) (hs : Sound fs) (hr : fs.Robust) (hscl : 1 ≤ scl ∧ scl < fs.nFatent)
    (hend : clst ≠ 0 → 2 ≤ clst ∧ clst < fs.nFatent ∧ fs.nFatent ≤ fs.table clst) :
    Touch fs (allocate fs clst scl).1 ∧ Created fs (allocate fs clst scl).1 clst (allocate fs clst scl).2 := by
  have hrounds : roundsLeft fs.nFatent scl scl ≤ fs.nFatent := by
    unfold roundsLeft
    rw [if_pos (Nat.le_refl scl)]
    omega
  obtain ⟨htouch, htable, hfree, hfound⟩ :=
    searchFree_spec hs hscl ⟨hscl.2, fun h => absurd h (Nat.lt_irrefl _)⟩ hrounds
    fun c _ _ hlook => by
      unfold Looked at hlook
      omega
  unfold allocate
  generalize searchFree scl fs.nFatent fs scl = r at htouch htable hfree hfound
  obtain ⟨fs₁, res⟩ := r
  dsimp only at htouch htable hfree hfound
  cases hfound with
  | full h => exact ⟨htouch, .full h htable hfree⟩
  | broken h => exact ⟨htouch, .broken (.inr h) htable hfree⟩
  | faulty h => exact ⟨htouch, .faulty h (.inl htable) hfree⟩
  | @free ncl hin hzero =>
    dsimp only
    obtain ⟨htouch₂, hfree₂, hres⟩ := putFat_table htouch.sound (htouch.robust hr) (by rwa [htouch.geometry]) endOfChain
    generalize putFat fs₁ ncl endOfChain = r at htouch₂ hfree₂ hres
    obtain ⟨fs₂, res⟩ := r
    dsimp only at htouch₂ hfree₂ hres ⊢
    have htouch₁₂ := htouch.trans htouch₂
    have hfree₁₂ : fs₂.freeClst = fs.freeClst := hfree₂.trans hfree
    rw [htable, htouch.geometry] at hres
    obtain ⟨rfl, htable₂⟩ | ⟨rfl, hbad, htable₂⟩ := hres
    · by_cases hc : clst = 0
      · have hlast : ¬ (FResult.ok = .ok ∧ clst ≠ 0) := fun h => h.2 hc
        rw [if_neg hlast]
        refine ⟨htouch₁₂.trans (.took htouch₂.sound ncl), .took hin hzero hend ?_ (took_freeClst htouch₁₂ hfree₁₂)⟩
        rw [if_pos hc]
        exact htable₂
      · obtain ⟨hc₂, hclt, -⟩ := hend hc
        have hlink : (if FResult.ok = .ok ∧ clst ≠ 0 then putFat fs₂ clst ncl else (fs₂, .ok)) = putFat fs₂ clst ncl :=
          if_pos ⟨rfl, hc⟩
        rw [hlink]
        obtain ⟨htouch₃, hfree₃, hres⟩ :=
          putFat_table htouch₂.sound (htouch₁₂.robust hr) (c := clst) (by rw [htouch₁₂.geometry]; exact ⟨hc₂, hclt⟩) ncl
        generalize putFat fs₂ clst ncl = r at htouch₃ hfree₃ hres
        obtain ⟨fs₃, res⟩ := r
        dsimp only at htouch₃ hfree₃ hres ⊢
        have htouch₁₃ := htouch₁₂.trans htouch₃
        have hfree₁₃ : fs₃.freeClst = fs.freeClst := hfree₃.trans hfree₁₂
        obtain ⟨rfl, htable₃⟩ | ⟨rfl, hbad, htable₃⟩ := hres
        · rw [if_pos rfl]
          refine ⟨htouch₁₃.trans (.took htouch₃.sound ncl), .took hin hzero hend ?_ (took_freeClst htouch₁₃ hfree₁₃)⟩
          rw [if_neg hc]
          refine htable₃.trans ?_
          rw [htable₂, htouch₁₂.geometry, mask_of_lt hs hin.2]
        · have hlost := htable₃.trans htable₂
          exact ⟨htouch₁₃, .faulty (htouch₁₂.faulty.mp hbad) (.inr ⟨ncl, hin.1, hin.2, hzero, hlost⟩) hfree₁₃⟩
    · exact ⟨htouch₁₂, .faulty (htouch.faulty.mp hbad) (.inl htable₂) hfree₁₂⟩

theorem Created.of_read {r : Nat} (h : Created fs' fs'' clst r) (htouch : Touch fs fs') (htable : fs'.table = fs.table)
    (hfree : fs'.freeClst = fs.freeClst) : Created fs fs'' clst r := by
  have hgeom : fs'.toGeometry = fs.toGeometry := htouch.geometry
  cases h with
  | follows hc hnext htable' hfree' =>
    rw [htable, hgeom] at hnext
    rw [htable]
    exact .follows hc hnext (htable'.trans htable) (hfree'.trans hfree)
  | took hin hzero hend htable' hfree' =>
    rw [htable, hgeom] at htable' hend
    rw [hgeom] at hin
    rw [htable] at hzero
    exact .took hin hzero hend htable' (hfree'.trans (took_freeClst htouch hfree))
  | full h htable' hfree' =>
    rw [htable, hgeom] at h
    exact .full h (htable'.trans htable) (hfree'.trans hfree)
  | broken h htable' hfree' =>
    rw [htable, hgeom] at h
    exact .broken h (htable'.trans htable) (hfree'.trans hfree)
  | faulty h htable' hfree' =>
    rw [htable, hgeom] at htable'
    exact .faulty (htouch.faulty.mp h) htable' (hfree'.trans hfree)

/-- `create_chain` follows a chain, or takes a free cluster, or tells why not. -/
theorem createChain_spec (hs : Sound fs) (hr : fs.Robust) (clst : Nat) :
    Touch fs (createChain fs clst).1 ∧ Created fs (createChain fs clst).1 clst (createChain fs clst).2 := by
  have hthree := hs.geometry.nFatent.1
  unfold createChain
  by_cases hc : clst = 0
  · subst hc
    rw [if_pos rfl]
    refine allocate_spec 0 _ hs hr ?_ fun h => absurd rfl h
    split <;> omega
  · rw [if_neg hc]
    obtain ⟨htouch, htable, hfree, hres⟩ := getFat_table hs clst
    generalize getFat fs clst = r at htouch htable hfree hres
    obtain ⟨fs₁, cs⟩ := r
    dsimp only at htouch htable hfree hres ⊢
    obtain rfl | ⟨rfl, hbad⟩ := hres
    · rw [htouch.geometry]
      split
      · rename_i hlt
        exact ⟨htouch, .broken (.inl ⟨hc, hlt⟩) htable hfree⟩
      · rename_i h₂
        rw [if_neg (table_ne_noSector fs clst)]
        split
        · rename_i hlt
          exact ⟨htouch, .follows hc ⟨Nat.le_of_not_lt h₂, hlt⟩ htable hfree⟩
        · rename_i hend
          have hin : 2 ≤ clst ∧ clst < fs.nFatent := table_lt fun h => h₂ (by omega)
          obtain ⟨htouch', hcreated⟩ := allocate_spec clst clst htouch.sound (htouch.robust hr)
            (by rw [htouch.geometry]; omega) fun _ => by rw [htouch.geometry, htable]; omega
          exact ⟨htouch.trans htouch', hcreated.of_read htouch htable hfree⟩
    · exact ⟨htouch, .faulty hbad (.inl htable) hfree⟩

end create

/-! ## `remove_chain` -/

/-- A cluster that can be taken. -/
def Fatfs.Free (fs : Fatfs) (c : Nat) : Prop := 2 ≤ c ∧ c < fs.nFatent ∧ fs.table c = 0

/-- The number of free clusters is known, and right, or not known. -/
def Fatfs.Exact (fs : Fatfs) : Prop := fs.freeClst ≤ fs.nFatent - 2 → Counts fs.Free fs.freeClst

/-- A table after clusters were given back. -/
def giveBack (table : Nat → Nat) (l : List Nat) (c : Nat) : Nat := if c ∈ l then 0 else table c

/-- What `remove_chain` does to the clusters of a chain. If the drive fails, the last ones are lost. -/
inductive Removed (fs fs' : Fatfs) (l : List Nat) : FResult → Prop
  | ok (htable : fs'.table = giveBack fs.table l) : Removed fs fs' l .ok
  | faulty (h : fs.Faulty) {pre rest : List Nat} (hl : l = pre ++ rest) (htable : fs'.table = giveBack fs.table pre) :
      Removed fs fs' l .diskErr

/-- What `remove_chain` does behind the cluster `p`, to the rest `l` of its chain. -/
inductive Cut (fs fs' : Fatfs) (p : Nat) (l : List Nat) : FResult → Prop
  | ok (htable : fs'.table = giveBack (Function.update fs.table p (fs.fsType.mask endOfChain)) l) : Cut fs fs' p l .ok
  /-- The chain was cut, and the last clusters are lost. -/
  | faulty (h : fs.Faulty) {pre rest : List Nat} (hl : l = pre ++ rest)
      (htable : fs'.table = giveBack (Function.update fs.table p (fs.fsType.mask endOfChain)) pre) :
      Cut fs fs' p l .diskErr
  | none (h : fs.Faulty) (htable : fs'.table = fs.table) : Cut fs fs' p l .diskErr

/-- The clusters are a chain of the table. -/
structure IsChain (fs : Fatfs) (l : List Nat) : Prop where
  linked : Linked fs.next l.head? l
  nodup : l.Nodup
  range : ∀ c ∈ l, 2 ≤ c ∧ c < fs.nFatent

section remove

variable {fs fs' fs'' : Fatfs} {c d : Nat} {l pre rest : List Nat}

theorem giveBack_nil (table : Nat → Nat) : giveBack table [] = table := by
  funext c
  exact if_neg List.not_mem_nil

theorem giveBack_cons (table : Nat → Nat) (c : Nat) (l : List Nat) :
    giveBack table (c :: l) = giveBack (Function.update table c 0) l := by
  funext d
  unfold giveBack
  by_cases hd : d = c
  · subst hd
    rw [if_pos (List.mem_cons_self ..), Function.update_self, ite_self]
  · rw [Function.update_of_ne hd]
    exact if_congr (by rw [List.mem_cons, or_iff_right hd]) rfl rfl

theorem Removed.none (h : fs.Faulty) (htable : fs'.table = fs.table) : Removed fs fs' l .diskErr :=
  .faulty h (List.nil_append l).symm (htable.trans (giveBack_nil fs.table).symm)

theorem giveBack_of_notMem {table : Nat → Nat} (h : c ∉ l) : giveBack table l c = table c := if_neg h

theorem Touch.gave (hs : Sound fs) : Touch fs fs.gave := by
  have hsound : Sound fs.gave := by
    unfold Fatfs.gave
    split
    · exact ⟨hs.geometry, hs.clean, hs.dirty, hs.apart⟩
    · exact hs
  unfold Fatfs.gave at hsound ⊢
  split at hsound
  · rename_i h
    rw [if_pos h]
    exact ⟨rfl, rfl, fun _ hm => hm, hsound, .inl rfl, fun _ _ => rfl, fun _ _ _ _ => rfl⟩
  · rename_i h
    rw [if_neg h]
    exact .refl hs

theorem gave_table (fs : Fatfs) : fs.gave.table = fs.table := by
  unfold Fatfs.gave
  split <;> rfl

theorem all_free (h : Counts fs.Free (fs.nFatent - 2 : Nat)) (hc : 2 ≤ c ∧ c < fs.nFatent) : fs.table c = 0 := by
  obtain ⟨F, hF, hcard⟩ := h
  have hsub : F ⊆ Finset.Ico 2 fs.nFatent := fun d hd => by
    obtain ⟨h₂, hlt, -⟩ := (hF d).mp hd
    exact Finset.mem_Ico.mpr ⟨h₂, hlt⟩
  have hall : F = Finset.Ico 2 fs.nFatent := Finset.eq_of_subset_of_card_le hsub (by
    rw [Nat.card_Ico]
    omega)
  exact ((hF c).mp (hall ▸ Finset.mem_Ico.mpr hc)).2.2

theorem exact_gave (h : fs.Exact) (htouch : Touch fs fs') (hfree : fs'.freeClst = fs.freeClst)
    (hc : 2 ≤ c ∧ c < fs.nFatent) (hused : fs.table c ≠ 0) (htable : fs'.table = Function.update fs.table c 0) :
    fs'.gave.Exact := by
  have hgeom : fs'.nFatent = fs.nFatent := by rw [htouch.geometry]
  unfold Fatfs.gave
  split
  · rename_i hlt
    intro _
    have hcount := h (by omega)
    refine Int.natCast_add .. ▸ hfree.symm ▸ hcount.add (x := c) (fun hown => hused hown.2.2) fun d => ?_
    show 2 ≤ d ∧ d < fs'.nFatent ∧ fs'.table d = 0 ↔ _
    rw [hgeom, htable]
    unfold Fatfs.Free
    by_cases hd : d = c
    · subst hd
      rw [Function.update_self]
      exact ⟨fun _ => .inr rfl, fun _ => ⟨hc.1, hc.2, rfl⟩⟩
    · rw [Function.update_of_ne hd, or_iff_left hd]
  · rename_i hge
    intro hle
    have heq : fs.freeClst = fs.nFatent - 2 := by omega
    exact absurd (all_free (heq ▸ h (by omega)) hc) hused

theorem exact_congr (h : fs.Exact) (htouch : Touch fs fs') (hfree : fs'.freeClst = fs.freeClst)
    (htable : fs'.table = fs.table) : fs'.Exact := by
  unfold Fatfs.Exact Fatfs.Free
  rw [hfree, htable, htouch.geometry]
  exact h

theorem IsChain.tail (h : IsChain fs (c :: l)) : IsChain fs l :=
  ⟨h.linked.2.head_eq, (List.nodup_cons.mp h.nodup).2, fun d hd => h.range d (List.mem_cons_of_mem _ hd)⟩

theorem IsChain.suffix (h : IsChain fs l) {pre : List Nat} (hl : l = pre ++ rest) : IsChain fs rest := by
  induction pre generalizing l with
  | nil =>
    subst hl
    exact h
  | cons c pre ih =>
    subst hl
    exact ih h.tail rfl

theorem IsChain.congr (h : IsChain fs l) (hgeom : fs'.toGeometry = fs.toGeometry)
    (htable : ∀ c ∈ l, fs'.table c = fs.table c) : IsChain fs' l := by
  refine ⟨h.linked.congr fun c hc => ?_, h.nodup, by rw [hgeom]; exact h.range⟩
  unfold Fatfs.next
  rw [hgeom, htable c hc]

theorem IsChain.used (hs : Sound fs) (h : IsChain fs l) (hc : c ∈ l) : 2 ≤ fs.table c := by
  obtain ⟨pre, rest, rfl⟩ := List.append_of_mem hc
  have hnext := h.linked.next_eq
  unfold Fatfs.next at hnext
  split at hnext
  · cases rest with
    | nil => cases hnext
    | cons d rest =>
      rw [Option.some.inj hnext]
      exact (h.range d (by simp)).1
  · have := hs.geometry.nFatent.1
    omega

theorem removeLoop_spec {n : Nat} (hs : Sound fs) (hr : fs.Robust) (hl : IsChain fs (c :: l)) (hn : l.length < n) :
    Touch fs (removeLoop n fs c).1 ∧ (fs.Exact → (removeLoop n fs c).1.Exact) ∧
      Removed fs (removeLoop n fs c).1 (c :: l) (removeLoop n fs c).2 := by
  induction n generalizing fs c l with
  | zero => omega
  | succ n ih =>
    have hused := hl.used hs (List.mem_cons_self ..)
    obtain ⟨hnodup, -⟩ := List.nodup_cons.mp hl.nodup
    have hin := hl.range c (List.mem_cons_self ..)
    rw [removeLoop]
    dsimp only
    obtain ⟨htouch, htable, hfree, hres⟩ := getFat_table hs c
    generalize getFat fs c = r at htouch htable hfree hres
    obtain ⟨fs₁, nxt⟩ := r
    dsimp only at htouch htable hfree hres ⊢
    obtain rfl | ⟨rfl, hbad⟩ := hres
    · rw [if_neg (show fs.table c ≠ 0 by omega), if_neg (show fs.table c ≠ 1 by omega),
        if_neg (table_ne_noSector fs c)]
      obtain ⟨htouch₂, hfree₂, hres⟩ := putFat_table htouch.sound (htouch.robust hr) (by rwa [htouch.geometry]) 0
      generalize putFat fs₁ c 0 = r at htouch₂ hfree₂ hres
      obtain ⟨fs₂, res⟩ := r
      dsimp only at htouch₂ hfree₂ hres ⊢
      have htouch₁₂ := htouch.trans htouch₂
      have hfree₁₂ : fs₂.freeClst = fs.freeClst := hfree₂.trans hfree
      rw [htable] at hres
      obtain ⟨rfl, htable₂⟩ | ⟨rfl, hbad, htable₂⟩ := hres
      · rw [mask_of_lt htouch.sound (by rw [htouch.geometry]; omega)] at htable₂
        rw [if_neg (not_not.mpr rfl)]
        have htouch₃ := htouch₁₂.trans (.gave htouch₁₂.sound)
        have htable₃ : fs₂.gave.table = Function.update fs.table c 0 := (gave_table fs₂).trans htable₂
        have hexact (h : fs.Exact) : fs₂.gave.Exact := exact_gave h htouch₁₂ hfree₁₂ hin (by omega) htable₂
        generalize fs₂.gave = fs₃ at htouch₃ htable₃ hexact
        rw [htouch₃.geometry]
        cases l with
        | nil =>
          have hend : ¬ fs.table c < fs.nFatent := fun hlt => by
            have hnext := hl.linked.2
            rw [Fatfs.next, if_pos hlt] at hnext
            cases hnext
          rw [if_neg hend]
          refine ⟨htouch₃, hexact, .ok ?_⟩
          rw [giveBack_cons, giveBack_nil, htable₃]
        | cons d l =>
          obtain ⟨hlt, hd⟩ : fs.table c < fs.nFatent ∧ fs.table c = d := by
            have hnext := hl.linked.2.1
            unfold Fatfs.next at hnext
            split at hnext
            · rename_i hlt
              exact ⟨hlt, Option.some.inj hnext⟩
            · cases hnext
          rw [if_pos hlt, hd]
          have htail : IsChain fs₃ (d :: l) := hl.tail.congr htouch₃.geometry fun e he => by
            rw [htable₃]
            exact Function.update_of_ne (ne_of_mem_of_not_mem he hnodup) ..
          obtain ⟨htouch₄, hexact₄, hremoved⟩ := ih htouch₃.sound (htouch₃.robust hr) htail (Nat.lt_of_succ_lt_succ hn)
          refine ⟨htouch₃.trans htouch₄, fun h => hexact₄ (hexact h), ?_⟩
          generalize (removeLoop n fs₃ d).2 = res at hremoved
          cases hremoved with
          | ok htable₄ => exact .ok (by rw [giveBack_cons, htable₄, htable₃])
          | faulty h hl htable₄ =>
            refine .faulty (htouch₃.faulty.mp h) ((congrArg (c :: ·) hl).trans (List.cons_append ..).symm) ?_
            rw [giveBack_cons, htable₄, htable₃]
      · exact ⟨htouch₁₂, fun h => exact_congr h htouch₁₂ hfree₁₂ htable₂, .none (htouch.faulty.mp hbad) htable₂⟩
    · have hne : noSector ≠ 0 ∧ noSector ≠ 1 := by decide
      rw [if_neg hne.1, if_neg hne.2, if_pos rfl]
      exact ⟨htouch, fun h => exact_congr h htouch hfree htable, .none hbad htable⟩

theorem IsChain.length_lt (h : IsChain fs (c :: l)) : l.length < fs.nFatent := by
  have hsub : c :: l ⊆ List.range fs.nFatent := fun d hd => List.mem_range.mpr (h.range d hd).2
  have hle := (h.nodup.subperm hsub).length_le
  rwa [List.length_range] at hle

theorem removeChain_spec (hs : Sound fs) (hr : fs.Robust) (hl : IsChain fs (c :: l)) :
    Touch fs (removeChain fs c 0).1 ∧ (fs.Exact → (removeChain fs c 0).1.Exact) ∧
      Removed fs (removeChain fs c 0).1 (c :: l) (removeChain fs c 0).2 := by
  have hin := hl.range c (List.mem_cons_self ..)
  have hout : ¬ (c < 2 ∨ fs.nFatent ≤ c) := by omega
  rw [removeChain, if_neg hout]
  exact removeLoop_spec hs hr hl hl.length_lt

/-- Giving back nothing but used clusters, behind a cluster that ends the chain, keeps the count. -/
theorem exact_update (h : fs.Exact) (htouch : Touch fs fs') (hfree : fs'.freeClst = fs.freeClst) {p v : Nat}
    (hp : fs.table p ≠ 0) (hv : v ≠ 0) (htable : fs'.table = Function.update fs.table p v) : fs'.Exact := by
  intro hle
  rw [hfree, htouch.geometry] at hle
  rw [hfree]
  refine (h hle).congr fun d => ?_
  unfold Fatfs.Free
  rw [htouch.geometry, htable]
  by_cases hd : d = p
  · subst hd
    rw [Function.update_self]
    exact ⟨fun hf => absurd hf.2.2 hv, fun hf => absurd hf.2.2 hp⟩
  · rw [Function.update_of_ne hd]

theorem removeChain_cut {p : Nat} {pre : List Nat} (hs : Sound fs) (hr : fs.Robust)
    (hl : IsChain fs (pre ++ p :: c :: l)) :
    Touch fs (removeChain fs c p).1 ∧ (fs.Exact → (removeChain fs c p).1.Exact) ∧
      Cut fs (removeChain fs c p).1 p (c :: l) (removeChain fs c p).2 := by
  have hc := hl.range c (by simp)
  have hp := hl.range p (by simp)
  have hout : ¬ (c < 2 ∨ fs.nFatent ≤ c) := by omega
  have hzero : p ≠ 0 := by omega
  rw [removeChain, if_neg hout]
  dsimp only
  rw [if_pos hzero]
  obtain ⟨htouch, hfree, hres⟩ := putFat_table hs hr hp endOfChain
  generalize putFat fs p endOfChain = r at htouch hfree hres
  obtain ⟨fs₁, res⟩ := r
  dsimp only at htouch hfree hres ⊢
  obtain ⟨rfl, htable⟩ | ⟨rfl, hbad, htable⟩ := hres
  · rw [if_neg (not_not.mpr rfl)]
    have hnot : p ∉ c :: l := (List.nodup_cons.mp (hl.nodup.of_append_right)).1
    have hsuffix : IsChain fs (c :: l) := hl.suffix (List.append_cons pre p (c :: l))
    have htail : IsChain fs₁ (c :: l) := hsuffix.congr htouch.geometry fun d hd => by
      rw [htable]
      exact Function.update_of_ne (ne_of_mem_of_not_mem hd hnot) ..
    obtain ⟨htouch', hexact, hremoved⟩ := removeLoop_spec htouch.sound (htouch.robust hr) htail htail.length_lt
    have hend := mask_end hs
    have hthree := hs.geometry.nFatent.1
    refine ⟨htouch.trans htouch', fun h => hexact ?_, ?_⟩
    · exact exact_update h htouch hfree (by have := hl.used hs (c := p) (by simp); omega) (by omega) htable
    · generalize (removeLoop fs₁.nFatent fs₁ c).2 = res at hremoved
      cases hremoved with
      | ok htable' => exact .ok (by rw [htable', htable])
      | faulty h hl htable' => exact .faulty (htouch.faulty.mp h) hl (by rw [htable', htable])
  · have hne : FResult.diskErr ≠ .ok := nofun
    rw [if_pos hne]
    exact ⟨htouch, fun h => exact_congr h htouch hfree htable, .none hbad htable⟩

end remove

/-! ## `f_getfree` -/

/-- The count on FAT12, cluster by cluster. -/
def scanClusters : Nat → Fatfs → Nat → Nat → Fatfs × FResult × Nat
  | 0, fs, _, nfree => (fs, .ok, nfree)
  | n + 1, fs, clst, nfree =>
    let (fs, stat) := getFat fs clst
    if stat = noSector then (fs, .diskErr, nfree)
    else if stat = 1 then (fs, .intErr, nfree)
    else scanClusters n fs (clst + 1) (if stat = 0 then nfree + 1 else nfree)

/-- The count on FAT16 and FAT32, sector by sector: `i` bytes of the window are left, from `p` on. -/
def scanSectors : Nat → Fatfs → Nat → Nat → Nat → Nat → Fatfs × FResult × Nat
  | 0, fs, _, _, _, nfree => (fs, .ok, nfree)
  | clst + 1, fs, sect, i, p, nfree =>
    let (fs, res) := if i = 0 then moveWindow fs sect else (fs, .ok)
    if res ≠ .ok then (fs, res, nfree)
    else
      let (sect, i, p) := if i = 0 then (sect + 1, fs.ssize, 0) else (sect, i, p)
      if fs.fsType = .fat16 then
        scanSectors clst fs sect (i - 2) (p + 2) (if ldWord fs.win p = 0 then nfree + 1 else nfree)
      else
        scanSectors clst fs sect (i - 4) (p + 4) (if ldDword fs.win p &&& 0x0fffffff = 0 then nfree + 1 else nfree)

/-- `f_getfree` behind the mount of the volume. A count that was broken off is stored too. -/
def getfree (fs : Fatfs) : Fatfs × FResult × Nat :=
  if fs.freeClst ≤ fs.nFatent - 2 then (fs, .ok, fs.freeClst)
  else
    let (fs, res, nfree) :=
      if fs.fsType = .fat12 then scanClusters (fs.nFatent - 2) fs 2 0 else scanSectors fs.nFatent fs fs.fatbase 0 0 0
    ({ fs with freeClst := nfree, fsiFlag := fs.fsiFlag ||| (1 : UInt8) }, res, nfree)

/-- The entries before the first cluster are in use, as the format leaves them. -/
def Fatfs.Headed (fs : Fatfs) : Prop := fs.entry 0 ≠ 0 ∧ fs.entry 1 ≠ 0

section getfree

variable {fs fs' : Fatfs} {c n k i p sect nfree : Nat}

theorem scanClusters_spec (hs : Sound fs) (hc : 2 ≤ c) (hn : c + n = fs.nFatent)
    (hcount : Counts (fun d => d < c ∧ fs.table d = 0) nfree) :
    Touch fs (scanClusters n fs c nfree).1 ∧ (scanClusters n fs c nfree).1.table = fs.table ∧
      ((scanClusters n fs c nfree).2.1 = .ok ∧
          Counts (fun d => d < fs.nFatent ∧ fs.table d = 0) (scanClusters n fs c nfree).2.2 ∨
        (scanClusters n fs c nfree).2.1 = .diskErr ∧ fs.Faulty ∨
        (scanClusters n fs c nfree).2.1 = .intErr ∧ ∃ d, 2 ≤ d ∧ d < fs.nFatent ∧ fs.table d = 1) := by
  induction n generalizing fs c nfree with
  | zero =>
    rw [Nat.add_zero] at hn
    exact ⟨.refl hs, rfl, .inl ⟨rfl, hn ▸ hcount⟩⟩
  | succ n ih =>
    obtain ⟨htouch, htable, -, hres⟩ := getFat_table hs c
    rw [scanClusters]
    generalize getFat fs c = r at htouch htable hres
    obtain ⟨fs₁, stat⟩ := r
    dsimp only at htouch htable hres ⊢
    obtain rfl | ⟨rfl, hbad⟩ := hres
    · rw [if_neg (table_ne_noSector fs c)]
      split
      · rename_i hone
        exact ⟨htouch, htable, .inr (.inr ⟨rfl, c, hc, by omega, hone⟩)⟩
      · have hgeom : fs₁.nFatent = fs.nFatent := by rw [htouch.geometry]
        have hnext : Counts (fun d => d < c + 1 ∧ fs₁.table d = 0)
            (if fs.table c = 0 then nfree + 1 else nfree : Nat) := by
          rw [htable]
          exact hcount.scan Iff.rfl
        obtain ⟨htouch', htable', hres⟩ :=
          ih (c := c + 1) htouch.sound (Nat.le_succ_of_le hc) (by rw [hgeom]; omega) hnext
        rw [htable, hgeom, htouch.faulty] at hres
        exact ⟨htouch.trans htouch', htable'.trans htable, hres⟩
    · rw [if_pos rfl]
      exact ⟨htouch, htable, .inr (.inl ⟨rfl, hbad⟩)⟩

/-- Where the sectors are counted: `x` entries of `k` bytes are behind, and the window has `i` more bytes, from `p`
on. -/
structure Scanning (fs : Fatfs) (k x sect i p : Nat) : Prop where
  window : i = 0 ∨ i ≤ fs.ssize ∧ fs.winsect = fs.fatbase + k * x / fs.ssize ∧ p = k * x % fs.ssize
  sect : ∃ q, sect = fs.fatbase + q ∧ k * x + i = q * fs.ssize
  dvd : k ∣ i

theorem scanning_next {x : Nat} (h : Scanning fs k x sect i p) (hi : 0 < i) (hpos : 0 < fs.ssize) :
    k * x % fs.ssize + k ≤ fs.ssize ∧ Scanning fs k (x + 1) sect (i - k) (p + k) := by
  obtain ⟨hzero | ⟨hle, hwin, hp⟩, ⟨q, hsect, hsum⟩, hdvd⟩ := h
  · omega
  have hki := Nat.le_of_dvd hi hdvd
  have hlt : k * x % fs.ssize < fs.ssize := Nat.mod_lt _ hpos
  have hdiv := Nat.div_add_mod (k * x) fs.ssize
  have hrest : k * x % fs.ssize + i = fs.ssize := by
    have hmod : (k * x % fs.ssize + i) % fs.ssize = 0 := by
      rw [Nat.mod_add_mod, hsum, Nat.mul_mod_left]
    obtain ⟨m, hm⟩ := Nat.dvd_of_mod_eq_zero hmod
    have hone : m = 1 := by
      rcases Nat.lt_trichotomy m 1 with h | h | h
      · have : m = 0 := by omega
        subst this
        omega
      · exact h
      · have := Nat.mul_le_mul_left fs.ssize (show 2 ≤ m from h)
        omega
    subst hone
    omega
  refine ⟨by omega, ⟨?_, ⟨q, hsect, by rw [Nat.mul_succ]; omega⟩, Nat.dvd_sub hdvd (Nat.dvd_refl k)⟩⟩
  rcases Nat.eq_zero_or_pos (i - k) with hend | hmore
  · exact .inl hend
  · obtain ⟨hd, hm⟩ := Nat.div_mod_unique hpos |>.mpr
      ⟨show k * x % fs.ssize + k + fs.ssize * (k * x / fs.ssize) = k * (x + 1) by rw [Nat.mul_succ]; omega, by omega⟩
    refine .inr ⟨by omega, ?_, ?_⟩
    · rw [hwin, hd]
    · rw [hm, hp]

/-- The window is moved to the next sector when it has no more entries. -/
theorem scanning_move {x : Nat} (hs : Sound fs) (h : Scanning fs k x sect i p) (hk : k ∣ fs.ssize)
    (hx : k * x < fs.fsize * fs.ssize) :
    ∃ fs' res, (if i = 0 then moveWindow fs sect else (fs, .ok)) = (fs', res) ∧ Access fs fs' ∧
      (res = .ok ∧ 0 < (if i = 0 then (sect + 1, fs'.ssize, 0) else (sect, i, p)).2.1 ∧
        Scanning fs' k x (if i = 0 then (sect + 1, fs'.ssize, 0) else (sect, i, p)).1
          (if i = 0 then (sect + 1, fs'.ssize, 0) else (sect, i, p)).2.1
          (if i = 0 then (sect + 1, fs'.ssize, 0) else (sect, i, p)).2.2 ∨
        res = .diskErr ∧ fs.Faulty) := by
  have hpos := hs.geometry.ssize_pos
  by_cases hi : i = 0
  · subst hi
    obtain ⟨-, ⟨q, rfl, hsum⟩, -⟩ := h
    rw [Nat.add_zero] at hsum
    have hq : k * x / fs.ssize = q := by rw [hsum, Nat.mul_div_cancel _ hpos]
    have hmod : k * x % fs.ssize = 0 := by rw [hsum, Nat.mul_mod_left]
    obtain ⟨fs', res, heq, hacc, hres⟩ := moveWindow_addr hs hx
    rw [hq] at heq
    simp only [if_true]
    refine ⟨fs', res, heq, hacc, hres.imp_left fun ⟨hok, hw⟩ => ⟨hok, ?_, ?_⟩⟩
    · rwa [hacc.geometry]
    · rw [hacc.geometry] at hw ⊢
      exact ⟨.inr ⟨by rw [hacc.geometry], by rw [hacc.geometry]; exact hw, by rw [hacc.geometry]; exact hmod.symm⟩,
        ⟨q + 1, by rw [hacc.geometry]; rfl, by rw [hacc.geometry, Nat.succ_mul, hsum]⟩, hk⟩
  · simp only [if_neg hi]
    exact ⟨fs, .ok, rfl, .refl hs, .inl ⟨rfl, Nat.pos_of_ne_zero hi, h⟩⟩

/-- The bytes of an entry. -/
def FsType.width (t : FsType) : Nat := if t = .fat16 then 2 else 4

theorem width_dvd (hs : Sound fs) : fs.fsType.width ∣ fs.ssize := by
  unfold FsType.width
  split
  · exact hs.geometry.two_dvd
  · exact hs.geometry.ssize.1

theorem width_lt (hs : Sound fs) (htype : fs.fsType ≠ .fat12) (hc : c < fs.nFatent) :
    fs.fsType.width * c < fs.fsize * fs.ssize := by
  have haddr := addr_lt hs.geometry hc
  cases h : fs.fsType with
  | fat12 => exact absurd h htype
  | fat16 =>
    rw [h] at haddr
    exact haddr
  | fat32 =>
    rw [h] at haddr
    exact haddr

theorem scan_entry (htype : fs.fsType ≠ .fat12)
    (hw : fs.winsect = fs.fatbase + fs.fsType.width * c / fs.ssize)
    (hin : fs.fsType.width * c % fs.ssize + fs.fsType.width ≤ fs.ssize) :
    (if fs.fsType = .fat16 then ldWord fs.win (fs.fsType.width * c % fs.ssize)
      else ldDword fs.win (fs.fsType.width * c % fs.ssize) &&& 0x0fffffff) = fs.entry c := by
  cases h : fs.fsType with
  | fat12 => exact absurd h htype
  | fat16 =>
    rw [h] at hw hin
    have hload : load fs.win (FsType.fat16.width * c % fs.ssize) 2 = load fs.area (2 * c) 2 := load_window hw hin
    rw [if_pos rfl, ldWord, hload, Fatfs.entry, h]
    rfl
  | fat32 =>
    rw [h] at hw hin
    have hne : FsType.fat32 ≠ .fat16 := by decide
    have hload : load fs.win (FsType.fat32.width * c % fs.ssize) 4 = load fs.area (4 * c) 4 := load_window hw hin
    rw [if_neg hne, ldDword, hload, Fatfs.entry, h]
    rfl

theorem scanSectors_spec {x : Nat} (hs : Sound fs) (htype : fs.fsType ≠ .fat12) (hn : x + n = fs.nFatent)
    (hscan : Scanning fs fs.fsType.width x sect i p) (hcount : Counts (fun d => d < x ∧ fs.entry d = 0) nfree) :
    Access fs (scanSectors n fs sect i p nfree).1 ∧
      ((scanSectors n fs sect i p nfree).2.1 = .ok ∧
          Counts (fun d => d < fs.nFatent ∧ fs.entry d = 0) (scanSectors n fs sect i p nfree).2.2 ∨
        (scanSectors n fs sect i p nfree).2.1 = .diskErr ∧ fs.Faulty) := by
  induction n generalizing fs x sect i p nfree with
  | zero =>
    rw [Nat.add_zero] at hn
    exact ⟨.refl hs, .inl ⟨rfl, hn ▸ hcount⟩⟩
  | succ n ih =>
    have hx : x < fs.nFatent := by omega
    obtain ⟨fs₁, res, heq, hacc, hres⟩ := scanning_move hs hscan (width_dvd hs) (width_lt hs htype hx)
    rw [scanSectors]
    dsimp only
    rw [heq]
    obtain ⟨rfl, hi, hscan₁⟩ | ⟨rfl, hbad⟩ := hres
    · rw [if_neg (not_not.mpr rfl)]
      dsimp only
      generalize (if i = 0 then (sect + 1, fs₁.ssize, 0) else (sect, i, p)) = at' at hi hscan₁
      obtain ⟨sect₁, i₁, p₁⟩ := at'
      dsimp only at hi hscan₁ ⊢
      have htype₁ : fs₁.fsType = fs.fsType := by rw [hacc.geometry]
      have hnfat : fs₁.nFatent = fs.nFatent := by rw [hacc.geometry]
      rw [← htype₁] at hscan₁
      obtain ⟨hin, hnext⟩ := scanning_next hscan₁ hi hacc.sound.geometry.ssize_pos
      obtain hzero | ⟨-, hw, rfl⟩ := hscan₁.window
      · omega
      have hentry := scan_entry (htype₁ ▸ htype) hw hin
      have hcount₁ {q : Prop} [Decidable q] (hq : q ↔ fs₁.entry x = 0) :
          Counts (fun d => d < x + 1 ∧ fs₁.entry d = 0) (if q then nfree + 1 else nfree : Nat) :=
        Counts.scan (hcount.congr fun d => and_congr_right fun hd => by
          rw [hacc.entry hs.geometry (Nat.lt_trans hd hx)]) hq
      -- both types read the entry, and go on behind it
      have hrest {free : Nat} (hc : Counts (fun d => d < x + 1 ∧ fs₁.entry d = 0) free) :=
        ih hacc.sound (htype₁ ▸ htype) (by omega) hnext hc
      have hdone {r : Fatfs × FResult × Nat}
          (hr : Access fs₁ r.1 ∧ (r.2.1 = .ok ∧ Counts (fun d => d < fs₁.nFatent ∧ fs₁.entry d = 0) r.2.2 ∨
            r.2.1 = .diskErr ∧ fs₁.Faulty)) :
          Access fs r.1 ∧ (r.2.1 = .ok ∧ Counts (fun d => d < fs.nFatent ∧ fs.entry d = 0) r.2.2 ∨
            r.2.1 = .diskErr ∧ fs.Faulty) := by
        rw [hnfat, hacc.faulty] at hr
        refine ⟨hacc.trans hr.1, hr.2.imp_left fun ⟨hok, hc⟩ => ⟨hok, hc.congr fun d => ?_⟩⟩
        exact and_congr_right fun hd => by rw [hacc.entry hs.geometry hd]
      by_cases h16 : fs₁.fsType = .fat16
      · have hwidth : fs₁.fsType.width = 2 := if_pos h16
        rw [if_pos h16] at hentry ⊢
        have hq : ldWord fs₁.win (fs₁.fsType.width * x % fs₁.ssize) = 0 ↔ fs₁.entry x = 0 := by rw [hentry]
        rw [← hwidth]
        exact hdone (hrest (hcount₁ hq))
      · have hwidth : fs₁.fsType.width = 4 := if_neg h16
        rw [if_neg h16] at hentry ⊢
        have hq : ldDword fs₁.win (fs₁.fsType.width * x % fs₁.ssize) &&& 0x0fffffff = 0 ↔ fs₁.entry x = 0 := by
          rw [hentry]
        rw [← hwidth]
        exact hdone (hrest (hcount₁ hq))
    · have hne : FResult.diskErr ≠ .ok := nofun
      rw [if_pos hne]
      exact ⟨hacc, .inr ⟨rfl, hbad⟩⟩

theorem getfree_spec (hs : Sound fs) :
    Touch fs (getfree fs).1 ∧ (getfree fs).1.table = fs.table ∧
      ((getfree fs).2.1 = .ok ∧ (fs.Headed → fs.Exact → Counts fs.Free (getfree fs).2.2) ∧
          (getfree fs).1.freeClst = (getfree fs).2.2 ∨
        (getfree fs).2.1 = .diskErr ∧ fs.Faulty ∨
        (getfree fs).2.1 = .intErr ∧ ∃ d, 2 ≤ d ∧ d < fs.nFatent ∧ fs.table d = 1) := by
  have htable (d : Nat) : d < fs.nFatent ∧ fs.table d = 0 ↔ fs.Free d := by
    refine ⟨fun ⟨hd, hzero⟩ => ⟨?_, hd, hzero⟩, fun h => h.2⟩
    by_contra h₂
    rw [Fatfs.table, if_neg fun h => h₂ h.1] at hzero
    cases hzero
  have hentry (hhead : fs.Headed) (d : Nat) : d < fs.nFatent ∧ fs.entry d = 0 ↔ fs.Free d := by
    constructor
    · rintro ⟨hd, hzero⟩
      have h₂ : 2 ≤ d := by
        by_contra hlt
        obtain rfl | rfl : d = 0 ∨ d = 1 := by omega
        · exact hhead.1 hzero
        · exact hhead.2 hzero
      exact ⟨h₂, hd, (if_pos ⟨h₂, hd⟩).trans hzero⟩
    · rintro ⟨h₂, hd, hzero⟩
      exact ⟨hd, (if_pos ⟨h₂, hd⟩ : fs.table d = fs.entry d) ▸ hzero⟩
  have hstore {fs' : Fatfs} (nfree : Nat) (flag : UInt8) (h : Touch fs fs') :
      Touch fs { fs' with freeClst := nfree, fsiFlag := flag } :=
    h.trans ⟨rfl, rfl, fun _ hm => hm, ⟨h.sound.geometry, h.sound.clean, h.sound.dirty, h.sound.apart⟩, .inl rfl,
      fun _ _ => rfl, fun _ _ _ _ => rfl⟩
  have hthree := hs.geometry.nFatent.1
  unfold getfree
  split
  · rename_i hknown
    exact ⟨.refl hs, rfl, .inl ⟨rfl, fun _ hexact => hexact hknown, rfl⟩⟩
  · by_cases htype : fs.fsType = .fat12
    · rw [if_pos htype]
      obtain ⟨htouch, htab, hres⟩ := scanClusters_spec hs (Nat.le_refl 2)
        (show 2 + (fs.nFatent - 2) = fs.nFatent by omega)
        (show Counts (fun d => d < 2 ∧ fs.table d = 0) (0 : Nat) from
          ⟨∅, fun d => ⟨nofun, fun ⟨hd, hzero⟩ => absurd ((htable d).mp ⟨by omega, hzero⟩).1 (by omega)⟩, rfl⟩)
      generalize scanClusters (fs.nFatent - 2) fs 2 0 = r at htouch htab hres
      refine ⟨hstore _ _ htouch, htab, hres.imp_left fun ⟨hok, hc⟩ => ⟨hok, fun _ _ => ?_, rfl⟩⟩
      exact hc.congr fun d => (htable d).symm
    · rw [if_neg htype]
      obtain ⟨hacc, hres⟩ := scanSectors_spec hs htype (Nat.zero_add _)
        (show Scanning fs fs.fsType.width 0 fs.fatbase 0 0 from
          ⟨.inl rfl, ⟨0, rfl, by rw [Nat.mul_zero, Nat.zero_mul]⟩, Nat.dvd_zero _⟩)
        (show Counts (fun d => d < 0 ∧ fs.entry d = 0) (0 : Nat) from
          ⟨∅, fun d => ⟨nofun, fun ⟨hd, _⟩ => absurd hd (Nat.not_lt_zero d)⟩, rfl⟩)
      have htab := hacc.table hs
      generalize scanSectors fs.nFatent fs fs.fatbase 0 0 0 = r at hacc hres htab
      refine ⟨hstore _ _ (hacc.touch hs), htab, ?_⟩
      obtain ⟨hok, hc⟩ | hbad := hres
      · exact .inl ⟨hok, fun hhead _ => hc.congr fun d => (hentry hhead d).symm, rfl⟩
      · exact .inr (.inl hbad)

end getfree

/-! ## The chains of a volume -/

/-- A volume with the chains of its files and directories. -/
structure Volume (ι : Type) where
  fs : Fatfs
  chains : ι → List Nat

/-- What the file system does with the chains: a new one, the cluster behind the `k`-th, the removal of a whole chain
and of what is behind the `k`-th cluster, the count of the free clusters, and all the rest, which is no `put_fat`. -/
inductive VolumeCall (ι : Type) where
  | create (i : ι)
  | stretch (i : ι) (k : Nat)
  | drop (i : ι)
  | cut (i : ι) (k : Nat)
  | getfree
  | window (a : WindowCall)

def WindowCall.isPut : WindowCall → Bool
  | .put _ _ => true
  | _ => false

variable {ι : Type}

def volumeStep [DecidableEq ι] (v : Volume ι) : VolumeCall ι → Option (Volume ι)
  | .create i =>
    if v.chains i = [] then
      let (fs, ncl) := createChain v.fs 0
      some ⟨fs, if 2 ≤ ncl ∧ ncl < fs.nFatent then Function.update v.chains i [ncl] else v.chains⟩
    else none
  | .stretch i k =>
    match (v.chains i)[k]? with
    | none => none
    | some clst =>
      let (fs, ncl) := createChain v.fs clst
      let grown := k + 1 = (v.chains i).length ∧ 2 ≤ ncl ∧ ncl < fs.nFatent
      some ⟨fs, if grown then Function.update v.chains i (v.chains i ++ [ncl]) else v.chains⟩
  | .drop i =>
    match v.chains i with
    | [] => none
    | clst :: _ => some ⟨(removeChain v.fs clst 0).1, Function.update v.chains i []⟩
  | .cut i k =>
    match (v.chains i)[k]?, (v.chains i)[k + 1]? with
    | some pclst, some clst =>
      let fs := (removeChain v.fs clst pclst).1
      -- a drive that failed may have left the chain as it was
      let front := (v.chains i).take (k + 1)
      some ⟨fs, if fs.table pclst < fs.nFatent then v.chains else Function.update v.chains i front⟩
    | _, _ => none
  | .getfree => some ⟨(getfree v.fs).1, v.chains⟩
  | .window a => if a.isPut then none else (windowStep v.fs a).map (⟨·, v.chains⟩)

/-- A cluster that is not free. -/
def Fatfs.Used (fs : Fatfs) (c : Nat) : Prop := 2 ≤ c ∧ c < fs.nFatent ∧ fs.table c ≠ 0

/-- The chains are chains of the table, and share no cluster. The clusters of `kept`, which are in no chain, are as they
were in `table`. -/
structure Safe (table : Nat → Nat) (kept : Nat → Prop) (v : Volume ι) : Prop where
  sound : Sound v.fs
  family : Family v.fs.next v.fs.Used v.chains
  apart : ∀ c, kept c → v.fs.table c = table c ∧ v.fs.Used c ∧ ∀ i, c ∉ v.chains i

section volumes

variable {fs : Fatfs} {v v' : Volume ι} {table : Nat → Nat} {kept : Nat → Prop} {a : VolumeCall ι} {i : ι} {c k : Nat}
  {l : List Nat}

theorem Safe.isChain (h : Safe table kept v) (i : ι) : IsChain v.fs (v.chains i) :=
  ⟨h.family.linked i, h.family.nodup i, fun c hc => ⟨(h.family.used i c hc).1, (h.family.used i c hc).2.1⟩⟩

theorem next_eq_none (h : fs.nFatent ≤ fs.table c) : fs.next c = none := if_neg (Nat.not_lt.mpr h)

theorem next_eq_some (h : fs.table c < fs.nFatent) : fs.next c = some (fs.table c) := if_pos h

theorem used_same {fs' : Fatfs} (htouch : Touch fs fs') (htable : fs'.table c = fs.table c) (hused : fs.Used c) :
    fs'.next c = fs.next c ∧ fs'.Used c := by
  refine ⟨?_, hused.1, by rw [htouch.geometry]; exact hused.2.1, htable ▸ hused.2.2⟩
  unfold Fatfs.next
  rw [htable, htouch.geometry]

/-- One chain changes, and takes free clusters. Clusters of no chain may be lost. -/
theorem Safe.change [DecidableEq ι] (h : Safe table kept v) (htouch : Touch v.fs fs) (hl : IsChain fs l)
    (hlused : ∀ c ∈ l, fs.table c ≠ 0)    (hfrom : ∀ c ∈ l, c ∈ v.chains i ∨ v.fs.table c = 0)
    (hsame : ∀ c, c ∉ v.chains i → v.fs.table c ≠ 0 → fs.table c = v.fs.table c) :
    Safe table kept ⟨fs, Function.update v.chains i l⟩ := by
  refine ⟨htouch.sound, h.family.change hl.linked hl.nodup (fun c hc => ?_) fun j hj c hc => ?_, fun c hc => ?_⟩
  · refine ⟨⟨(hl.range c hc).1, (hl.range c hc).2, hlused c hc⟩, (hfrom c hc).imp_right fun hzero hused => ?_⟩
    exact hused.2.2 hzero
  · have hused := h.family.used j c hc
    exact used_same htouch (hsame c (fun hci => h.family.disjoint j i hj hc hci) hused.2.2) hused
  · obtain ⟨htab, hused, hout⟩ := h.apart c hc
    have htab' := hsame c (hout i) hused.2.2
    refine ⟨htab'.trans htab, (used_same htouch htab' hused).2, fun j (hcj : c ∈ Function.update v.chains i l j) => ?_⟩
    by_cases hj : j = i
    · subst hj
      rw [Function.update_self] at hcj
      rcases hfrom c hcj with hci | hzero
      · exact hout j hci
      · exact hused.2.2 hzero
    · rw [Function.update_of_ne hj] at hcj
      exact hout j hcj

theorem Safe.congr (h : Safe table kept v) (htouch : Touch v.fs fs)
    (hsame : ∀ c, v.fs.table c ≠ 0 → fs.table c = v.fs.table c) : Safe table kept ⟨fs, v.chains⟩ := by
  refine ⟨htouch.sound, h.family.congr (fun i c hc => ?_) fun i c hc => ?_, fun c hc => ?_⟩
  · have hused := h.family.used i c hc
    exact (used_same htouch (hsame c hused.2.2) hused).1
  · have hused := h.family.used i c hc
    exact (used_same htouch (hsame c hused.2.2) hused).2
  · obtain ⟨htab, hused, hout⟩ := h.apart c hc
    have htab' := hsame c hused.2.2
    exact ⟨htab'.trans htab, (used_same htouch htab' hused).2, hout⟩

theorem IsChain.single (hs : Sound fs) {fs' : Fatfs} (hgeom : fs'.toGeometry = fs.toGeometry)
    (hin : 2 ≤ c ∧ c < fs.nFatent) (htable : fs'.table = Function.update fs.table c (fs.fsType.mask endOfChain)) :
    IsChain fs' [c] := by
  refine ⟨⟨rfl, ?_⟩, List.nodup_singleton c, fun d hd => ?_⟩
  · refine next_eq_none ?_
    rw [hgeom, htable, Function.update_self]
    exact mask_end hs
  · rw [List.mem_singleton.mp hd, hgeom]
    exact hin

theorem IsChain.extend {fs' : Fatfs} {pre : List Nat} {d : Nat} (hs : Sound fs) (h : IsChain fs (pre ++ [c]))
    (hgeom : fs'.toGeometry = fs.toGeometry) (hin : 2 ≤ d ∧ d < fs.nFatent) (hzero : fs.table d = 0)
    (htable : fs'.table = Function.update (Function.update fs.table d (fs.fsType.mask endOfChain)) c d) :
    IsChain fs' (pre ++ [c] ++ [d]) := by
  have hnot : d ∉ pre ++ [c] := fun hd => by
    have := h.used hs hd
    omega
  have hcd : d ≠ c := fun he => hnot (by simp [he])
  have hlast : c ∉ pre := fun hc => (List.nodup_append.mp h.nodup).2.2 c hc c (by simp) rfl
  have hnext : fs'.next c = some d := by
    have htab : fs'.table c = d := by rw [htable, Function.update_self]
    rw [next_eq_some (by rw [htab, hgeom]; exact hin.2), htab]
  have hend : fs'.next d = none := by
    refine next_eq_none ?_
    rw [hgeom, htable, Function.update_of_ne hcd, Function.update_self]
    exact mask_end hs
  have hlinked : Linked fs'.next (pre ++ [c]).head? (pre ++ [c] ++ [d]) := h.linked.extend (fun e he => ?_) hnext hend
  · refine ⟨hlinked.head_eq, ?_, fun e he => ?_⟩
    · rw [List.nodup_append]
      refine ⟨h.nodup, List.nodup_singleton d, fun x hx y hy => ?_⟩
      rw [List.mem_singleton.mp hy]
      exact ne_of_mem_of_not_mem hx hnot
    · rw [hgeom]
      rcases List.mem_append.mp he with he | he
      · exact h.range e he
      · rw [List.mem_singleton.mp he]
        exact hin
  · have hec : e ≠ c := ne_of_mem_of_not_mem he hlast
    have hed : e ≠ d := fun hed => hnot (by simp [← hed, he])
    unfold Fatfs.next
    rw [hgeom, htable, Function.update_of_ne hec, Function.update_of_ne hed]

theorem IsChain.cut {fs' : Fatfs} {pre : List Nat} (hs : Sound fs) (h : IsChain fs (pre ++ c :: l))
    (hgeom : fs'.toGeometry = fs.toGeometry) (hend : fs'.table c = fs.fsType.mask endOfChain)
    (hpre : ∀ d ∈ pre, fs'.table d = fs.table d) : IsChain fs' (pre ++ [c]) := by
  have hsub : (pre ++ [c]).Sublist (pre ++ c :: l) := by simp
  have hlinked : Linked fs'.next (pre ++ c :: l).head? (pre ++ [c]) :=
    h.linked.cut (fun d hd => ?_) (next_eq_none (by rw [hend, hgeom]; exact mask_end hs))
  · refine ⟨hlinked.head_eq, h.nodup.sublist hsub, fun d hd => ?_⟩
    rw [hgeom]
    exact h.range d (hsub.subset hd)
  · unfold Fatfs.next
    rw [hpre d hd, hgeom]

theorem not_in_range (hs : Sound fs) {r : Nat} (hr : r = 0 ∨ r = 1 ∨ r = noSector) : ¬ (2 ≤ r ∧ r < fs.nFatent) := by
  have := nFatent_lt hs
  omega

/-- The results of `create_chain` that are no cluster leave the chains. -/
theorem Safe.refused (h : Safe table kept v) (htouch : Touch v.fs fs)
    (htable : fs.table = v.fs.table ∨
      ∃ ncl, 2 ≤ ncl ∧ ncl < v.fs.nFatent ∧ v.fs.table ncl = 0 ∧
        fs.table = Function.update v.fs.table ncl (v.fs.fsType.mask endOfChain)) : Safe table kept ⟨fs, v.chains⟩ := by
  refine h.congr htouch fun c hc => ?_
  obtain htable | ⟨ncl, -, -, hzero, htable⟩ := htable
  · rw [htable]
  · rw [htable]
    exact Function.update_of_ne (ne_of_apply_ne v.fs.table (hzero.symm ▸ hc)) ..

theorem Safe.of_table (h : Safe table kept v) (hs : Sound fs) (hgeom : fs.toGeometry = v.fs.toGeometry)
    (htable : fs.table = v.fs.table) : Safe table kept ⟨fs, v.chains⟩ := by
  have hnext : fs.next = v.fs.next := by
    funext c
    unfold Fatfs.next
    rw [hgeom, htable]
  have hused : fs.Used = v.fs.Used := by
    funext c
    unfold Fatfs.Used
    rw [hgeom, htable]
  refine ⟨hs, ?_, fun c hc => ?_⟩
  · rw [hnext, hused]
    exact h.family
  · rw [hused, htable]
    exact h.apart c hc

/-- The small volume, with one file, which has no cluster yet. -/
def emptyFiles : Volume Unit := ⟨emptyVolume, fun _ => []⟩

theorem emptyFiles_safe : Safe (fun _ => 0) (fun _ => False) emptyFiles :=
  ⟨emptyVolume_sound, ⟨fun _ => rfl, fun _ => List.nodup_nil, nofun, fun _ _ h => absurd rfl h⟩, nofun⟩

section steps

variable [DecidableEq ι]

theorem Safe.create (h : Safe table kept v) (hr : v.fs.Robust) (hstep : volumeStep v (.create i) = some v') :
    Safe table kept v' := by
  unfold volumeStep at hstep
  obtain ⟨htouch, hcreated⟩ := createChain_spec h.sound hr 0
  generalize createChain v.fs 0 = r at htouch hcreated hstep
  obtain ⟨fs, ncl⟩ := r
  obtain ⟨hempty, hstep⟩ := Option.ite_none_right_eq_some.mp hstep
  obtain rfl := Option.some.inj hstep
  dsimp only at htouch hcreated ⊢
  rw [htouch.geometry]
  cases hcreated with
  | follows hc => exact absurd rfl hc
  | took hin hzero _ htable _ =>
    rw [if_pos rfl] at htable
    rw [if_pos hin]
    have hl := IsChain.single h.sound htouch.geometry hin htable
    refine h.change htouch hl (fun c hc => ?_) (fun c hc => ?_) fun c _ hc => ?_
    · have hend := mask_end h.sound
      have hthree := h.sound.geometry.nFatent.1
      rw [List.mem_singleton.mp hc, htable, Function.update_self]
      omega
    · exact .inr (List.mem_singleton.mp hc ▸ hzero)
    · rw [htable]
      exact Function.update_of_ne (ne_of_apply_ne v.fs.table (hzero.symm ▸ hc)) ..
  | full _ htable =>
    rw [if_neg (not_in_range h.sound (.inl rfl))]
    exact h.refused htouch (.inl htable)
  | broken _ htable =>
    rw [if_neg (not_in_range h.sound (.inr (.inl rfl)))]
    exact h.refused htouch (.inl htable)
  | faulty _ htable =>
    rw [if_neg (not_in_range h.sound (.inr (.inr rfl)))]
    exact h.refused htouch htable

theorem getElem?_split {l : List Nat} (h : l[k]? = some c) : l = l.take k ++ c :: l.drop (k + 1) := by
  obtain ⟨hlt, rfl⟩ := List.getElem?_eq_some_iff.mp h
  rw [← List.drop_eq_getElem_cons hlt, List.take_append_drop]

theorem getElem?_split₂ {l : List Nat} {d : Nat} (hc : l[k]? = some c) (hd : l[k + 1]? = some d) :
    l = l.take k ++ c :: d :: l.drop (k + 2) := by
  have hrest : l.drop (k + 1) = d :: l.drop (k + 2) := by
    obtain ⟨hlt, rfl⟩ := List.getElem?_eq_some_iff.mp hd
    exact List.drop_eq_getElem_cons hlt
  rw [← hrest]
  exact getElem?_split hc

theorem take_split {l : List Nat} (hc : l[k]? = some c) : l.take (k + 1) = l.take k ++ [c] := by
  rw [List.take_add_one, hc]
  rfl

theorem IsChain.more_iff (h : IsChain fs l) (hc : l[k]? = some c) : fs.table c < fs.nFatent ↔ k + 1 < l.length := by
  have hsplit := getElem?_split hc
  have hlt := (List.getElem?_eq_some_iff.mp hc).1
  have hlinked := h.linked
  rw [hsplit] at hlinked
  have hnext := hlinked.next_eq
  constructor
  · intro hin
    rw [next_eq_some hin] at hnext
    by_contra hlast
    rw [List.drop_eq_nil_of_le (Nat.le_of_not_lt hlast)] at hnext
    cases hnext
  · intro hmore
    by_contra hend
    rw [next_eq_none (Nat.le_of_not_lt hend)] at hnext
    have hlast := List.drop_eq_nil_iff.mp (List.head?_eq_none_iff.mp hnext.symm)
    omega

theorem Safe.stretch (h : Safe table kept v) (hr : v.fs.Robust) (hstep : volumeStep v (.stretch i k) = some v') :
    Safe table kept v' := by
  dsimp only [volumeStep] at hstep
  split at hstep
  · cases hstep
  rename_i clst hclst
  have hchain := h.isChain i
  have hmem := List.mem_of_getElem? hclst
  obtain ⟨htouch, hcreated⟩ := createChain_spec h.sound hr clst
  generalize createChain v.fs clst = r at htouch hcreated hstep
  obtain ⟨fs, ncl⟩ := r
  obtain rfl := Option.some.inj hstep
  dsimp only at htouch hcreated ⊢
  rw [htouch.geometry]
  have hpos : clst ≠ 0 := by
    have := (hchain.range clst hmem).1
    omega
  have hmore := hchain.more_iff hclst
  have hlt := (List.getElem?_eq_some_iff.mp hclst).1
  cases hcreated with
  | follows _ hin htable _ =>
    rw [if_neg fun hg => Nat.ne_of_lt (hmore.mp hin.2) hg.1]
    exact h.refused htouch (.inl htable)
  | took hin hzero hend htable _ =>
    rw [if_neg hpos] at htable
    have hlen : k + 1 = (v.chains i).length := by
      have := mt hmore.mpr (Nat.not_lt.mpr (hend hpos).2.2)
      omega
    rw [if_pos ⟨hlen, hin⟩]
    have hl : IsChain fs (v.chains i ++ [ncl]) := by
      have hsplit := getElem?_split hclst
      rw [List.drop_eq_nil_of_le (Nat.le_of_eq hlen.symm)] at hsplit
      rw [hsplit] at hchain ⊢
      exact hchain.extend h.sound htouch.geometry hin hzero htable
    refine h.change htouch hl (fun c hc => ?_) (fun c hc => ?_) fun c hc hused => ?_
    · have := hl.used htouch.sound hc
      omega
    · exact (List.mem_append.mp hc).imp_right fun hc => (congrArg _ (List.mem_singleton.mp hc)).trans hzero
    · have hclst : c ≠ clst := (ne_of_mem_of_not_mem hmem hc).symm
      rw [htable, Function.update_of_ne hclst]
      exact Function.update_of_ne (ne_of_apply_ne v.fs.table (hzero.symm ▸ hused)) ..
  | full _ htable =>
    rw [if_neg fun hg => not_in_range h.sound (.inl rfl) hg.2]
    exact h.refused htouch (.inl htable)
  | broken _ htable =>
    rw [if_neg fun hg => not_in_range h.sound (.inr (.inl rfl)) hg.2]
    exact h.refused htouch (.inl htable)
  | faulty _ htable =>
    rw [if_neg fun hg => not_in_range h.sound (.inr (.inr rfl)) hg.2]
    exact h.refused htouch htable

theorem IsChain.nil (fs : Fatfs) : IsChain fs [] := ⟨rfl, List.nodup_nil, nofun⟩

theorem Removed.cleared {fs' : Fatfs} {res : FResult} (h : Removed fs fs' l res) :
    ∃ pre rest, l = pre ++ rest ∧ fs'.table = giveBack fs.table pre := by
  cases h with
  | ok htable => exact ⟨l, [], (List.append_nil l).symm, htable⟩
  | faulty _ hl htable => exact ⟨_, _, hl, htable⟩

theorem Cut.cleared {fs' : Fatfs} {res : FResult} {p : Nat} (h : Cut fs fs' p l res) :
    fs'.table = fs.table ∨ ∃ pre rest, l = pre ++ rest ∧
      fs'.table = giveBack (Function.update fs.table p (fs.fsType.mask endOfChain)) pre := by
  cases h with
  | ok htable => exact .inr ⟨l, [], (List.append_nil l).symm, htable⟩
  | faulty _ hl htable => exact .inr ⟨_, _, hl, htable⟩
  | none _ htable => exact .inl htable

theorem Safe.drop (h : Safe table kept v) (hr : v.fs.Robust) (hstep : volumeStep v (.drop i) = some v') :
    Safe table kept v' := by
  dsimp only [volumeStep] at hstep
  split at hstep
  · cases hstep
  rename_i clst rest hchain
  have hl := h.isChain i
  rw [hchain] at hl
  obtain ⟨htouch, -, hremoved⟩ := removeChain_spec h.sound hr hl
  obtain rfl := Option.some.inj hstep
  obtain ⟨pre, rest', hpre, htable⟩ := hremoved.cleared
  refine h.change htouch (.nil _) nofun nofun fun c hc _ => ?_
  rw [htable]
  refine giveBack_of_notMem fun hmem => hc ?_
  rw [hchain, hpre]
  exact List.mem_append_left _ hmem

theorem Safe.cut (h : Safe table kept v) (hr : v.fs.Robust) (hstep : volumeStep v (.cut i k) = some v') :
    Safe table kept v' := by
  dsimp only [volumeStep] at hstep
  split at hstep
  · rename_i pclst clst hp hc
    have hchain := h.isChain i
    have hsplit := getElem?_split₂ hp hc
    have htake := take_split hp
    have hsame := hchain
    rw [hsplit] at hsame
    have hlt : v.fs.table pclst < v.fs.nFatent := by
      have hnext := hsame.linked.next_eq
      unfold Fatfs.next at hnext
      split at hnext
      · assumption
      · cases hnext
    obtain ⟨htouch, -, hcut⟩ := removeChain_cut h.sound hr hsame
    obtain rfl := Option.some.inj hstep
    rw [htouch.geometry]
    have hend := mask_end h.sound
    obtain htable | ⟨pre, rest, hpre, htable⟩ := hcut.cleared
    · rw [htable, if_pos hlt]
      exact h.refused htouch (.inl htable)
    · have hparts := List.nodup_append.mp hsame.nodup
      have hnot : pclst ∉ pre := fun hmem => (List.nodup_cons.mp hparts.2.1).1 (hpre ▸ List.mem_append_left _ hmem)
      have hptable : (removeChain v.fs clst pclst).1.table pclst = v.fs.fsType.mask endOfChain := by
        rw [htable, giveBack_of_notMem hnot, Function.update_self]
      have hother (c : Nat) (hcp : c ≠ pclst) (hcl : c ∉ clst :: (v.chains i).drop (k + 2)) :
          (removeChain v.fs clst pclst).1.table c = v.fs.table c := by
        rw [htable, giveBack_of_notMem fun hmem => hcl (hpre ▸ List.mem_append_left _ hmem), Function.update_of_ne hcp]
      have hfront (c : Nat) (hc : c ∈ (v.chains i).take k) :
          (removeChain v.fs clst pclst).1.table c = v.fs.table c :=
        hother c (hparts.2.2 c hc pclst (by simp)) fun hmem => hparts.2.2 c hc c (List.mem_cons_of_mem _ hmem) rfl
      rw [hptable, if_neg (Nat.not_lt.mpr hend), htake]
      have hl := hsame.cut h.sound htouch.geometry hptable hfront
      refine h.change htouch hl (fun c hc => ?_) (fun c hc => ?_) fun c hc _ => ?_
      · have := hl.used htouch.sound hc
        omega
      · rw [← htake] at hc
        exact .inl (List.mem_of_mem_take hc)
      · rw [hsplit] at hc
        exact hother c (fun he => hc (by simp [he])) fun hmem => hc (by simp [hmem])
  · cases hstep

theorem Safe.step (h : Safe table kept v) (hr : v.fs.Robust) (hstep : volumeStep v a = some v') :
    Safe table kept v' := by
  cases a with
  | create i => exact h.create hr hstep
  | stretch i k => exact h.stretch hr hstep
  | drop i => exact h.drop hr hstep
  | cut i k => exact h.cut hr hstep
  | getfree =>
    obtain rfl := Option.some.inj hstep
    obtain ⟨htouch, htab, -⟩ := getfree_spec h.sound
    exact h.of_table htouch.sound htouch.geometry htab
  | window a =>
    obtain ⟨hput, hstep⟩ := Option.ite_none_left_eq_some.mp hstep
    obtain ⟨fs, hfs, rfl⟩ := Option.map_eq_some_iff.mp hstep
    have hsame := windowStep_same h.sound hfs fun c v hc => hput (hc ▸ rfl)
    exact h.of_table hsame.sound hsame.geometry hsame.table

/-- A volume whose clusters are in chains, or free, or kept as they are. -/
def volumeSystem (ι : Type) [DecidableEq ι] (table : Nat → Nat) (kept : Nat → Prop) :
    System (Volume ι) (VolumeCall ι) where
  init v := Safe table kept v
  step := volumeStep

/-- In every run the chains stay apart and whole, and no cluster is touched that is in no chain and was not free,
wherever the drive fails. On FAT12 it may not fail. -/
theorem chains_run {h : History (Volume ι) (VolumeCall ι)} (hrun : (volumeSystem ι table kept).Run h v)
    (hrobust : Throughout (fun _ v _ => v.fs.Robust) h) :
    Family v.fs.next v.fs.Used v.chains ∧
      ∀ c, kept c → v.fs.table c = table c ∧ ∀ i, c ∉ v.chains i := by
  have hsafe : Safe table kept v := hrun.invariant (I := fun _ v => Safe table kept v) (fun v (hv : Safe _ _ v) => hv)
    (fun _ v _ _ _ hv hr hstep => hv.step hr hstep) hrobust
  exact ⟨hsafe.family, fun c hc => ⟨(hsafe.apart c hc).1, (hsafe.apart c hc).2.2⟩⟩

theorem chains_run_small :
    Family (createChain emptyVolume 0).1.next (createChain emptyVolume 0).1.Used (fun _ : Unit => [2]) ∧
      ∀ c, False → (createChain emptyVolume 0).1.table c = 0 ∧ ∀ _ : Unit, c ∉ [2] :=
  chains_run (v := ⟨(createChain emptyVolume 0).1, fun _ => [2]⟩) (h := [(emptyFiles, .create ())])
    (.step (.init emptyFiles_safe) rfl) ⟨fun _ ⟨_, hbad⟩ => Bool.false_ne_true hbad, trivial⟩

end steps

end volumes

/-! ## A drive that does not fail -/

def WindowCall.isFail : WindowCall → Bool
  | .fail _ => true
  | _ => false

/-- Every cluster in use is in a chain, or kept, and the free ones are counted. -/
structure Tidy (table : Nat → Nat) (kept : Nat → Prop) (v : Volume ι) : Prop extends Safe table kept v where
  good : ¬ v.fs.Faulty
  head : v.fs.Headed
  whole : ∀ c, v.fs.Used c → kept c ∨ ∃ i, c ∈ v.chains i
  corrupt : ∀ c, kept c → table c ≠ 1

/-- The volume on a drive that does not fail. -/
def tidySystem (ι : Type) [DecidableEq ι] (table : Nat → Nat) (kept : Nat → Prop) :
    System (Volume ι) (VolumeCall ι) where
  init v := Tidy table kept v
  step v
    | .window a => if a.isFail then none else volumeStep v (.window a)
    | a => volumeStep v a

/-- The same, mounted with a right count of the free clusters, or with none. -/
def healthySystem (ι : Type) [DecidableEq ι] (table : Nat → Nat) (kept : Nat → Prop) :
    System (Volume ι) (VolumeCall ι) :=
  { tidySystem ι table kept with init := fun v => Tidy table kept v ∧ v.fs.Exact }

section healthy

variable [DecidableEq ι] {fs : Fatfs} {v v' : Volume ι} {table : Nat → Nat} {kept : Nat → Prop} {a : VolumeCall ι}
  {i : ι} {c k : Nat} {l : List Nat}

theorem Fatfs.robust_of_good (h : ¬ fs.Faulty) : fs.Robust := fun _ => h

theorem Touch.headed {fs' : Fatfs} (htouch : Touch fs fs') (h : fs.Headed) : fs'.Headed := by
  unfold Fatfs.Headed
  rw [htouch.head 0 (by decide), htouch.head 1 (by decide)]
  exact h

omit [DecidableEq ι] in
theorem Tidy.ne_one (h : Tidy table kept v) (hc : 2 ≤ c ∧ c < v.fs.nFatent) : v.fs.table c ≠ 1 := by
  intro hone
  rcases h.whole c ⟨hc.1, hc.2, by omega⟩ with hkept | ⟨i, hi⟩
  · exact h.corrupt c hkept ((h.apart c hkept).1 ▸ hone)
  · have := (h.isChain i).used h.sound hi
    omega

/-- One chain changes, and everything in use outside of it was in use before. -/
theorem Tidy.change (h : Tidy table kept v) (htouch : Touch v.fs fs)
    (hsafe : Safe table kept ⟨fs, Function.update v.chains i l⟩)
    (hused : ∀ c, fs.table c ≠ 0 → c ∈ l ∨ v.fs.table c ≠ 0 ∧ c ∉ v.chains i) :
    Tidy table kept ⟨fs, Function.update v.chains i l⟩ := by
  refine ⟨hsafe, mt htouch.faulty.mp h.good, htouch.headed h.head, fun c hc => ?_, h.corrupt⟩
  obtain hl | ⟨hold, hout⟩ := hused c hc.2.2
  · refine .inr ⟨i, ?_⟩
    show c ∈ Function.update v.chains i l i
    rwa [Function.update_self]
  · have hin : 2 ≤ c ∧ c < v.fs.nFatent := by
      rw [← congrArg Geometry.nFatent htouch.geometry]
      exact ⟨hc.1, hc.2.1⟩
    refine (h.whole c ⟨hin.1, hin.2, hold⟩).imp_right fun ⟨j, hj⟩ => ⟨j, ?_⟩
    have hji : j ≠ i := by
      rintro rfl
      exact hout hj
    show c ∈ Function.update v.chains i l j
    rwa [Function.update_of_ne hji]

omit [DecidableEq ι] in
theorem Tidy.congr (h : Tidy table kept v) (hs : Sound fs) (hgeom : fs.toGeometry = v.fs.toGeometry)
    (htable : fs.table = v.fs.table) (hbad : fs.drive.bad = v.fs.drive.bad)
    (hhead : ∀ c < 2, fs.entry c = v.fs.entry c) : Tidy table kept ⟨fs, v.chains⟩ := by
  refine ⟨h.toSafe.of_table hs hgeom htable, ?_, ?_, fun c hc => h.whole c ?_, h.corrupt⟩
  · unfold Fatfs.Faulty
    rw [hbad]
    exact h.good
  · unfold Fatfs.Headed
    rw [hhead 0 (by decide), hhead 1 (by decide)]
    exact h.head
  · unfold Fatfs.Used at hc ⊢
    rwa [hgeom, htable] at hc

omit [DecidableEq ι] in
theorem Tidy.of_table (h : Tidy table kept v) (htouch : Touch v.fs fs) (htable : fs.table = v.fs.table) :
    Tidy table kept ⟨fs, v.chains⟩ :=
  h.congr htouch.sound htouch.geometry htable htouch.bad htouch.head

/-- The count follows a cluster that is taken, unless it said that all were free. -/
theorem took_exact {fs' : Fatfs} (hs : Sound fs) (hexact : fs.Exact) (htouch : Touch fs fs')
    (hin : 2 ≤ c ∧ c < fs.nFatent) (hzero : fs.table c = 0) (hfree : fs'.freeClst = (fs.took c).freeClst)
    (htable : ∀ d, fs'.table d = 0 ↔ fs.table d = 0 ∧ d ≠ c) : fs'.Exact ↔ fs.freeClst ≠ fs.nFatent - 2 := by
  have hset (d : Nat) : fs'.Free d ↔ fs.Free d ∧ d ≠ c := by
    unfold Fatfs.Free
    rw [htouch.geometry, htable, and_assoc, and_assoc]
  have hnfat : fs'.nFatent = fs.nFatent := by rw [htouch.geometry]
  have hbound := nFatent_lt hs
  unfold Fatfs.took at hfree
  dsimp only at hfree
  rcases Nat.lt_trichotomy fs.freeClst (fs.nFatent - 2) with hlt | heq | hgt
  · rw [if_pos hlt] at hfree
    have hcount := hexact (Nat.le_of_lt hlt)
    have hpos := hcount.pos (x := c) ⟨hin.1, hin.2, hzero⟩
    have hless : fs'.freeClst = fs.freeClst - 1 := by
      rw [noSector] at hbound
      omega
    refine ⟨fun _ => by omega, fun _ _ => ?_⟩
    rw [hless, Int.natCast_sub (by omega)]
    exact hcount.remove ⟨hin.1, hin.2, hzero⟩ hset
  · rw [if_neg (by omega)] at hfree
    refine ⟨fun hexact' => ?_, fun hne => absurd heq hne⟩
    have hall := hexact' (by omega)
    rw [hfree, heq, ← hnfat] at hall
    exact absurd rfl ((htable c).mp (all_free hall (by rwa [hnfat]))).2
  · rw [if_neg (by omega)] at hfree
    exact ⟨fun _ => by omega, fun _ hle => by omega⟩

theorem Tidy.create (h : Tidy table kept v) (hstep : volumeStep v (.create i) = some v') :
    Tidy table kept v' ∧ (v.fs.Exact → (v'.fs.Exact ↔ v.fs.freeClst ≠ v.fs.nFatent - 2)) := by
  have hsafe := h.toSafe.create (Fatfs.robust_of_good h.good) hstep
  unfold volumeStep at hstep
  obtain ⟨htouch, hcreated⟩ := createChain_spec h.sound (Fatfs.robust_of_good h.good) 0
  generalize createChain v.fs 0 = r at htouch hcreated hstep
  obtain ⟨fs, ncl⟩ := r
  obtain ⟨hempty, hstep⟩ := Option.ite_none_right_eq_some.mp hstep
  obtain rfl := Option.some.inj hstep
  dsimp only at htouch hcreated hsafe ⊢
  rw [htouch.geometry] at hsafe ⊢
  have hthree := h.sound.geometry.nFatent.1
  cases hcreated with
  | follows hc => exact absurd rfl hc
  | took hin hzero _ htable hfree =>
    rw [if_pos rfl] at htable
    rw [if_pos hin] at hsafe ⊢
    have hend := mask_end h.sound
    have hself : fs.table ncl ≠ 0 := by
      rw [htable, Function.update_self]
      omega
    have hother (d : Nat) (hd : d ≠ ncl) : fs.table d = v.fs.table d := by
      rw [htable, Function.update_of_ne hd]
    refine ⟨h.change htouch hsafe fun d hd => ?_, fun hexact => ?_⟩
    · by_cases hdn : d = ncl
      · exact .inl (List.mem_singleton.mpr hdn)
      · exact .inr ⟨by rwa [← hother d hdn], by rw [hempty]; exact List.not_mem_nil⟩
    · refine took_exact h.sound hexact htouch hin hzero hfree fun d => ?_
      by_cases hdn : d = ncl
      · subst hdn
        exact ⟨fun hd => absurd hd hself, fun hd => absurd rfl hd.2⟩
      · rw [hother d hdn, and_iff_left hdn]
  | full hfull htable hfree =>
    rw [if_neg (not_in_range h.sound (.inl rfl))]
    refine ⟨h.of_table htouch htable, fun hexact => ⟨fun _ heq => ?_, fun _ => exact_congr hexact htouch hfree htable⟩⟩
    exact hfull 2 (Nat.le_refl 2) (by omega) (all_free (heq ▸ hexact (Nat.le_of_eq heq)) ⟨Nat.le_refl 2, by omega⟩)
  | broken hbroken =>
    obtain ⟨hc, -⟩ | ⟨d, hd₂, hd, hone⟩ := hbroken
    · exact absurd rfl hc
    · exact absurd hone (h.ne_one ⟨hd₂, hd⟩)
  | faulty hbad => exact absurd hbad h.good

theorem Tidy.stretch (h : Tidy table kept v) (hstep : volumeStep v (.stretch i k) = some v') :
    Tidy table kept v' ∧ (v.fs.Exact → v'.fs.Exact) := by
  have hsafe := h.toSafe.stretch (Fatfs.robust_of_good h.good) hstep
  dsimp only [volumeStep] at hstep
  split at hstep
  · cases hstep
  rename_i clst hclst
  have hmem := List.mem_of_getElem? hclst
  have hused := (h.isChain i).used h.sound hmem
  have hrange := (h.isChain i).range clst hmem
  obtain ⟨htouch, hcreated⟩ := createChain_spec h.sound (Fatfs.robust_of_good h.good) clst
  generalize createChain v.fs clst = r at htouch hcreated hstep
  obtain ⟨fs, ncl⟩ := r
  obtain rfl := Option.some.inj hstep
  dsimp only at htouch hcreated hsafe ⊢
  rw [htouch.geometry] at hsafe ⊢
  have hpos : clst ≠ 0 := by omega
  have hmore := (h.isChain i).more_iff hclst
  have hlt := (List.getElem?_eq_some_iff.mp hclst).1
  cases hcreated with
  | follows _ hin htable hfree =>
    rw [if_neg fun hg => Nat.ne_of_lt (hmore.mp hin.2) hg.1]
    exact ⟨h.of_table htouch htable, fun hexact => exact_congr hexact htouch hfree htable⟩
  | took hin hzero hend htable hfree =>
    rw [if_neg hpos] at htable
    have hlen : k + 1 = (v.chains i).length := by
      have := mt hmore.mpr (Nat.not_lt.mpr (hend hpos).2.2)
      omega
    rw [if_pos ⟨hlen, hin⟩] at hsafe ⊢
    have hend := mask_end h.sound
    have hthree := h.sound.geometry.nFatent.1
    have hne : ncl ≠ clst := ne_of_apply_ne v.fs.table (by omega)
    have hlast : fs.table clst = ncl := by rw [htable, Function.update_self]
    have hself : fs.table ncl = v.fs.fsType.mask endOfChain := by
      rw [htable, Function.update_of_ne hne, Function.update_self]
    have hother (d : Nat) (hdc : d ≠ clst) (hdn : d ≠ ncl) : fs.table d = v.fs.table d := by
      rw [htable, Function.update_of_ne hdc, Function.update_of_ne hdn]
    refine ⟨h.change htouch hsafe fun d hd => ?_, fun hexact => ?_⟩
    · by_cases hdi : d ∈ v.chains i
      · exact .inl (List.mem_append_left _ hdi)
      by_cases hdn : d = ncl
      · exact .inl (by simp [hdn])
      · exact .inr ⟨by rwa [← hother d (ne_of_mem_of_not_mem hmem hdi).symm hdn], hdi⟩
    · have hsome : v.fs.freeClst ≠ v.fs.nFatent - 2 := fun heq => by
        have hall := all_free (heq ▸ hexact (Nat.le_of_eq heq)) hrange
        omega
      refine (took_exact h.sound hexact htouch hin hzero hfree fun d => ?_).mpr hsome
      by_cases hdn : d = ncl
      · subst hdn
        exact ⟨fun hd => by omega, fun hd => absurd rfl hd.2⟩
      · rw [and_iff_left hdn]
        by_cases hdc : d = clst
        · subst hdc
          omega
        · rw [hother d hdc hdn]
  | full hfull htable hfree =>
    rw [if_neg fun hg => not_in_range h.sound (.inl rfl) hg.2]
    exact ⟨h.of_table htouch htable, fun hexact => exact_congr hexact htouch hfree htable⟩
  | broken hbroken =>
    obtain ⟨-, hlow⟩ | ⟨d, hd₂, hd, hone⟩ := hbroken
    · omega
    · exact absurd hone (h.ne_one ⟨hd₂, hd⟩)
  | faulty hbad => exact absurd hbad h.good

theorem Tidy.drop (h : Tidy table kept v) (hstep : volumeStep v (.drop i) = some v') :
    Tidy table kept v' ∧ (v.fs.Exact → v'.fs.Exact) := by
  have hsafe := h.toSafe.drop (Fatfs.robust_of_good h.good) hstep
  dsimp only [volumeStep] at hstep
  split at hstep
  · cases hstep
  rename_i clst rest hchain
  have hl := h.isChain i
  rw [hchain] at hl
  obtain ⟨htouch, hexact, hremoved⟩ := removeChain_spec h.sound (Fatfs.robust_of_good h.good) hl
  obtain rfl := Option.some.inj hstep
  refine ⟨h.change htouch hsafe fun d hd => .inr ?_, hexact⟩
  generalize (removeChain v.fs clst 0).2 = res at hremoved
  cases hremoved with
  | ok htable =>
    rw [htable] at hd
    unfold giveBack at hd
    split at hd
    · exact absurd rfl hd
    · rename_i hout
      exact ⟨hd, by rwa [hchain]⟩
  | faulty hbad => exact absurd hbad h.good

theorem Tidy.cut (h : Tidy table kept v) (hstep : volumeStep v (.cut i k) = some v') :
    Tidy table kept v' ∧ (v.fs.Exact → v'.fs.Exact) := by
  have hsafe := h.toSafe.cut (Fatfs.robust_of_good h.good) hstep
  dsimp only [volumeStep] at hstep
  split at hstep
  · rename_i pclst clst hp hc
    have hchain := h.isChain i
    have hsplit := getElem?_split₂ hp hc
    have htake := take_split hp
    rw [hsplit] at hchain
    obtain ⟨htouch, hexact, hcut⟩ := removeChain_cut h.sound (Fatfs.robust_of_good h.good) hchain
    obtain rfl := Option.some.inj hstep
    refine ⟨?_, hexact⟩
    generalize (removeChain v.fs clst pclst).2 = res at hcut
    cases hcut with
    | ok htable =>
      have hnot : pclst ∉ clst :: (v.chains i).drop (k + 2) :=
        (List.nodup_cons.mp (List.nodup_append.mp hchain.nodup).2.1).1
      have hend : ¬ (removeChain v.fs clst pclst).1.table pclst < (removeChain v.fs clst pclst).1.nFatent := by
        rw [htable, giveBack_of_notMem hnot, Function.update_self, htouch.geometry]
        exact Nat.not_lt.mpr (mask_end h.sound)
      rw [if_neg hend] at hsafe ⊢
      refine h.change htouch hsafe fun d hd => ?_
      rw [htable] at hd
      unfold giveBack at hd
      split at hd
      · exact absurd rfl hd
      · rename_i hout
        by_cases hdl : d ∈ (v.chains i).take (k + 1)
        · exact .inl hdl
        · rw [htake] at hdl
          have hdp : d ≠ pclst := fun he => hdl (by simp [he])
          rw [Function.update_of_ne hdp] at hd
          refine .inr ⟨hd, fun hmem => ?_⟩
          rw [hsplit, List.append_cons] at hmem
          exact (List.mem_append.mp hmem).elim hdl hout
    | faulty hbad => exact absurd hbad h.good
    | none hbad => exact absurd hbad h.good
  · cases hstep

omit [DecidableEq ι] in
theorem windowStep_good {a : WindowCall} {fs' : Fatfs} (hs : Sound fs) (hput : a.isPut = false)
    (hfail : a.isFail = false) (hstep : windowStep fs a = some fs') :
    fs'.drive.bad = fs.drive.bad ∧ fs'.freeClst = fs.freeClst := by
  cases a with
  | put c v => cases hput
  | get c =>
    cases hstep
    obtain ⟨htouch, -, hfree, -⟩ := getFat_table hs c
    exact ⟨htouch.bad, hfree⟩
  | move s =>
    obtain ⟨⟨hlt, hcopy⟩, rfl⟩ := Option.ite_none_right_eq_some.mp hstep |>.imp_right Option.some.inj
    obtain ⟨hmoves, -⟩ := moveWindow_spec hs hlt hcopy
    exact ⟨hmoves.bad, hmoves.freeClst⟩
  | write win =>
    obtain ⟨-, rfl⟩ := Option.ite_none_right_eq_some.mp hstep |>.imp_right Option.some.inj
    exact ⟨rfl, rfl⟩
  | sync =>
    cases hstep
    obtain ⟨-, hmoves, -⟩ | ⟨heq, -⟩ := syncWindow_spec hs
    · exact ⟨hmoves.bad, hmoves.freeClst⟩
    · rw [heq]
      exact ⟨rfl, rfl⟩
  | fail bad => cases hfail

theorem Tidy.window {a : WindowCall} (h : Tidy table kept v) (hfail : a.isFail = false)
    (hstep : volumeStep v (.window a) = some v') : Tidy table kept v' ∧ (v.fs.Exact → v'.fs.Exact) := by
  obtain ⟨hput, hstep⟩ := Option.ite_none_left_eq_some.mp hstep
  obtain ⟨fs, hfs, rfl⟩ := Option.map_eq_some_iff.mp hstep
  have hsame := windowStep_same h.sound hfs fun c v hc => hput (hc ▸ rfl)
  obtain ⟨hbad, hfree⟩ := windowStep_good h.sound (Bool.eq_false_iff.mpr hput) hfail hfs
  have hlow := h.sound.geometry.nFatent.1
  refine ⟨h.congr hsame.sound hsame.geometry hsame.table hbad fun c hc => hsame.entry c (by omega), fun hexact => ?_⟩
  unfold Fatfs.Exact Fatfs.Free
  rw [hfree, hsame.table, hsame.geometry]
  exact hexact

theorem Tidy.step (h : Tidy table kept v) (hstep : (tidySystem ι table kept).step v a = some v') :
    Tidy table kept v' ∧
      (v.fs.Exact → (v'.fs.Exact ↔ ∀ i, a = .create i → v.fs.freeClst ≠ v.fs.nFatent - 2)) := by
  have halways {P : Prop} (hP : v.fs.Exact → P) (ha : ∀ i, a ≠ .create i) :
      v.fs.Exact → (P ↔ ∀ i, a = .create i → v.fs.freeClst ≠ v.fs.nFatent - 2) :=
    fun hexact => ⟨fun _ i hi => absurd hi (ha i), fun _ => hP hexact⟩
  cases a with
  | create i =>
    obtain ⟨htidy, hcount⟩ := h.create hstep
    exact ⟨htidy, fun hexact => (hcount hexact).trans ⟨fun hne j _ => hne, fun hall => hall i rfl⟩⟩
  | stretch i k => exact (h.stretch hstep).imp_right fun hcount => halways hcount nofun
  | drop i => exact (h.drop hstep).imp_right fun hcount => halways hcount nofun
  | cut i k => exact (h.cut hstep).imp_right fun hcount => halways hcount nofun
  | getfree =>
    obtain rfl := Option.some.inj hstep
    obtain ⟨htouch, htab, hres⟩ := getfree_spec h.sound
    refine ⟨h.of_table htouch htab, halways (fun hexact => ?_) nofun⟩
    obtain ⟨-, hcount, hfree⟩ | ⟨-, hbad⟩ | ⟨-, d, hd₂, hd, hone⟩ := hres
    · intro _
      rw [hfree]
      refine (hcount h.head hexact).congr fun d => ?_
      unfold Fatfs.Free
      rw [htouch.geometry, htab]
    · exact absurd hbad h.good
    · exact absurd hone (h.ne_one ⟨hd₂, hd⟩)
  | window a =>
    obtain ⟨hfail, hstep⟩ := Option.ite_none_left_eq_some.mp hstep
    exact (h.window (Bool.eq_false_iff.mpr hfail) hstep).imp_right fun hcount => halways hcount nofun

variable {h : History (Volume ι) (VolumeCall ι)}

theorem tidySystem_tidy (hrun : (tidySystem ι table kept).Run h v) : Tidy table kept v :=
  hrun.always (I := fun _ v => Tidy table kept v) (fun _ hv => hv) fun _ _ _ _ _ hv hstep => (hv.step hstep).1

theorem healthySystem_tidy (hrun : (healthySystem ι table kept).Run h v) : Tidy table kept v :=
  tidySystem_tidy (hrun.mono (fun v (hv : (healthySystem ι table kept).init v) => hv.1) rfl)

/-- No cluster leaks as long as the drive does not fail: `create_chain` tells that the volume is full exactly if every
cluster is in a chain or kept, and otherwise takes one that is neither. -/
theorem no_leak (hrun : (tidySystem ι table kept).Run h v) :
    ((createChain v.fs 0).2 = 0 ↔ ∀ c, 2 ≤ c → c < v.fs.nFatent → kept c ∨ ∃ i, c ∈ v.chains i) ∧
      ((createChain v.fs 0).2 ≠ 0 → 2 ≤ (createChain v.fs 0).2 ∧ (createChain v.fs 0).2 < v.fs.nFatent ∧
        ¬ kept (createChain v.fs 0).2 ∧ ∀ i, (createChain v.fs 0).2 ∉ v.chains i) := by
  have htidy := tidySystem_tidy hrun
  obtain ⟨-, hcreated⟩ := createChain_spec htidy.sound (Fatfs.robust_of_good htidy.good) 0
  generalize createChain v.fs 0 = r at hcreated
  obtain ⟨fs, ncl⟩ := r
  cases hcreated with
  | follows hc => exact absurd rfl hc
  | took hin hzero =>
    have hkept : ¬ kept ncl := fun hk => (htidy.apart ncl hk).2.1.2.2 hzero
    have hchain (i : ι) : ncl ∉ v.chains i := fun hi => (htidy.family.used i ncl hi).2.2 hzero
    refine ⟨⟨fun he => by omega, fun hall => ?_⟩, fun _ => ⟨hin.1, hin.2, hkept, hchain⟩⟩
    obtain hk | ⟨i, hi⟩ := hall ncl hin.1 hin.2
    · exact absurd hk hkept
    · exact absurd hi (hchain i)
  | full hfull =>
    exact ⟨⟨fun _ c hc₂ hc => htidy.whole c ⟨hc₂, hc, hfull c hc₂ hc⟩, fun _ => rfl⟩, fun hne => absurd rfl hne⟩
  | broken hbroken =>
    obtain ⟨hc, -⟩ | ⟨d, hd₂, hd, hone⟩ := hbroken
    · exact absurd rfl hc
    · exact absurd hone (htidy.ne_one ⟨hd₂, hd⟩)
  | faulty hbad => exact absurd hbad htidy.good

theorem emptyVolume_free (c : Nat) (hc : 2 ≤ c ∧ c < 4) : emptyVolume.table c = 0 := by
  obtain rfl | rfl : c = 2 ∨ c = 3 := by omega
  · rfl
  · rfl

theorem emptyFiles_init : (healthySystem Unit (fun _ => 0) fun _ => False).init emptyFiles := by
  refine ⟨⟨emptyFiles_safe, fun ⟨_, hbad⟩ => Bool.false_ne_true hbad, ⟨by decide +kernel, by decide +kernel⟩,
    fun c hc => ?_, nofun⟩, fun hle => absurd hle (by decide)⟩
  exact absurd (emptyVolume_free c ⟨hc.1, hc.2.1⟩) hc.2.2

/-- There is room on the small volume, but not for ever. -/
theorem no_leak_small :
    ((createChain emptyVolume 0).2 = 0 ↔ ∀ c, 2 ≤ c → c < 4 → False ∨ ∃ _ : Unit, c ∈ []) ∧
      ((createChain emptyVolume 0).2 ≠ 0 → 2 ≤ (createChain emptyVolume 0).2 ∧ (createChain emptyVolume 0).2 < 4 ∧
        ¬ False ∧ ∀ _ : Unit, (createChain emptyVolume 0).2 ∉ []) := by
  have hrun : (tidySystem Unit (fun _ => 0) fun _ => False).Run [] emptyFiles := .init emptyFiles_init.1
  exact no_leak hrun

/-- `f_getfree` would tell the number of free clusters. -/
def CountsRight (v : Volume ι) : Prop := (getfree v.fs).2.1 = .ok ∧ Counts v.fs.Free (getfree v.fs).2.2

omit [DecidableEq ι] in
theorem Tidy.countsRight (h : Tidy table kept v) : CountsRight v ↔ v.fs.Exact := by
  obtain ⟨-, -, hres⟩ := getfree_spec h.sound
  constructor
  · rintro ⟨-, hcount⟩ hknown
    rwa [getfree, if_pos hknown] at hcount
  · intro hexact
    obtain ⟨hok, hcount, -⟩ | ⟨-, hbad⟩ | ⟨-, d, hd₂, hd, hone⟩ := hres
    · exact ⟨hok, hcount h.head hexact⟩
    · exact absurd hbad h.good
    · exact absurd hone (h.ne_one ⟨hd₂, hd⟩)

/-- `f_getfree` is right in every state of a run exactly if no chain is begun while the count says that all clusters
are free: the code does not count that one down. -/
theorem getfree_right_iff (hrun : (healthySystem ι table kept).Run h v) :
    (Throughout (fun _ v _ => CountsRight v) h ∧ CountsRight v) ↔
      Throughout (fun _ v a => ∀ i, a = .create i → v.fs.freeClst ≠ v.fs.nFatent - 2) h := by
  refine hrun.throughout_iff (fun v hv => ?_) fun h v a v' hrun hright hstep => ?_
  · obtain ⟨htidy, hexact⟩ : Tidy table kept v ∧ v.fs.Exact := hv
    exact htidy.countsRight.mpr hexact
  · have htidy := healthySystem_tidy hrun
    obtain ⟨htidy', hcount⟩ := htidy.step hstep
    rw [htidy'.countsRight]
    exact hcount (htidy.countsRight.mp hright)

/-- The clusters of the empty volume are counted, and a chain is begun. -/
theorem getfree_wrong_small :
    ¬ (Throughout (fun _ v _ => CountsRight v)
        [((⟨(getfree emptyVolume).1, fun _ => []⟩ : Volume Unit), .create ()), (emptyFiles, VolumeCall.getfree)] ∧
      CountsRight (⟨(createChain (getfree emptyVolume).1 0).1, fun _ => [2]⟩ : Volume Unit)) := by
  have hrun : (healthySystem Unit (fun _ => 0) fun _ => False).Run
      [(⟨(getfree emptyVolume).1, fun _ => []⟩, .create ()), (emptyFiles, .getfree)]
      ⟨(createChain (getfree emptyVolume).1 0).1, fun _ => [2]⟩ :=
    .step (.step (.init emptyFiles_init) rfl) rfl
  exact fun hright => ((getfree_right_iff hrun).mp hright).1 () rfl rfl

end healthy

end ThyristorController.Fat
