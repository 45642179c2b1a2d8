import Mathlib.Algebra.Group.Nat.Defs
import ThyristorController.Lib.Bytes
import ThyristorController.Lib.Packed12
import ThyristorController.Lib.Run

/-!
# The allocation table of a FAT volume (`components/dfs/filesystems/elmfat/ff.c`)

`get_fat` and `put_fat` work on the sector in the window `win`, which `move_window` exchanges and `sync_window` writes
back, to every copy of the table. The drive may fail to read or write any sector at any time.

`view` is what a sector holds, in the window or on the drive. Moving the window changes no view, whether the drive
fails or not, and so the table is read off the views (`entry`). `table_run` is the result for every run: the table
holds the last values that were put.
-/

namespace ThyristorController.Fat

open Bytes Transition

/-! ## The volume -/

/-- The results of the functions below. -/
inductive FResult where
  | ok | diskErr | intErr | denied
deriving DecidableEq

/-- `fs_type`. -/
inductive FsType where
  | fat12 | fat16 | fat32
deriving DecidableEq

/-- The sectors of the drive, and which of them it cannot read or write at the moment. -/
structure Drive where
  sector : Nat → Nat → UInt8
  bad : Nat → Bool

/-- `disk_write` of one sector that is not bad. -/
def Drive.write (d : Drive) (s : Nat) (b : Nat → UInt8) : Drive := { d with sector := Function.update d.sector s b }

/-- The part of `FATFS` that the mount fills in once. -/
structure Geometry where
  fsType : FsType
  ssize : Nat
  csize : Nat
  nFats : Nat
  nFatent : Nat
  fsize : Nat
  volbase : Nat
  fatbase : Nat
  database : Nat
deriving DecidableEq

/-- `FATFS`, with the drive. -/
structure Fatfs extends Geometry where
  drive : Drive
  winsect : Nat
  wflag : Bool
  win : Memory
  lastClst : Nat
  freeClst : Nat
  fsiFlag : UInt8

/-- The invalid sector number, and the result of `get_fat` on a disk error. -/
def noSector : Nat := 0xffffffff

/-- "Reflect the change to all FAT copies": so many of them, each `fsize` behind the one before. -/
def reflect (fsize : Nat) (win : Memory) : Nat → Nat → Drive → Drive
  | 0, _, d => d
  | n + 1, wsect, d =>
    let wsect := wsect + fsize
    reflect fsize win n wsect (if d.bad wsect then d else d.write wsect win)

/-- The drive after the window was written to it. -/
def Fatfs.writeBack (fs : Fatfs) : Drive :=
  let drive := fs.drive.write fs.winsect fs.win
  -- the difference is unsigned
  if fs.fatbase ≤ fs.winsect ∧ fs.winsect - fs.fatbase < fs.fsize then
    reflect fs.fsize fs.win (fs.nFats - 1) fs.winsect drive
  else drive

def syncWindow (fs : Fatfs) : Fatfs × FResult :=
  if fs.wflag then
    if fs.drive.bad fs.winsect then (fs, .diskErr) else ({ fs with drive := fs.writeBack, wflag := false }, .ok)
  else (fs, .ok)

def moveWindow (fs : Fatfs) (sector : Nat) : Fatfs × FResult :=
  if sector ≠ fs.winsect then
    let (fs, res) := syncWindow fs
    if res = .ok then
      if fs.drive.bad sector then ({ fs with winsect := noSector }, .diskErr)
      else ({ fs with win := fs.drive.sector sector, winsect := sector }, .ok)
    else (fs, res)
  else (fs, .ok)

def ldWord (m : Memory) (a : Nat) : Nat := load m a 2

def ldDword (m : Memory) (a : Nat) : Nat := load m a 4

def stWord (m : Memory) (a v : Nat) : Memory := store m a 2 v

def stDword (m : Memory) (a v : Nat) : Memory := store m a 4 v

def getFat (fs : Fatfs) (clst : Nat) : Fatfs × Nat :=
  if clst < 2 ∨ fs.nFatent ≤ clst then (fs, 1)
  else
    match fs.fsType with
    | .fat12 =>
      let bc := clst + clst / 2
      let (fs, res) := moveWindow fs (fs.fatbase + bc / fs.ssize)
      if res ≠ .ok then (fs, noSector)
      else
        let wc := fs.win (bc % fs.ssize)
        let bc := bc + 1
        let (fs, res) := moveWindow fs (fs.fatbase + bc / fs.ssize)
        if res ≠ .ok then (fs, noSector) else (fs, Packed12.get (clst % 2 = 1) wc (fs.win (bc % fs.ssize)))
    | .fat16 =>
      let (fs, res) := moveWindow fs (fs.fatbase + clst / (fs.ssize / 2))
      if res ≠ .ok then (fs, noSector) else (fs, ldWord fs.win (clst * 2 % fs.ssize))
    | .fat32 =>
      let (fs, res) := moveWindow fs (fs.fatbase + clst / (fs.ssize / 4))
      if res ≠ .ok then (fs, noSector) else (fs, ldDword fs.win (clst * 4 % fs.ssize) &&& 0x0fffffff)

/-- Write to the window, and mark it. -/
def Fatfs.edit (fs : Fatfs) (win : Memory) : Fatfs := { fs with win := win, wflag := true }

def putFat (fs : Fatfs) (clst val : Nat) : Fatfs × FResult :=
  if 2 ≤ clst ∧ clst < fs.nFatent then
    match fs.fsType with
    | .fat12 =>
      let bc := clst + clst / 2
      let (fs, res) := moveWindow fs (fs.fatbase + bc / fs.ssize)
      if res ≠ .ok then (fs, res)
      else
        let p := bc % fs.ssize
        let fs := fs.edit (Function.update fs.win p (Packed12.putLo (clst % 2 = 1) (fs.win p) val))
        let bc := bc + 1
        let (fs, res) := moveWindow fs (fs.fatbase + bc / fs.ssize)
        if res ≠ .ok then (fs, res)
        else
          let p := bc % fs.ssize
          (fs.edit (Function.update fs.win p (Packed12.putHi (clst % 2 = 1) (fs.win p) val)), .ok)
    | .fat16 =>
      let (fs, res) := moveWindow fs (fs.fatbase + clst / (fs.ssize / 2))
      if res ≠ .ok then (fs, res) else (fs.edit (stWord fs.win (clst * 2 % fs.ssize) val), .ok)
    | .fat32 =>
      let (fs, res) := moveWindow fs (fs.fatbase + clst / (fs.ssize / 4))
      if res ≠ .ok then (fs, res)
      else
        let p := clst * 4 % fs.ssize
        let val := (val &&& 0x0fffffff) ||| (ldDword fs.win p &&& 0xf0000000)
        (fs.edit (stDword fs.win p val), .ok)
  else (fs, .intErr)

/-! ## What a sector holds -/

/-- The sector is in the first copy of the table. -/
def Geometry.Table (g : Geometry) (s : Nat) : Prop := g.fatbase ≤ s ∧ s < g.fatbase + g.fsize

/-- The sector is in a later copy of the table. -/
def Geometry.Copy (g : Geometry) (s : Nat) : Prop := g.fatbase + g.fsize ≤ s ∧ s < g.fatbase + g.nFats * g.fsize

/-- The bytes of the table. -/
def FsType.bytes (t : FsType) (n : Nat) : Nat :=
  match t with
  | .fat12 => n + n / 2 + n % 2
  | .fat16 => 2 * n
  | .fat32 => 4 * n

/-- A byte of the entry: the first one, or the second one of a FAT12 entry, which may lie in the next sector. -/
def FsType.top (t : FsType) (c : Nat) : Nat :=
  match t with
  | .fat12 => c + c / 2 + 1
  | .fat16 => 2 * c
  | .fat32 => 4 * c

/-- The number of entries by which the mount tells the types apart. -/
def FsType.maxFatent (t : FsType) : Nat :=
  match t with
  | .fat12 => 0xff7
  | .fat16 => 0xfff7
  | .fat32 => 0xffffff7

/-- What the mount checks: a sector is 512, 1024, 2048 or 4096 bytes long, a cluster has a power of two of them, a copy
of the table has room for its entries, and its type allows for so many. -/
structure Geometry.Ok (g : Geometry) : Prop where
  ssize : 4 ∣ g.ssize ∧ 512 ≤ g.ssize
  csize : ∃ k, g.csize = 2 ^ k
  nFats : 1 ≤ g.nFats
  fsize : g.fsType.bytes g.nFatent ≤ g.fsize * g.ssize
  nFatent : 3 ≤ g.nFatent ∧ g.nFatent ≤ g.fsType.maxFatent
  database : g.fatbase + g.nFats * g.fsize ≤ g.database
  volume : g.database + (g.nFatent - 2) * g.csize < noSector

theorem Geometry.Ok.noSector_not_copy {g : Geometry} (hg : g.Ok) : ¬ g.Copy noSector := by
  intro h
  have hend := hg.database
  have hvol := hg.volume
  have hcopy := h.2
  omega

/-- What a sector holds: the window, or what is on the drive. -/
def Fatfs.view (fs : Fatfs) (s : Nat) : Memory := if s = fs.winsect then fs.win else fs.drive.sector s

/-- A clean window has what is on the drive; a dirty one is no copy of the table, and is valid. -/
structure Sound (fs : Fatfs) : Prop where
  geometry : fs.toGeometry.Ok
  clean : fs.wflag = false → fs.winsect < noSector → fs.win = fs.drive.sector fs.winsect
  dirty : fs.wflag = true → fs.winsect < noSector
  apart : ¬ fs.Copy fs.winsect

/-- No copy of the table is on a bad sector. -/
def CopiesGood (fs : Fatfs) : Prop := ∀ s, fs.Copy s → fs.drive.bad s = false

/-- All copies on the drive are the same. -/
def Mirrored (fs : Fatfs) : Prop :=
  ∀ s, fs.Table s → ∀ k < fs.nFats, fs.drive.sector (s + k * fs.fsize) = fs.drive.sector s

/-- A move of the window, which may fail, changes no view. -/
structure Moves (fs fs' : Fatfs) : Prop where
  geometry : fs'.toGeometry = fs.toGeometry
  lastClst : fs'.lastClst = fs.lastClst
  freeClst : fs'.freeClst = fs.freeClst
  fsiFlag : fs'.fsiFlag = fs.fsiFlag
  bad : fs'.drive.bad = fs.drive.bad
  mirrored : CopiesGood fs → Mirrored fs → Mirrored fs'
  view : ∀ s < noSector, ¬ fs.Copy s → fs'.view s = fs.view s

section views

variable {fs fs' fs'' : Fatfs} {g : Geometry} {s k : Nat} {d : Drive} {b : Memory}

theorem Moves.refl (fs : Fatfs) : Moves fs fs := ⟨rfl, rfl, rfl, rfl, rfl, fun _ hm => hm, fun _ _ _ => rfl⟩

theorem Moves.copiesGood (h : Moves fs fs') (hgood : CopiesGood fs) : CopiesGood fs' := by
  intro s hs
  rw [h.bad]
  exact hgood s (by rwa [h.geometry] at hs)

theorem Moves.trans (h : Moves fs fs') (h' : Moves fs' fs'') : Moves fs fs'' where
  geometry := h'.geometry.trans h.geometry
  lastClst := h'.lastClst.trans h.lastClst
  freeClst := h'.freeClst.trans h.freeClst
  fsiFlag := h'.fsiFlag.trans h.fsiFlag
  bad := h'.bad.trans h.bad
  mirrored hgood hm := h'.mirrored (h.copiesGood hgood) (h.mirrored hgood hm)
  view s hs hc := (h'.view s hs (by rwa [h.geometry])).trans (h.view s hs hc)

theorem Moves.copy (h : Moves fs fs') : fs'.Copy s ↔ fs.Copy s := by rw [h.geometry]

theorem view_winsect (fs : Fatfs) : fs.view fs.winsect = fs.win := if_pos rfl

theorem view_of_ne (h : s ≠ fs.winsect) : fs.view s = fs.drive.sector s := if_neg h

theorem write_self (d : Drive) (s : Nat) (b : Memory) : (d.write s b).sector s = b := Function.update_self ..

theorem write_of_ne {s' : Nat} (h : s' ≠ s) : (d.write s b).sector s' = d.sector s' := Function.update_of_ne h ..

theorem reflect_bad {fsize n wsect : Nat} : (reflect fsize b n wsect d).bad = d.bad := by
  induction n generalizing wsect d with
  | zero => rfl
  | succ n ih =>
    rw [reflect, ih]
    split <;> rfl

theorem reflect_sector {fsize n wsect : Nat} (h : ∀ k, 1 ≤ k → k ≤ n → s ≠ wsect + k * fsize) :
    (reflect fsize b n wsect d).sector s = d.sector s := by
  induction n generalizing wsect d with
  | zero => rfl
  | succ n ih =>
    have hfirst : s ≠ wsect + fsize := by
      have := h 1 (Nat.le_refl 1) (by omega)
      rwa [Nat.one_mul] at this
    rw [reflect, ih]
    · split
      · rfl
      · exact write_of_ne hfirst
    · intro k hk hkn
      have := h (k + 1) (by omega) (by omega)
      rw [Nat.succ_mul] at this
      omega

/-- A sector of the table is not reflected to itself, nor to any sector outside of the copies. -/
theorem reflect_ne {g : Geometry} {wsect k : Nat} (ht : g.Table wsect) (hk : 1 ≤ k) (hkn : k ≤ g.nFats - 1)
    (hs : ¬ g.Copy s) : s ≠ wsect + k * g.fsize := by
  rintro rfl
  refine hs ⟨?_, ?_⟩
  · have := Nat.mul_le_mul_right g.fsize hk
    have := ht.1
    omega
  · have := Nat.mul_le_mul_right g.fsize (show k + 1 ≤ g.nFats by omega)
    rw [Nat.succ_mul] at this
    have := ht.2
    omega

theorem table_iff {g : Geometry} : g.fatbase ≤ s ∧ s - g.fatbase < g.fsize ↔ g.Table s := by
  unfold Geometry.Table
  omega

theorem writeBack_bad : fs.writeBack.bad = fs.drive.bad := by
  unfold Fatfs.writeBack
  dsimp only
  split
  · exact reflect_bad
  · rfl

theorem writeBack_sector (hc : ¬ fs.Copy s) :
    fs.writeBack.sector s = (fs.drive.write fs.winsect fs.win).sector s := by
  unfold Fatfs.writeBack
  dsimp only
  split
  · rename_i ht
    exact reflect_sector fun k hk hkn => reflect_ne (table_iff.mp ht) hk hkn hc
  · rfl

theorem reflect_copy {fsize n wsect : Nat} (hpos : 0 < fsize) (hk : 1 ≤ k) (hkn : k ≤ n)
    (hgood : ∀ k, 1 ≤ k → k ≤ n → d.bad (wsect + k * fsize) = false) :
    (reflect fsize b n wsect d).sector (wsect + k * fsize) = b := by
  induction n generalizing wsect d k with
  | zero => omega
  | succ n ih =>
    have hfirst : d.bad (wsect + fsize) = false := by
      have := hgood 1 (Nat.le_refl 1) (by omega)
      rwa [Nat.one_mul] at this
    have hnext : ∀ k, wsect + (k + 1) * fsize = wsect + fsize + k * fsize := fun k => by
      rw [Nat.succ_mul]
      omega
    rw [reflect, hfirst, if_neg Bool.false_ne_true]
    cases k with
    | zero => omega
    | succ k =>
      rw [hnext]
      by_cases hzero : k = 0
      · subst hzero
        rw [reflect_sector fun j hj _ => ?_, Nat.zero_mul]
        · exact write_self _ _ _
        · have := Nat.mul_pos hj hpos
          omega
      · exact ih (by omega) (by omega) fun j hj hjn => by
          rw [← hnext]
          exact hgood (j + 1) (by omega) (by omega)

theorem Geometry.Ok.not_copy (hg : g.Ok) (ht : g.Table s) : s < noSector ∧ ¬ g.Copy s ∧ s < g.database := by
  have hfats := Nat.mul_le_mul_right g.fsize hg.nFats
  have hend := hg.database
  have hvol := hg.volume
  have htop := ht.2
  refine ⟨by omega, fun h => ?_, by omega⟩
  have := h.1
  omega

theorem copy_ne {t j : Nat} (hs : g.Table s) (ht : g.Table t) (hne : s ≠ t) : s + k * g.fsize ≠ t + j * g.fsize := by
  intro he
  obtain ⟨hs, hs'⟩ := hs
  obtain ⟨ht, ht'⟩ := ht
  rcases Nat.lt_trichotomy k j with hkj | rfl | hkj
  · have := Nat.mul_le_mul_right g.fsize (Nat.succ_le_of_lt hkj)
    rw [Nat.succ_mul] at this
    omega
  · omega
  · have := Nat.mul_le_mul_right g.fsize (Nat.succ_le_of_lt hkj)
    rw [Nat.succ_mul] at this
    omega

theorem copy_mem (hs : g.Table s) (hk : 1 ≤ k) (hkn : k < g.nFats) : g.Copy (s + k * g.fsize) := by
  have hlo := Nat.mul_le_mul_right g.fsize hk
  have hhi := Nat.mul_le_mul_right g.fsize (Nat.succ_le_of_lt hkn)
  rw [Nat.succ_mul] at hhi
  obtain ⟨hs, hs'⟩ := hs
  constructor <;> omega

/-- A write of the window keeps the copies the same: it is no copy itself, and if it is in the table, then it is
written to all of them. -/
theorem writeBack_mirrored (hs : Sound fs) (hgood : CopiesGood fs) (hm : Mirrored fs) :
    Mirrored { fs with drive := fs.writeBack, wflag := false } := by
  show ∀ s, fs.Table s → ∀ k < fs.nFats, fs.writeBack.sector (s + k * fs.fsize) = fs.writeBack.sector s
  intro s ht k hk
  rcases Nat.eq_zero_or_pos k with rfl | hpos
  · rw [Nat.zero_mul, Nat.add_zero]
  have hcopy := copy_mem ht hpos hk
  have hsize : 0 < fs.fsize := by
    have := ht.1
    have := ht.2
    omega
  rw [writeBack_sector (hs.geometry.not_copy ht).2.1]
  unfold Fatfs.writeBack
  dsimp only
  by_cases hw : fs.Table fs.winsect
  · rw [if_pos (table_iff.mpr hw)]
    by_cases hsw : s = fs.winsect
    · subst hsw
      have hall : ∀ j, 1 ≤ j → j ≤ fs.nFats - 1 →
          (fs.drive.write fs.winsect fs.win).bad (fs.winsect + j * fs.fsize) = false :=
        fun j hj hjn => hgood _ (copy_mem ht hj (by omega))
      rw [reflect_copy hsize hpos (by omega) hall, write_self]
    · have hne : ∀ j, s + k * fs.fsize ≠ fs.winsect + j * fs.fsize := fun j => copy_ne ht hw hsw
      have hne' := hne 0
      rw [Nat.zero_mul, Nat.add_zero] at hne'
      rw [reflect_sector fun j _ _ => hne j, write_of_ne hne', write_of_ne hsw]
      exact hm s ht k hk
  · have hsw : s ≠ fs.winsect := fun he => hw (he ▸ ht)
    have hne : s + k * fs.fsize ≠ fs.winsect := fun he => hs.apart (he ▸ hcopy)
    rw [if_neg (mt table_iff.mp hw), write_of_ne hne, write_of_ne hsw]
    exact hm s ht k hk

theorem syncWindow_spec (hs : Sound fs) :
    ((syncWindow fs).2 = .ok ∧ Moves fs (syncWindow fs).1 ∧ Sound (syncWindow fs).1 ∧
      (syncWindow fs).1.wflag = false ∧ (syncWindow fs).1.winsect = fs.winsect ∧ (syncWindow fs).1.win = fs.win) ∨
    (syncWindow fs = (fs, .diskErr) ∧ fs.drive.bad fs.winsect = true) := by
  unfold syncWindow
  by_cases hflag : fs.wflag = true
  · rw [if_pos hflag]
    by_cases hbad : fs.drive.bad fs.winsect = true
    · rw [if_pos hbad]
      exact .inr ⟨rfl, hbad⟩
    rw [if_neg hbad]
    refine .inl ⟨rfl, ⟨rfl, rfl, rfl, rfl, writeBack_bad, writeBack_mirrored hs, fun s hlt hc => ?_⟩,
      ⟨hs.geometry, fun _ _ => ?_, nofun, hs.apart⟩, rfl, rfl, rfl⟩
    · by_cases hw : s = fs.winsect
      · subst hw
        exact (if_pos rfl).trans (view_winsect fs).symm
      · rw [view_of_ne hw]
        exact (if_neg hw).trans ((writeBack_sector hc).trans (write_of_ne hw))
    · exact ((writeBack_sector hs.apart).trans (write_self _ _ _)).symm
  · rw [if_neg hflag]
    exact .inl ⟨rfl, .refl fs, hs, Bool.eq_false_iff.mpr hflag, rfl, rfl⟩

/-- The window moves to a sector, or the drive fails and nothing is lost. -/
theorem moveWindow_spec (hs : Sound fs) (hlt : s < noSector) (hc : ¬ fs.Copy s) :
    Moves fs (moveWindow fs s).1 ∧ Sound (moveWindow fs s).1 ∧
      ((moveWindow fs s).2 = .ok ∧ (moveWindow fs s).1.winsect = s ∧ (moveWindow fs s).1.win = fs.view s ∨
        (moveWindow fs s).2 = .diskErr ∧
          (fs.drive.bad fs.winsect = true ∧ (moveWindow fs s).1.winsect = fs.winsect ∨
            fs.drive.bad s = true ∧ (moveWindow fs s).1.winsect = noSector)) := by
  unfold moveWindow
  by_cases hw : s = fs.winsect
  · rw [if_neg (not_not.mpr hw)]
    refine ⟨.refl fs, hs, .inl ⟨rfl, hw.symm, ?_⟩⟩
    rw [hw]
    exact (view_winsect fs).symm
  rw [if_pos hw]
  dsimp only
  obtain ⟨hok, hmoves, hsound, hclean, hsect, hwin⟩ | ⟨hfail, hbad⟩ := syncWindow_spec hs
  · rw [if_pos hok]
    generalize (syncWindow fs).1 = fs₁ at hmoves hsound hclean hsect hwin
    have hview : fs₁.drive.sector s = fs.view s := by
      rw [← hmoves.view s hlt hc, view_of_ne (by rwa [hsect])]
    -- what the window held before is on the drive
    have hold {t : Nat} (ht : t = fs₁.winsect) (htlt : t < noSector) : fs₁.drive.sector t = fs₁.view t := by
      subst ht
      rw [view_winsect]
      exact (hsound.clean hclean htlt).symm
    split
    · rename_i hbad
      refine ⟨hmoves.trans ⟨rfl, rfl, rfl, rfl, rfl, fun _ hm => hm, fun t ht hct => ?_⟩, ?_,
        .inr ⟨rfl, .inr ⟨?_, rfl⟩⟩⟩
      · have hne : t ≠ noSector := Nat.ne_of_lt ht
        refine (if_neg hne).trans ?_
        by_cases hts : t = fs₁.winsect
        · exact hold hts ht
        · exact (view_of_ne hts).symm
      · refine ⟨hsound.geometry, fun _ h => absurd h (Nat.lt_irrefl _), fun h => ?_, hsound.geometry.noSector_not_copy⟩
        rw [hclean] at h
        contradiction
      · rw [← hmoves.bad]
        exact hbad
    · refine ⟨hmoves.trans ⟨rfl, rfl, rfl, rfl, rfl, fun _ hm => hm, fun t ht hct => ?_⟩, ?_, .inl ⟨rfl, rfl, hview⟩⟩
      · by_cases hts : t = s
        · subst hts
          rw [hmoves.view t ht (mt hmoves.copy.mpr hct), ← hview]
          exact if_pos rfl
        · refine (if_neg hts).trans ?_
          by_cases hts' : t = fs₁.winsect
          · exact hold hts' ht
          · exact (view_of_ne hts').symm
      · refine ⟨hsound.geometry, fun _ _ => rfl, fun h => ?_, mt hmoves.copy.mp hc⟩
        rw [hclean] at h
        contradiction
  · have hne : ¬ FResult.diskErr = .ok := nofun
    rw [hfail, if_neg hne]
    exact ⟨.refl fs, hs, .inr ⟨rfl, .inl ⟨hbad, rfl⟩⟩⟩

end views

/-! ## The entries -/

/-- The bytes of the table, in the window or on the drive. -/
def Fatfs.area (fs : Fatfs) : Memory := fun a => fs.view (fs.fatbase + a / fs.ssize) (a % fs.ssize)

/-- The entry of a cluster in a table. -/
def FsType.entry (t : FsType) (m : Memory) (c : Nat) : Nat :=
  match t with
  | .fat12 => Packed12.get (c % 2 = 1) (m (c + c / 2)) (m (c + c / 2 + 1))
  | .fat16 => load m (2 * c) 2
  | .fat32 => load m (4 * c) 4 &&& 0x0fffffff

/-- What an entry keeps of a value. -/
def FsType.mask (t : FsType) (v : Nat) : Nat :=
  match t with
  | .fat12 => v % 0x1000
  | .fat16 => v % 0x10000
  | .fat32 => v &&& 0x0fffffff

/-- The entry of a cluster. -/
def Fatfs.entry (fs : Fatfs) (c : Nat) : Nat := fs.fsType.entry fs.area c

section entries

variable {fs fs' : Fatfs} {t : FsType} {m m' : Memory} {a c n v : Nat}

theorem entry_congr (hc : c < n) (hm : ∀ a < t.bytes n, m' a = m a) : t.entry m' c = t.entry m c := by
  cases t with
  | fat12 =>
    have hend : c + c / 2 + 1 < n + n / 2 + n % 2 := by omega
    rw [FsType.entry, FsType.entry, hm _ (show c + c / 2 < n + n / 2 + n % 2 by omega), hm _ hend]
  | fat16 => exact load_congr fun x _ hx => hm x (show x < 2 * n by omega)
  | fat32 =>
    have hload : load m' (4 * c) 4 = load m (4 * c) 4 := load_congr fun x _ hx => hm x (show x < 4 * n by omega)
    rw [FsType.entry, FsType.entry, hload]

section sectors

variable (hg : fs.toGeometry.Ok) (ha : a < fs.fsize * fs.ssize)

include ha in
theorem sector_table : fs.Table (fs.fatbase + a / fs.ssize) := by
  have hdiv : a / fs.ssize < fs.fsize := Nat.div_lt_of_lt_mul (by rwa [Nat.mul_comm])
  exact ⟨Nat.le_add_right _ _, Nat.add_lt_add_left hdiv _⟩

include hg ha

theorem Moves.area (h : Moves fs fs') : fs'.area a = fs.area a := by
  obtain ⟨hlt, hcopy, -⟩ := hg.not_copy (sector_table ha)
  show fs'.view (fs'.fatbase + a / fs'.ssize) (a % fs'.ssize) = _
  rw [h.geometry, h.view _ hlt hcopy]
  rfl

end sectors

theorem Geometry.Ok.bytes_lt {g : Geometry} (hg : g.Ok) (ha : a < g.fsType.bytes g.nFatent) : a < g.fsize * g.ssize :=
  Nat.lt_of_lt_of_le ha hg.fsize

theorem Moves.entry (hg : fs.toGeometry.Ok) (h : Moves fs fs') (hc : c < fs.nFatent) : fs'.entry c = fs.entry c := by
  show fs'.fsType.entry fs'.area c = _
  rw [h.geometry]
  exact entry_congr hc fun a ha => h.area hg (hg.bytes_lt ha)

theorem view_edit {s : Nat} (win : Memory) (hne : s ≠ fs.winsect) : (fs.edit win).view s = fs.view s :=
  (if_neg hne).trans (if_neg hne).symm

section window

variable (hw : fs.winsect = fs.fatbase + a / fs.ssize)

include hw

theorem area_window {x : Nat} (hx : x / fs.ssize = a / fs.ssize) : fs.area x = fs.win (x % fs.ssize) := by
  rw [Fatfs.area, hx, ← hw, view_winsect]

theorem area_edit (win : Memory) (x : Nat) :
    (fs.edit win).area x = if x / fs.ssize = a / fs.ssize then win (x % fs.ssize) else fs.area x := by
  show (fs.edit win).view (fs.fatbase + x / fs.ssize) (x % fs.ssize) = _
  by_cases hx : x / fs.ssize = a / fs.ssize
  · rw [if_pos hx, hx, ← hw]
    exact congrFun (view_winsect (fs.edit win)) _
  · have hne : fs.fatbase + x / fs.ssize ≠ fs.winsect := by omega
    rw [if_neg hx, view_edit win hne]
    rfl

theorem area_edit_update (b : UInt8) :
    (fs.edit (Function.update fs.win (a % fs.ssize) b)).area = Function.update fs.area a b := by
  funext x
  rw [area_edit hw]
  by_cases hx : x = a
  · subst hx
    rw [if_pos rfl, Function.update_self, Function.update_self]
  · rw [Function.update_of_ne hx]
    split
    · rename_i hdiv
      have hmod : x % fs.ssize ≠ a % fs.ssize := fun hmod => hx (by
        rw [← Nat.div_add_mod x fs.ssize, hdiv, hmod, Nat.div_add_mod])
      rw [Function.update_of_ne hmod, area_window hw hdiv]
    · rfl

theorem area_edit_store (hn : a % fs.ssize + n ≤ fs.ssize) (v : Nat) :
    (fs.edit (store fs.win (a % fs.ssize) n v)).area = store fs.area a n v := by
  funext x
  rw [area_edit hw]
  have hbase := Nat.div_add_mod a fs.ssize
  by_cases hx : a ≤ x ∧ x < a + n
  · obtain ⟨hdiv, hmod⟩ := Nat.div_mod_unique (show 0 < fs.ssize by omega) |>.mpr
      ⟨show a % fs.ssize + (x - a) + fs.ssize * (a / fs.ssize) = x by omega, by omega⟩
    rw [if_pos hdiv, hmod, store_inside (by omega) (by omega), store_inside hx.1 hx.2, Nat.add_sub_cancel_left]
  · rw [store_outside (m := fs.area) (by omega)]
    split
    · rename_i hdiv
      have hpos := Nat.div_add_mod x fs.ssize
      rw [hdiv] at hpos
      rw [store_outside (by omega), area_window hw hdiv]
    · rfl

theorem load_window (hn : a % fs.ssize + n ≤ fs.ssize) : load fs.win (a % fs.ssize) n = load fs.area a n := by
  refine load_shift fun i hi => ?_
  have hbase := Nat.div_add_mod a fs.ssize
  obtain ⟨hdiv, hmod⟩ := Nat.div_mod_unique (show 0 < fs.ssize by omega) |>.mpr
    ⟨show a % fs.ssize + i + fs.ssize * (a / fs.ssize) = a + i by omega, by omega⟩
  rw [area_window hw hdiv, hmod]

end window

theorem Sound.edit (hs : Sound fs) (ht : fs.Table fs.winsect) (win : Memory) : Sound (fs.edit win) :=
  ⟨hs.geometry, nofun, fun _ => (hs.geometry.not_copy ht).1, hs.apart⟩

theorem mod_add_le {k : Nat} (hk : k ∣ n) (hn : 0 < n) : k * c % n + k ≤ n := by
  obtain ⟨q, rfl⟩ := hk
  have hk : 0 < k := Nat.pos_of_mul_pos_right hn
  have hq : 0 < q := Nat.pos_of_mul_pos_left hn
  have hle := Nat.mul_le_mul_left k (Nat.succ_le_of_lt (Nat.mod_lt c hq))
  rw [Nat.mul_mod_mul_left, ← Nat.mul_succ]
  exact hle

theorem div_sector {k : Nat} (hk : k ∣ n) (hpos : 0 < k) : c / (n / k) = k * c / n := by
  obtain ⟨q, rfl⟩ := hk
  rw [Nat.mul_div_cancel_left _ hpos, Nat.mul_div_mul_left _ _ hpos]

end entries

/-! ## `get_fat` and `put_fat` -/

/-- An access to the table moves the window into it, or makes it invalid, or leaves it. -/
structure Access (fs fs' : Fatfs) : Prop extends Moves fs fs' where
  sound : Sound fs'
  window : fs'.winsect = fs.winsect ∨ fs.Table fs'.winsect ∨ fs'.winsect = noSector

/-- The drive fails somewhere. -/
def Fatfs.Faulty (fs : Fatfs) : Prop := ∃ s, fs.drive.bad s = true

/-- What a change of one entry leaves. -/
structure Put (fs fs' : Fatfs) (c : Nat) : Prop where
  geometry : fs'.toGeometry = fs.toGeometry
  lastClst : fs'.lastClst = fs.lastClst
  freeClst : fs'.freeClst = fs.freeClst
  fsiFlag : fs'.fsiFlag = fs.fsiFlag
  bad : fs'.drive.bad = fs.drive.bad
  mirrored : CopiesGood fs → Mirrored fs → Mirrored fs'
  sound : Sound fs'
  window : fs'.winsect = fs.winsect ∨ fs.Table fs'.winsect ∨ fs'.winsect = noSector
  view : ∀ s < noSector, ¬ fs.Copy s → ¬ fs.Table s → fs'.view s = fs.view s
  others : ∀ d < fs.nFatent, d ≠ c → fs'.entry d = fs.entry d

section access

variable {fs fs' fs'' : Fatfs} {a c n v : Nat}

theorem Access.refl (hs : Sound fs) : Access fs fs := ⟨.refl fs, hs, .inl rfl⟩

theorem Access.trans (h : Access fs fs') (h' : Access fs' fs'') : Access fs fs'' where
  toMoves := h.toMoves.trans h'.toMoves
  sound := h'.sound
  window := by
    rcases h'.window with hw | hw | hw
    · rw [hw]
      exact h.window
    · rw [h.geometry] at hw
      exact .inr (.inl hw)
    · exact .inr (.inr hw)

theorem Access.faulty (h : Access fs fs') : fs'.Faulty ↔ fs.Faulty := by
  rw [Fatfs.Faulty, h.bad]
  rfl

theorem moveWindow_addr (hs : Sound fs) (ha : a < fs.fsize * fs.ssize) :
    ∃ fs' res, moveWindow fs (fs.fatbase + a / fs.ssize) = (fs', res) ∧ Access fs fs' ∧
      (res = .ok ∧ fs'.winsect = fs'.fatbase + a / fs'.ssize ∨ res = .diskErr ∧ fs.Faulty) := by
  have ht := sector_table ha
  obtain ⟨hlt, hcopy, -⟩ := hs.geometry.not_copy ht
  have hspec := moveWindow_spec hs hlt hcopy
  generalize moveWindow fs (fs.fatbase + a / fs.ssize) = r at hspec
  obtain ⟨fs', res⟩ := r
  refine ⟨fs', res, rfl, ?_⟩
  obtain ⟨hmoves, hsound, ⟨rfl, hsect, -⟩ | ⟨rfl, ⟨hbad, hsect⟩ | ⟨hbad, hsect⟩⟩⟩ := hspec
  · dsimp only at hmoves hsect
    refine ⟨⟨hmoves, hsound, .inr (.inl (by rwa [hsect]))⟩, .inl ⟨rfl, ?_⟩⟩
    rw [hsect, hmoves.geometry]
  · exact ⟨⟨hmoves, hsound, .inl hsect⟩, .inr ⟨rfl, _, hbad⟩⟩
  · exact ⟨⟨hmoves, hsound, .inr (.inr hsect)⟩, .inr ⟨rfl, _, hbad⟩⟩

theorem moveWindow_number {k : Nat} (hs : Sound fs) (hk : k ∣ fs.ssize) (hpos : 0 < k)
    (ha : k * c < fs.fsize * fs.ssize) :
    ∃ fs' res, moveWindow fs (fs.fatbase + c / (fs.ssize / k)) = (fs', res) ∧ Access fs fs' ∧
      (res = .ok ∧ fs'.winsect = fs'.fatbase + k * c / fs'.ssize ∧ k * c % fs'.ssize + k ≤ fs'.ssize ∨
        res = .diskErr ∧ fs.Faulty) := by
  rw [div_sector hk hpos]
  obtain ⟨fs', res, heq, hacc, ⟨rfl, hsect⟩ | ⟨rfl, hbad⟩⟩ := moveWindow_addr hs ha
  · refine ⟨fs', _, heq, hacc, .inl ⟨rfl, hsect, ?_⟩⟩
    rw [hacc.geometry]
    exact mod_add_le hk (Nat.lt_of_lt_of_le (by decide) hs.geometry.ssize.2)
  · exact ⟨fs', _, heq, hacc, .inr ⟨rfl, hbad⟩⟩

theorem Geometry.Ok.two_dvd {g : Geometry} (hg : g.Ok) : 2 ∣ g.ssize := Nat.dvd_trans ⟨2, rfl⟩ hg.ssize.1

theorem Geometry.Ok.ssize_pos {g : Geometry} (hg : g.Ok) : 0 < g.ssize := Nat.lt_of_lt_of_le (by decide) hg.ssize.2

theorem addr_lt (hg : fs.toGeometry.Ok) (hc : c < fs.nFatent) : fs.fsType.top c < fs.fsize * fs.ssize := by
  have hsize := hg.fsize
  cases htype : fs.fsType with
  | fat12 =>
    rw [htype] at hsize
    have : c + c / 2 + 1 < fs.nFatent + fs.nFatent / 2 + fs.nFatent % 2 := by omega
    exact Nat.lt_of_lt_of_le this hsize
  | fat16 =>
    rw [htype] at hsize
    exact Nat.lt_of_lt_of_le (show 2 * c < 2 * fs.nFatent by omega) hsize
  | fat32 =>
    rw [htype] at hsize
    exact Nat.lt_of_lt_of_le (show 4 * c < 4 * fs.nFatent by omega) hsize

theorem getFat_spec (hs : Sound fs) (hc : 2 ≤ c ∧ c < fs.nFatent) :
    Access fs (getFat fs c).1 ∧ ((getFat fs c).2 = fs.entry c ∨ (getFat fs c).2 = noSector ∧ fs.Faulty) := by
  have haddr := addr_lt hs.geometry hc.2
  have hout : ¬ (c < 2 ∨ fs.nFatent ≤ c) := by omega
  unfold getFat
  rw [if_neg hout]
  cases htype : fs.fsType with
  | fat12 =>
    rw [htype, FsType.top] at haddr
    obtain ⟨fs₁, res, heq, hacc, ⟨rfl, hsect⟩ | ⟨rfl, hbad⟩⟩ := moveWindow_addr hs (Nat.lt_of_succ_lt haddr)
    · dsimp only
      rw [heq, if_neg (not_not.mpr rfl)]
      obtain ⟨fs₂, res, heq', hacc', ⟨rfl, hsect'⟩ | ⟨rfl, hbad⟩⟩ :=
        moveWindow_addr hacc.sound (a := c + c / 2 + 1) (by rwa [hacc.geometry])
      · dsimp only
        rw [heq', if_neg (not_not.mpr rfl)]
        refine ⟨hacc.trans hacc', .inl ?_⟩
        rw [← area_window hsect rfl, ← area_window hsect' rfl, hacc.area hs.geometry (Nat.lt_of_succ_lt haddr),
          (hacc.trans hacc').area hs.geometry haddr, Fatfs.entry, htype]
        rfl
      · dsimp only
        rw [heq']
        exact ⟨hacc.trans hacc', .inr ⟨rfl, hacc.faulty.mp hbad⟩⟩
    · dsimp only
      rw [heq]
      exact ⟨hacc, .inr ⟨rfl, hbad⟩⟩
  | fat16 =>
    rw [htype, FsType.top] at haddr
    obtain ⟨fs₁, res, heq, hacc, ⟨rfl, hsect, hin⟩ | ⟨rfl, hbad⟩⟩ :=
      moveWindow_number hs hs.geometry.two_dvd (by decide) haddr
    · dsimp only
      rw [heq, if_neg (not_not.mpr rfl)]
      refine ⟨hacc, .inl ?_⟩
      rw [← hacc.entry hs.geometry hc.2, Nat.mul_comm, ldWord, load_window hsect hin, Fatfs.entry, hacc.geometry, htype]
      rfl
    · dsimp only
      rw [heq]
      exact ⟨hacc, .inr ⟨rfl, hbad⟩⟩
  | fat32 =>
    rw [htype, FsType.top] at haddr
    obtain ⟨fs₁, res, heq, hacc, ⟨rfl, hsect, hin⟩ | ⟨rfl, hbad⟩⟩ :=
      moveWindow_number hs hs.geometry.ssize.1 (by decide) haddr
    · dsimp only
      rw [heq, if_neg (not_not.mpr rfl)]
      refine ⟨hacc, .inl ?_⟩
      rw [← hacc.entry hs.geometry hc.2, Nat.mul_comm, ldDword, load_window hsect hin, Fatfs.entry, hacc.geometry,
        htype]
      rfl
    · dsimp only
      rw [heq]
      exact ⟨hacc, .inr ⟨rfl, hbad⟩⟩

theorem Access.put (hg : fs.toGeometry.Ok) (h : Access fs fs') : Put fs fs' c where
  geometry := h.geometry
  lastClst := h.lastClst
  freeClst := h.freeClst
  fsiFlag := h.fsiFlag
  bad := h.bad
  mirrored := h.mirrored
  sound := h.sound
  window := h.window
  view s hs hc _ := h.view s hs hc
  others _ hd _ := h.entry hg hd

theorem Put.trans (h : Put fs fs' c) (h' : Put fs' fs'' c) : Put fs fs'' c where
  geometry := h'.geometry.trans h.geometry
  lastClst := h'.lastClst.trans h.lastClst
  freeClst := h'.freeClst.trans h.freeClst
  fsiFlag := h'.fsiFlag.trans h.fsiFlag
  bad := h'.bad.trans h.bad
  mirrored hgood hm := by
    refine h'.mirrored (fun s hs => ?_) (h.mirrored hgood hm)
    rw [h.bad]
    exact hgood s (by rwa [h.geometry] at hs)
  sound := h'.sound
  window := by
    rcases h'.window with hw | hw | hw
    · rw [hw]
      exact h.window
    · rw [h.geometry] at hw
      exact .inr (.inl hw)
    · exact .inr (.inr hw)
  view s hs hc ht := by
    rw [h'.view s hs (by rwa [h.geometry]) (by rwa [h.geometry]), h.view s hs hc ht]
  others d hd hne := by
    rw [h'.others d (by rwa [h.geometry]) hne, h.others d hd hne]

theorem Put.edit {win : Memory} (hs : Sound fs) (ht : fs.Table fs.winsect)
    (hothers : ∀ d < fs.nFatent, d ≠ c → (fs.edit win).entry d = fs.entry d) : Put fs (fs.edit win) c where
  geometry := rfl
  lastClst := rfl
  freeClst := rfl
  fsiFlag := rfl
  bad := rfl
  mirrored _ hm := hm
  sound := hs.edit ht win
  window := .inl rfl
  view _ _ _ hout := view_edit win fun hw => hout (hw ▸ ht)
  others := hothers

theorem entry_or (v old : Nat) :
    ((v &&& 0x0fffffff) ||| (old &&& 0xf0000000)) % 256 ^ 4 &&& 0x0fffffff = v &&& 0x0fffffff := by
  have hmod (x : Nat) : x % 256 ^ 4 &&& 0x0fffffff = x &&& 0x0fffffff := by
    rw [show (0x0fffffff : Nat) = 2 ^ 28 - 1 from rfl, Nat.and_two_pow_sub_one_eq_mod, Nat.and_two_pow_sub_one_eq_mod,
      Nat.mod_mod_of_dvd x (show 2 ^ 28 ∣ 256 ^ 4 by decide)]
  rw [hmod, Nat.and_or_distrib_right, Nat.and_assoc, Nat.and_assoc, Nat.and_self,
    show (0xf0000000 &&& 0x0fffffff : Nat) = 0 from rfl, Nat.and_zero, Nat.or_zero]

theorem area_putLo (hw : fs.winsect = fs.fatbase + (c + c / 2) / fs.ssize) (v : Nat) :
    (fs.edit (Function.update fs.win ((c + c / 2) % fs.ssize)
      (Packed12.putLo (c % 2 = 1) (fs.win ((c + c / 2) % fs.ssize)) v))).area = Packed12.writeLo fs.area c v := by
  rw [area_edit_update hw, ← area_window hw rfl]
  rfl

theorem area_putHi (hw : fs.winsect = fs.fatbase + (c + c / 2 + 1) / fs.ssize) (v : Nat) :
    (fs.edit (Function.update fs.win ((c + c / 2 + 1) % fs.ssize)
      (Packed12.putHi (c % 2 = 1) (fs.win ((c + c / 2 + 1) % fs.ssize)) v))).area = Packed12.writeHi fs.area c v := by
  rw [area_edit_update hw, ← area_window hw rfl]
  rfl

theorem entry_fat12 (htype : fs.fsType = .fat12) : fs.entry c = Packed12.read fs.area c := by
  rw [Fatfs.entry, htype]
  rfl

/-- What `put_fat` does to the entries, whether the drive fails or not. -/
def Puts (fs : Fatfs) (c v : Nat) (r : Fatfs × FResult) : Prop :=
  Put fs r.1 c ∧
    (r.2 = .ok ∧ r.1.entry c = fs.fsType.mask v ∨
      r.2 = .diskErr ∧ fs.Faulty ∧ (fs.fsType ≠ .fat12 → r.1.entry c = fs.entry c))

theorem putFat_fat12 (hs : Sound fs) (hc : 2 ≤ c ∧ c < fs.nFatent) (v : Nat) (htype : fs.fsType = .fat12) :
    Puts fs c v (putFat fs c v) := by
  have haddr := addr_lt hs.geometry hc.2
  rw [htype, FsType.top] at haddr
  have haddr' := Nat.lt_of_succ_lt haddr
  unfold putFat
  rw [if_pos hc, htype]
  dsimp only
  obtain ⟨fs₁, res, heq, hacc, ⟨rfl, hsect⟩ | ⟨rfl, hbad⟩⟩ := moveWindow_addr hs haddr'
  · rw [heq, if_neg (not_not.mpr rfl)]
    have htype₁ : fs₁.fsType = .fat12 := by rwa [hacc.geometry]
    have ht₁ : fs₁.Table fs₁.winsect := by
      rw [hsect, hacc.geometry]
      exact sector_table haddr'
    have harea := area_putLo hsect v
    have hlo := (hacc.put hs.geometry).trans (.edit (c := c) hacc.sound ht₁ fun d _ hne => by
      rw [entry_fat12 (show (fs₁.edit _).fsType = .fat12 from htype₁), harea, entry_fat12 htype₁]
      exact Packed12.read_writeLo_of_ne hne)
    generalize fs₁.edit _ = fs₂ at harea hlo ⊢
    obtain ⟨fs₃, res, heq', hacc', ⟨rfl, hsect'⟩ | ⟨rfl, hbad⟩⟩ :=
      moveWindow_addr hlo.sound (a := c + c / 2 + 1) (by rwa [hlo.geometry])
    · rw [heq', if_neg (not_not.mpr rfl)]
      have hmid := hlo.trans (hacc'.put hlo.sound.geometry)
      have htype₃ : fs₃.fsType = .fat12 := by rwa [hmid.geometry]
      have ht₃ : fs₃.Table fs₃.winsect := by
        rw [hsect', hmid.geometry]
        exact sector_table haddr
      have harea' := area_putHi hsect' v
      refine ⟨hmid.trans (.edit hmid.sound ht₃ fun d _ hne => ?_), .inl ⟨rfl, ?_⟩⟩
      · rw [entry_fat12 (show (fs₃.edit _).fsType = .fat12 from htype₃), harea', entry_fat12 htype₃]
        exact Packed12.read_writeHi_of_ne hne
      · rw [entry_fat12 (show (fs₃.edit _).fsType = .fat12 from htype₃), harea', htype]
        refine Packed12.read_writeHi_self (b := fs₁.area (c + c / 2)) ?_
        -- the first byte is still there
        refine (hacc'.area hlo.sound.geometry (a := c + c / 2) (by rwa [hlo.geometry])).trans ?_
        rw [harea]
        exact Function.update_self ..
    · rw [heq']
      refine ⟨hlo.trans (hacc'.put hlo.sound.geometry), .inr ⟨rfl, ?_, fun h => absurd htype h⟩⟩
      rwa [Fatfs.Faulty, hlo.bad] at hbad
  · rw [heq]
    exact ⟨hacc.put hs.geometry, .inr ⟨rfl, hbad, fun h => absurd htype h⟩⟩

theorem putFat_fat16 (hs : Sound fs) (hc : 2 ≤ c ∧ c < fs.nFatent) (v : Nat) (htype : fs.fsType = .fat16) :
    Puts fs c v (putFat fs c v) := by
  have haddr := addr_lt hs.geometry hc.2
  rw [htype, FsType.top] at haddr
  unfold putFat
  rw [if_pos hc, htype]
  obtain ⟨fs₁, res, heq, hacc, ⟨rfl, hsect, hin⟩ | ⟨rfl, hbad⟩⟩ :=
    moveWindow_number hs hs.geometry.two_dvd (by decide) haddr
  · dsimp only
    rw [heq, if_neg (not_not.mpr rfl), Nat.mul_comm c 2, stWord]
    have harea := area_edit_store hsect hin v
    have ht : fs₁.Table fs₁.winsect := by
      rw [hsect, hacc.geometry]
      exact sector_table haddr
    have hput := (hacc.put hs.geometry).trans (.edit (c := c) hacc.sound ht fun d _ hne => by
      rw [Fatfs.entry, harea, Fatfs.entry]
      show FsType.entry fs₁.fsType _ d = _
      rw [hacc.geometry, htype]
      exact load_store_apart (by omega))
    refine ⟨hput, .inl ⟨rfl, ?_⟩⟩
    rw [Fatfs.entry, harea]
    show FsType.entry fs₁.fsType _ c = _
    rw [hacc.geometry, htype]
    exact load_store _ _ 2 v
  · dsimp only
    rw [heq]
    exact ⟨hacc.put hs.geometry, .inr ⟨rfl, hbad, fun _ => hacc.entry hs.geometry hc.2⟩⟩

theorem putFat_fat32 (hs : Sound fs) (hc : 2 ≤ c ∧ c < fs.nFatent) (v : Nat) (htype : fs.fsType = .fat32) :
    Puts fs c v (putFat fs c v) := by
  have haddr := addr_lt hs.geometry hc.2
  rw [htype, FsType.top] at haddr
  unfold putFat
  rw [if_pos hc, htype]
  obtain ⟨fs₁, res, heq, hacc, ⟨rfl, hsect, hin⟩ | ⟨rfl, hbad⟩⟩ :=
    moveWindow_number hs hs.geometry.ssize.1 (by decide) haddr
  · dsimp only
    rw [heq, if_neg (not_not.mpr rfl), Nat.mul_comm c 4, stDword]
    generalize ldDword fs₁.win (4 * c % fs₁.ssize) = old
    have harea := area_edit_store hsect hin (v &&& 0x0fffffff ||| old &&& 0xf0000000)
    have ht : fs₁.Table fs₁.winsect := by
      rw [hsect, hacc.geometry]
      exact sector_table haddr
    have hput := (hacc.put hs.geometry).trans (.edit (c := c) hacc.sound ht fun d _ hne => by
      rw [Fatfs.entry, harea, Fatfs.entry]
      show FsType.entry fs₁.fsType _ d = _
      rw [hacc.geometry, htype]
      exact congrArg (· &&& 0x0fffffff) (load_store_apart (by omega)))
    refine ⟨hput, .inl ⟨rfl, ?_⟩⟩
    rw [Fatfs.entry, harea]
    show FsType.entry fs₁.fsType _ c = _
    rw [hacc.geometry, htype]
    show load _ _ 4 &&& 0x0fffffff = _
    rw [load_store, entry_or]
    rfl
  · dsimp only
    rw [heq]
    exact ⟨hacc.put hs.geometry, .inr ⟨rfl, hbad, fun _ => hacc.entry hs.geometry hc.2⟩⟩

/-- `put_fat` changes the entry, and no other. If the drive fails, a FAT16 or FAT32 entry stays as it is. -/
theorem putFat_spec (hs : Sound fs) (hc : 2 ≤ c ∧ c < fs.nFatent) (v : Nat) : Puts fs c v (putFat fs c v) := by
  cases htype : fs.fsType with
  | fat12 => exact putFat_fat12 hs hc v htype
  | fat16 => exact putFat_fat16 hs hc v htype
  | fat32 => exact putFat_fat32 hs hc v htype

end access
/-! ## Runs -/

instance {g : Geometry} {s : Nat} : Decidable (g.Table s) := inferInstanceAs (Decidable (_ ∧ _))

instance {g : Geometry} {s : Nat} : Decidable (g.Copy s) := inferInstanceAs (Decidable (_ ∧ _))

/-- What the file system does with the window: the table goes through `get_fat` and `put_fat`, the directories are
read and written in it. `fail` is the drive: sectors go bad and recover. -/
inductive WindowCall where
  | put (clst val : Nat)
  | get (clst : Nat)
  | move (sector : Nat)
  | write (win : Memory)
  | sync
  | fail (bad : Nat → Bool)

/-- A call. Directories are neither in the table nor in its copies. -/
def windowStep (fs : Fatfs) : WindowCall → Option Fatfs
  | .put clst val => some (putFat fs clst val).1
  | .get clst => some (getFat fs clst).1
  | .move sector => if sector < noSector ∧ ¬ fs.Copy sector then some (moveWindow fs sector).1 else none
  | .write win => if fs.winsect < noSector ∧ ¬ fs.Table fs.winsect then some (fs.edit win) else none
  | .sync => some (syncWindow fs).1
  | .fail bad => some { fs with drive := { fs.drive with bad := bad } }

/-- A volume that was mounted with this table. -/
def windowSystem (g : Geometry) (table : Nat → Nat) : System Fatfs WindowCall where
  init fs := fs.toGeometry = g ∧ Sound fs ∧ ∀ c < g.nFatent, fs.entry c = table c
  step := windowStep

/-- A volume whose copies of the table were the same. -/
def mirroredSystem (g : Geometry) (table : Nat → Nat) : System Fatfs WindowCall :=
  { windowSystem g table with init := fun fs => (windowSystem g table).init fs ∧ Mirrored fs }

/-- The last value that was put, and nothing after a `put_fat` that left a FAT12 entry half written. -/
def lastPut (table : Nat → Nat) : History Fatfs WindowCall → Nat → Option Nat
  | [], c => some (table c)
  | (fs, .put clst val) :: h, c =>
    if clst ≠ c then lastPut table h c
    else
      match (putFat fs clst val).2 with
      | .ok => some (fs.fsType.mask val)
      | .diskErr => if fs.fsType = .fat12 then none else lastPut table h c
      | _ => lastPut table h c
  | _ :: h, c => lastPut table h c

/-- The bytes of one copy of the table on the drive. -/
def Fatfs.copy (fs : Fatfs) (k : Nat) : Memory :=
  fun a => fs.drive.sector (fs.fatbase + a / fs.ssize + k * fs.fsize) (a % fs.ssize)

/-- A small FAT12 volume with two copies of the table, of one sector each. -/
def smallVolume : Geometry := ⟨.fat12, 512, 1, 2, 4, 1, 0, 1, 3⟩

/-- Its drive as the format leaves it. -/
def formatted : Drive := ⟨fun s a => if 1 ≤ s ∧ s ≤ 2 ∧ a < 3 then 0xff else 0, fun _ => false⟩

/-- It was mounted. -/
def emptyVolume : Fatfs := ⟨smallVolume, formatted, noSector, false, fun _ => 0, noSector, noSector, 0⟩

/-- Nothing of the table changes. -/
structure Same (fs fs' : Fatfs) : Prop where
  geometry : fs'.toGeometry = fs.toGeometry
  sound : Sound fs'
  mirrored : CopiesGood fs → Mirrored fs → Mirrored fs'
  entry : ∀ c < fs.nFatent, fs'.entry c = fs.entry c

section runs

variable {fs fs' : Fatfs} {g : Geometry} {table : Nat → Nat} {h : History Fatfs WindowCall} {a : WindowCall} {c v : Nat}

theorem Moves.same (hs : Sound fs) (hs' : Sound fs') (h : Moves fs fs') : Same fs fs' :=
  ⟨h.geometry, hs', h.mirrored, fun _ hc => h.entry hs.geometry hc⟩

theorem syncWindow_same (hs : Sound fs) : Same fs (syncWindow fs).1 := by
  obtain ⟨-, hmoves, hsound, -⟩ | ⟨hfail, -⟩ := syncWindow_spec hs
  · exact hmoves.same hs hsound
  · rw [hfail]
    exact (Moves.refl fs).same hs hs

theorem entry_of_view (hs : Sound fs) (hgeom : fs'.toGeometry = fs.toGeometry)
    (hview : ∀ s, fs.Table s → fs'.view s = fs.view s) (hc : c < fs.nFatent) : fs'.entry c = fs.entry c := by
  show fs'.fsType.entry fs'.area c = _
  rw [hgeom]
  refine entry_congr hc fun a ha => ?_
  show fs'.view (fs'.fatbase + a / fs'.ssize) (a % fs'.ssize) = _
  rw [hgeom, hview _ (sector_table (hs.geometry.bytes_lt ha))]
  rfl

/-- Only a successful `put_fat`, or one that fails on FAT12, changes the table. -/
theorem windowStep_same (hs : Sound fs) (hstep : windowStep fs a = some fs') (ha : ∀ c v, a ≠ .put c v) :
    Same fs fs' := by
  cases a with
  | put c v => exact absurd rfl (ha c v)
  | get c =>
    cases hstep
    by_cases hc : 2 ≤ c ∧ c < fs.nFatent
    · obtain ⟨hacc, -⟩ := getFat_spec hs hc
      exact hacc.same hs hacc.sound
    · have hout : c < 2 ∨ fs.nFatent ≤ c := by omega
      rw [getFat, if_pos hout]
      exact (Moves.refl fs).same hs hs
  | move s =>
    obtain ⟨⟨hlt, hcopy⟩, rfl⟩ := Option.ite_none_right_eq_some.mp hstep |>.imp_right Option.some.inj
    obtain ⟨hmoves, hsound, -⟩ := moveWindow_spec hs hlt hcopy
    exact hmoves.same hs hsound
  | write win =>
    obtain ⟨⟨hlt, htable⟩, rfl⟩ := Option.ite_none_right_eq_some.mp hstep |>.imp_right Option.some.inj
    refine ⟨rfl, ⟨hs.geometry, nofun, fun _ => hlt, hs.apart⟩, fun _ hm => hm, fun c hc => ?_⟩
    refine entry_of_view hs rfl (fun s ht => ?_) hc
    exact view_edit win fun he => htable (he ▸ ht)
  | sync =>
    cases hstep
    exact syncWindow_same hs
  | fail bad =>
    cases hstep
    refine ⟨rfl, ⟨hs.geometry, hs.clean, hs.dirty, hs.apart⟩, fun _ hm => hm, fun c hc => ?_⟩
    exact entry_of_view hs rfl (fun _ _ => rfl) hc

theorem lastPut_of_not_put (ha : ∀ c v, a ≠ .put c v) : lastPut table ((fs, a) :: h) c = lastPut table h c := by
  cases a with
  | put c v => exact absurd rfl (ha c v)
  | _ => rfl

/-- The table in every state of a run. -/
def Holds (g : Geometry) (table : Nat → Nat) (h : History Fatfs WindowCall) (fs : Fatfs) : Prop :=
  fs.toGeometry = g ∧ Sound fs ∧ ∀ c < g.nFatent, ∀ v, lastPut table h c = some v → fs.entry c = v

theorem Holds.put (hI : Holds g table h fs) (clst val : Nat) :
    Holds g table ((fs, .put clst val) :: h) (putFat fs clst val).1 := by
  obtain ⟨rfl, hs, hlast⟩ := hI
  by_cases hin : 2 ≤ clst ∧ clst < fs.nFatent
  · obtain ⟨hput, hres⟩ := putFat_spec hs hin val
    refine ⟨hput.geometry, hput.sound, fun c hc v hv => ?_⟩
    unfold lastPut at hv
    by_cases hne : clst ≠ c
    · rw [if_pos hne] at hv
      rw [hput.others c hc (Ne.symm hne)]
      exact hlast c hc v hv
    obtain rfl := not_not.mp hne
    rw [if_neg hne] at hv
    obtain ⟨hok, hentry⟩ | ⟨hfail, -, hkept⟩ := hres
    · rw [hok] at hv
      exact hentry.trans (Option.some.inj hv)
    · rw [hfail] at hv
      obtain ⟨htype, hv⟩ := Option.ite_none_left_eq_some.mp hv
      rw [hkept htype]
      exact hlast _ hc v hv
  · have hout : putFat fs clst val = (fs, .intErr) := if_neg hin
    rw [hout]
    refine ⟨rfl, hs, fun c hc v hv => hlast c hc v ?_⟩
    unfold lastPut at hv
    rwa [hout, ite_self] at hv

theorem windowSystem_holds (hrun : (windowSystem g table).Run h fs) : Holds g table h fs := by
  refine hrun.always (I := Holds g table) (fun fs hinit => ?_) fun h fs a fs' _ hI hstep => ?_
  · obtain ⟨hgeom, hs, hentry⟩ := hinit
    exact ⟨hgeom, hs, fun c hc v hv => (hentry c hc).trans (Option.some.inj hv)⟩
  · by_cases ha : ∃ c v, a = .put c v
    · obtain ⟨c, v, rfl⟩ := ha
      cases hstep
      exact hI.put c v
    · have ha : ∀ c v, a ≠ .put c v := fun c v he => ha ⟨c, v, he⟩
      obtain ⟨rfl, hs, hlast⟩ := hI
      have hsame := windowStep_same hs hstep ha
      refine ⟨hsame.geometry, hsame.sound, fun c hc v hv => ?_⟩
      rw [hsame.entry c hc]
      exact hlast c hc v (by rwa [lastPut_of_not_put ha] at hv)

/-- In every run, whatever the drive refuses and wherever the window was moved and written in between, `get_fat` finds
the last value that was put for a cluster, or reports the error of the drive. -/
theorem table_run (hrun : (windowSystem g table).Run h fs) (hc : 2 ≤ c ∧ c < g.nFatent)
    (hlast : lastPut table h c = some v) :
    (getFat fs c).2 = v ∨ (getFat fs c).2 = noSector ∧ fs.Faulty := by
  obtain ⟨rfl, hs, hentry⟩ := windowSystem_holds hrun
  rw [← hentry c hc.2 v hlast]
  exact (getFat_spec hs hc).2

theorem smallVolume_ok : smallVolume.Ok :=
  ⟨by decide, ⟨0, rfl⟩, by decide, by decide, by decide, by decide, by decide⟩

theorem emptyVolume_sound : Sound emptyVolume :=
  ⟨smallVolume_ok, fun _ h => absurd h (Nat.lt_irrefl _), nofun, smallVolume_ok.noSector_not_copy⟩

theorem emptyVolume_init : (mirroredSystem smallVolume emptyVolume.entry).init emptyVolume := by
  refine ⟨⟨rfl, emptyVolume_sound, fun _ _ => rfl⟩, fun s ⟨hlo, hhi⟩ k (hk : k < 2) => ?_⟩
  have hs : s = 1 := by
    have : s < 1 + 1 := hhi
    have : 1 ≤ s := hlo
    omega
  subst hs
  obtain rfl | rfl : k = 0 ∨ k = 1 := by omega
  · rfl
  · funext a
    show (if 1 ≤ 2 ∧ 2 ≤ 2 ∧ a < 3 then 0xff else 0 : UInt8) = if 1 ≤ 1 ∧ 1 ≤ 2 ∧ a < 3 then 0xff else 0
    exact if_congr (by omega) rfl rfl

/-- A chain of one cluster. -/
theorem table_run_small :
    (getFat (putFat emptyVolume 2 0xfff).1 2).2 = 0xfff ∨
      (getFat (putFat emptyVolume 2 0xfff).1 2).2 = noSector ∧ (putFat emptyVolume 2 0xfff).1.Faulty :=
  table_run (g := smallVolume) (h := [(emptyVolume, .put 2 0xfff)])
    (.step (.init emptyVolume_init.1) rfl) (by decide) rfl

theorem windowStep_mirrored (hs : Sound fs) (hgood : CopiesGood fs) (hm : Mirrored fs)
    (hstep : windowStep fs a = some fs') : Mirrored fs' := by
  by_cases ha : ∃ c v, a = .put c v
  · obtain ⟨c, v, rfl⟩ := ha
    cases hstep
    by_cases hin : 2 ≤ c ∧ c < fs.nFatent
    · exact (putFat_spec hs hin v).1.mirrored hgood hm
    · have hout : putFat fs c v = (fs, .intErr) := if_neg hin
      rwa [hout]
  · exact (windowStep_same hs hstep fun c v he => ha ⟨c, v, he⟩).mirrored hgood hm

theorem mirroredSystem_run (hrun : (mirroredSystem g table).Run h fs) : (windowSystem g table).Run h fs :=
  hrun.mono (fun fs (hinit : (mirroredSystem g table).init fs) => hinit.1) rfl

/-- The copies stay the same as long as the drive refuses no sector of them. -/
theorem mirrored_run (hrun : (mirroredSystem g table).Run h fs) (hgood : Throughout (fun _ fs _ => CopiesGood fs) h) :
    Mirrored fs := by
  refine (hrun.invariant (I := fun _ fs => Sound fs ∧ Mirrored fs) (fun fs hinit => ?_) ?_ hgood).2
  · obtain ⟨⟨-, hs, -⟩, hm⟩ : (mirroredSystem g table).init fs := hinit
    exact ⟨hs, hm⟩
  · intro h fs a fs' hrun hI hg hstep
    exact ⟨(windowSystem_holds (mirroredSystem_run (hrun.step hstep))).2.1, windowStep_mirrored hI.1 hg hI.2 hstep⟩

theorem copy_eq_area (hs : Sound fs) (hclean : fs.wflag = false) (hm : Mirrored fs) {k x : Nat} (hk : k < fs.nFats)
    (hx : x < fs.fsize * fs.ssize) : fs.copy k x = fs.area x := by
  have ht := sector_table hx
  have hlt := (hs.geometry.not_copy ht).1
  rw [Fatfs.copy, hm _ ht k hk, Fatfs.area, Fatfs.view]
  split
  · rename_i hw
    rw [hw, hs.clean hclean (hw ▸ hlt)]
  · rfl

/-- After a successful `sync_window` every copy of the table on the drive, read alone, has the values that were put
last, if the drive refused no sector of the copies on the way. -/
theorem copies_run (hrun : (mirroredSystem g table).Run h fs)
    (hgood : Throughout (fun _ fs _ => CopiesGood fs) ((fs, .sync) :: h)) (hok : (syncWindow fs).2 = .ok) {k : Nat}
    (hk : k < g.nFats) (hc : c < g.nFatent) (hlast : lastPut table h c = some v) :
    g.fsType.entry ((syncWindow fs).1.copy k) c = v := by
  have hrun' := hrun.step (show (mirroredSystem g table).step fs .sync = some (syncWindow fs).1 from rfl)
  have hm := mirrored_run hrun' hgood
  obtain ⟨hgeom, hs, hentry⟩ := windowSystem_holds (mirroredSystem_run hrun')
  obtain ⟨-, hs₀, -⟩ := windowSystem_holds (mirroredSystem_run hrun)
  have hclean : (syncWindow fs).1.wflag = false := by
    obtain ⟨-, -, -, hclean, -⟩ | ⟨hfail, -⟩ := syncWindow_spec hs₀
    · exact hclean
    · rw [hfail] at hok
      cases hok
  rw [← hentry c hc v hlast, Fatfs.entry]
  rw [← hgeom] at hk hc ⊢
  exact entry_congr hc fun a ha => copy_eq_area hs hclean hm hk (hs.geometry.bytes_lt ha)

theorem copies_run_small :
    smallVolume.fsType.entry ((syncWindow (putFat emptyVolume 2 0xfff).1).1.copy 1) 2 = 0xfff :=
  copies_run (h := [(emptyVolume, .put 2 0xfff)]) (.step (.init emptyVolume_init) rfl)
    ⟨fun _ _ => rfl, fun _ _ => rfl, trivial⟩ rfl (by decide) (by decide) rfl

end runs

end ThyristorController.Fat
