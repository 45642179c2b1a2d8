import ThyristorController.Dfs.Lookup
import ThyristorController.Lib.Run

/-!
# Mounting and unmounting (`components/dfs/src/dfs_fs.c`, `components/dfs/filesystems/elmfat/dfs_elm.c`)

`dfs_mount` fills an entry of the table of the file systems before it opens the device and calls the file system, and
clears it again when one of them fails. What the table gets is the normal form of the path, and what `dfs_unmount`
looks for; but `dfs_mount` compares the path as it was passed with the paths in the table (`mount_paths_unique`).

`dfs_elm_mount` notes the device in its table of disks before it checks the sector size, and does not take it back when
the sector is too large (`failed_mount_unchanged`).
-/

namespace ThyristorController.Filesystems

open Transition Paths

/-! ## Codes -/

/-- The codes that `rt_set_errno` gets and that `dfs_elm_mount` returns; `eperm` is 1. -/
inductive Errno where
  | eperm | enoent | eio | enomem | eexist | enodev | enotdir | einval | enospc | erofs | enosys
  deriving DecidableEq

/-- `FRESULT`. -/
inductive FResult where
  | ok | diskErr | intErr | notReady | noFile | noPath | invalidName | denied | exist | invalidObject | writeProtected
  | invalidDrive | notEnabled | noFilesystem | mkfsAborted | timeout | locked | notEnoughCore | tooManyOpenFiles
  | invalidParameter
  deriving DecidableEq

/-- `elm_result_to_dfs`: `RT_EOK`, or a negative code. -/
def elmResultToDfs : FResult → Option Errno
  | .ok => none
  | .noFile | .noPath | .noFilesystem => some .enoent
  | .invalidName => some .einval
  | .exist | .invalidObject => some .eexist
  | .diskErr | .notReady | .intErr => some .eio
  | .writeProtected | .denied => some .erofs
  | .mkfsAborted => some .einval
  | _ => some .eperm

/-! ## File systems -/

/-- A function of a file system type: elm's, or another one's, which does not have elm's table of disks. -/
inductive FsImpl where
  | elm | other
  deriving DecidableEq

/-- `struct dfs_filesystem_ops`. -/
structure DfsFilesystemOps where
  name : CString
  mount : Option FsImpl
  unmount : Option FsImpl
  deriving DecidableEq

/-- What a call meets outside of its own code: the working directory, whether memory is got for the path and whether
`dfs_file_open` finds the directory, the device of `rt_device_find`, whether `rt_device_open` succeeds, the
`bytes_per_sector` of the device (`none` when the control fails), the memory for the `FATFS` and for the `DIR`, the
results of `f_mount` and `f_opendir`, and what another file system returns and keeps as its data. -/
structure Answers (δ φ : Type) where
  workingDirectory : CString
  fullpath : Bool
  directory : Bool
  device : Option δ
  opens : Bool
  bytesPerSector : Option Nat
  fat : Option φ
  fMount : FResult
  dir : Bool
  fOpendir : FResult
  other : Option Errno
  otherData : Option φ

/-- `filesystem_table`, and the `disk` table of elm. -/
structure DfsState (δ φ : Type) where
  table : List (DfsFilesystem δ DfsFilesystemOps φ)
  disk : List (Option δ)
  deriving DecidableEq

variable {δ φ : Type} [DecidableEq δ]

/-- `memset(fs, 0, sizeof(struct dfs_filesystem))`. -/
def unused {δ ο φ : Type} : DfsFilesystem δ ο φ := ⟨none, none, none, none⟩

/-! ### elm -/

/-- `get_disk`. -/
def getDisk (disk : List (Option δ)) (id : Option δ) : Option Nat := disk.findIdx? (· = id)

/-- `dfs_elm_mount`: the table of disks, the data, and the code returned. Without a device, an assertion of
`rt_device_control` fails. -/
def dfsElmMount (maxSs : Nat) (disk : List (Option δ)) (devId : Option δ) (ans : Answers δ φ) :
    Option (List (Option δ) × Option φ × Option Errno) :=
  match getDisk disk none with
  | none => some (disk, none, some .enoent)
  | some index =>
    let disk := disk.set index devId
    if devId = none then none
    else if ∃ b ∈ ans.bytesPerSector, b > maxSs then some (disk, none, some .einval)
    else if ans.fat = none then some (disk.set index none, none, some .enomem)
    else if ans.fMount ≠ .ok then some (disk.set index none, none, elmResultToDfs ans.fMount)
    else if !ans.dir then some (disk.set index none, none, some .enomem)
    else if ans.fOpendir ≠ .ok then some (disk.set index none, none, elmResultToDfs ans.fOpendir)
    else some (disk, ans.fat, none)

/-- `dfs_elm_unmount`; an assertion fails where there are no data. -/
def dfsElmUnmount (disk : List (Option δ)) (fs : DfsFilesystem δ DfsFilesystemOps φ) (ans : Answers δ φ) :
    Option (List (Option δ) × Option Errno) :=
  if fs.data = none then none
  else
    match getDisk disk fs.devId with
    | none => some (disk, some .enoent)
    | some index =>
      if ans.fMount ≠ .ok then some (disk, elmResultToDfs ans.fMount) else some (disk.set index none, none)

/-- `(*ops)->mount(fs, rwflag, data)`; nothing here reads the last two. -/
def FsImpl.mount (maxSs : Nat) (disk : List (Option δ)) (devId : Option δ) (ans : Answers δ φ) :
    FsImpl → Option (List (Option δ) × Option φ × Option Errno)
  | .elm => dfsElmMount maxSs disk devId ans
  | .other => some (disk, ans.otherData, ans.other)

/-- `fs->ops->unmount(fs)`. -/
def FsImpl.unmount (disk : List (Option δ)) (fs : DfsFilesystem δ DfsFilesystemOps φ) (ans : Answers δ φ) :
    FsImpl → Option (List (Option δ) × Option Errno)
  | .elm => dfsElmUnmount disk fs ans
  | .other => some (disk, ans.other)

/-! ### `dfs_mount` -/

structure MountCall where
  deviceName : Option CString
  path : CString
  filesystemtype : CString
  deriving DecidableEq

/-- What a call returns: 0, or -1, with the code that it has set. -/
inductive MountRet where
  | ok
  | fail (errno : Option Errno)
  deriving DecidableEq

/-- The string that starts in a buffer. -/
def CString.ofBuffer (buf : List UInt8) : CString where
  bytes := buf.takeWhile (· ≠ 0)
  no_nul h := by simpa using List.mem_takeWhile_imp h

/-- The operations of elm. -/
def dfsElm : DfsFilesystemOps := ⟨.ofBuffer (['e', 'l', 'm'].map Char.toUInt8), some .elm, some .elm⟩

/-- `dfs_normalize_path(NULL, path)`, which uses the working directory. -/
def normalizePath (path : CString) (ans : Answers δ φ) : Except Fault (Option CString) :=
  if ans.fullpath then
    (dfsNormalizePath ans.workingDirectory.bytes path.bytes).map (Option.map CString.ofBuffer)
  else .ok none

/-- What the loop over the table finds: the path is mounted, or else the first entry that is not in use. -/
inductive Scan where
  | mounted
  | free (fs : Option Nat)
  deriving DecidableEq

/-- The loop of `dfs_mount`, from the entry with number `i` on. An entry in use without a path is an access through a
null pointer. -/
def mountScan (path : CString) : List (DfsFilesystem δ DfsFilesystemOps φ) → Nat → Option Nat → Option Scan
  | [], _, fs => some (.free fs)
  | iter :: rest, i, fs =>
    if iter.ops = none then mountScan path rest (i + 1) (if fs = none then some i else fs)
    else iter.path.bind fun p => if p = path then some .mounted else mountScan path rest (i + 1) fs

/-- The type of a file system, by its name. -/
def findOps (types : List (Option DfsFilesystemOps)) (filesystemtype : CString) : Option DfsFilesystemOps :=
  types.reduceOption.find? (·.name = filesystemtype)

/-- The strings "/" and "/dev". -/
def rootPath : CString := ⟨[slash], by decide⟩
def devPath : CString := ⟨['/', 'd', 'e', 'v'].map Char.toUInt8, by decide⟩

/-- `dfs_mount` up to the point where it fills an entry: the number of the entry, the path and the operations. -/
def mountChecks (types : List (Option DfsFilesystemOps)) (s : DfsState δ φ) (call : MountCall) (ans : Answers δ φ) :
    Option (Except Errno (Nat × CString × DfsFilesystemOps)) :=
  if call.deviceName ≠ none ∧ ans.device = none then some (.error .enodev)
  else
    match findOps types call.filesystemtype with
    | none => some (.error .enodev)
    | some ops =>
      if ops.mount = none then some (.error .enosys)
      else
        match normalizePath call.path ans with
        | .error _ => none
        | .ok none => some (.error .enotdir)
        | .ok (some fullpath) =>
          if fullpath ≠ rootPath ∧ fullpath ≠ devPath ∧ !ans.directory then some (.error .enotdir)
          else
            (mountScan call.path s.table 0 none).map fun
              | .mounted => .error .einval
              | .free none => .error .enospc
              | .free (some fs) => .ok (fs, fullpath, ops)

/-- The device of the file system. -/
def MountCall.devId (call : MountCall) (ans : Answers δ φ) : Option δ :=
  if call.deviceName = none then none else ans.device

/-- `dfs_mount`. -/
def dfsMount (types : List (Option DfsFilesystemOps)) (maxSs : Nat) (s : DfsState δ φ) (call : MountCall)
    (ans : Answers δ φ) : Option (DfsState δ φ × MountRet) :=
  (mountChecks types s call ans).bind fun
    | .error errno => some (s, .fail (some errno))
    | .ok (fs, fullpath, ops) =>
      let devId := call.devId ans
      let table := s.table.modify fs ({ · with devId := devId, path := some fullpath, ops := some ops })
      if devId ≠ none ∧ !ans.opens then some ({ s with table := table.set fs unused }, .fail none)
      else
        ops.mount.bind fun impl => (impl.mount maxSs s.disk devId ans).map fun (disk, data, errno) =>
          if errno ≠ none then (⟨table.set fs unused, disk⟩, .fail none)
          else (⟨table.modify fs ({ · with data := data }), disk⟩, .ok)

/-! ### `dfs_unmount` -/

/-- `dfs_unmount`. -/
def dfsUnmount (s : DfsState δ φ) (specialfile : CString) (ans : Answers δ φ) :
    Option (DfsState δ φ × MountRet) :=
  match normalizePath specialfile ans with
  | .error _ => none
  | .ok none => some (s, .fail (some .enotdir))
  | .ok (some fullpath) =>
    match s.table.findIdx? (·.path = some fullpath) with
    | none => some (s, .fail none)
    | some i =>
      (s.table[i]?).bind fun fs => fs.ops.bind fun ops =>
        match ops.unmount with
        | none => some (s, .fail none)
        | some impl => (impl.unmount s.disk fs ans).map fun (disk, errno) =>
          if errno ≠ none then ({ s with disk := disk }, .fail none)
          else (⟨s.table.set i unused, disk⟩, .ok)

/-! ## The system -/

inductive DfsCall (δ φ : Type) where
  | mount (call : MountCall) (ans : Answers δ φ)
  | unmount (specialfile : CString) (ans : Answers δ φ)

/-- Any sequence of calls, with tables of any size that are zero in the beginning. -/
def dfsSystem (types : List (Option DfsFilesystemOps)) (maxSs filesystemsMax volumes : Nat) :
    System (DfsState δ φ) (DfsCall δ φ) where
  init s := s = ⟨List.replicate filesystemsMax unused, List.replicate volumes none⟩
  step s
    | .mount call ans => (dfsMount types maxSs s call ans).map Prod.fst
    | .unmount specialfile ans => (dfsUnmount s specialfile ans).map Prod.fst

/-! ## What is kept -/

/-- No two entries in use have the same mount path. -/
def UniquePaths (s : DfsState δ φ) : Prop :=
  ∀ (i j : Nat) (e e' : DfsFilesystem δ DfsFilesystemOps φ) (m : CString), s.table[i]? = some e →
    s.table[j]? = some e' → e.MountedAt m → e'.MountedAt m → i = j

/-- The path is its own normal form, or nothing is mounted at its normal form. -/
def KeepsUnique (s : DfsState δ φ) : DfsCall δ φ → Prop
  | .mount call ans => ∀ fullpath, normalizePath call.path ans = .ok (some fullpath) →
      fullpath = call.path ∨ ∀ e ∈ s.table, ¬ e.MountedAt fullpath
  | .unmount _ _ => True

instance {δ ο φ : Type} (e : DfsFilesystem δ ο φ) (m : CString) : Decidable (e.MountedAt m) :=
  decidable_of_iff (e.path = some m ∧ e.ops.isSome = true) (and_congr_right' Option.isSome_iff_ne_none)

instance (s : DfsState δ φ) (a : DfsCall δ φ) : Decidable (KeepsUnique s a) :=
  match a with
  | .unmount _ _ => .isTrue trivial
  | .mount call ans =>
    match h : normalizePath call.path ans with
    | .ok (some fullpath) =>
      decidable_of_iff (fullpath = call.path ∨ ∀ e ∈ s.table, ¬ e.MountedAt fullpath) (by simp [KeepsUnique, h])
    | .ok none => .isTrue (by simp [KeepsUnique, h])
    | .error _ => .isTrue (by simp [KeepsUnique, h])

/-- The entries that are not in use are zero. -/
def Cleared (s : DfsState δ φ) : Prop := ∀ e ∈ s.table, e.ops = none → e = unused

/-- `dfs_elm_mount` is called with a volume that is free, for a device with larger sectors than FatFs can have. -/
def SectorTooLarge (types : List (Option DfsFilesystemOps)) (maxSs : Nat) (s : DfsState δ φ) (call : MountCall)
    (ans : Answers δ φ) : Prop :=
  ∃ fs fullpath ops b, mountChecks types s call ans = some (.ok (fs, fullpath, ops)) ∧ ops.mount = some .elm ∧
    call.devId ans ≠ none ∧ ans.opens = true ∧ none ∈ s.disk ∧ ans.bytesPerSector = some b ∧ maxSs < b

section calls

variable {types : List (Option DfsFilesystemOps)} {maxSs filesystemsMax volumes : Nat} {s s' : DfsState δ φ}
  {call : MountCall} {ans : Answers δ φ} {ret : MountRet} {path fullpath : CString} {fs : Nat}
  {ops : DfsFilesystemOps} {disk disk' : List (Option δ)} {data : Option φ} {errno : Option Errno}
  {h : History (DfsState δ φ) (DfsCall δ φ)}

omit [DecidableEq δ] in
theorem mountScan_free {l : List (DfsFilesystem δ DfsFilesystemOps φ)} {k : Nat} {before found : Option Nat}
    (hscan : mountScan path l k before = some (.free found)) :
    (∀ e ∈ l, ¬ e.MountedAt path) ∧
      ∀ i, found = some i → before = some i ∨ ∃ j e, i = k + j ∧ l[j]? = some e ∧ e.ops = none := by
  induction l generalizing k before with
  | nil =>
    obtain rfl : before = found := Scan.free.inj (Option.some.inj hscan)
    exact ⟨by simp, fun i hi => .inl hi⟩
  | cons e l ih =>
    rw [mountScan] at hscan
    by_cases hops : e.ops = none
    · rw [if_pos hops] at hscan
      obtain ⟨hnone, hfound⟩ := ih hscan
      constructor
      · rintro e' he' hm
        rcases List.mem_cons.mp he' with rfl | he'
        · exact hm.2 hops
        · exact hnone e' he' hm
      · intro i hi
        rcases hfound i hi with hbefore | ⟨j, e', rfl, he', ho⟩
        · by_cases hb : before = none
          · rw [if_pos hb] at hbefore
            exact .inr ⟨0, e, (Option.some.inj hbefore).symm, rfl, hops⟩
          · rw [if_neg hb] at hbefore
            exact .inl hbefore
        · exact .inr ⟨j + 1, e', by omega, he', ho⟩
    · rw [if_neg hops] at hscan
      obtain ⟨p, hp, hscan⟩ := Option.bind_eq_some_iff.mp hscan
      by_cases hpath : p = path
      · rw [if_pos hpath] at hscan
        cases hscan
      rw [if_neg hpath] at hscan
      obtain ⟨hnone, hfound⟩ := ih hscan
      constructor
      · rintro e' he' hm
        rcases List.mem_cons.mp he' with rfl | he'
        · exact hpath (Option.some.inj (hp.symm.trans hm.1))
        · exact hnone e' he' hm
      · intro i hi
        rcases hfound i hi with hbefore | ⟨j, e', rfl, he', ho⟩
        · exact .inl hbefore
        · exact .inr ⟨j + 1, e', by omega, he', ho⟩

omit [DecidableEq δ] in
theorem mountChecks_ok (hchecks : mountChecks types s call ans = some (.ok (fs, fullpath, ops))) :
    normalizePath call.path ans = .ok (some fullpath) ∧ (∀ e ∈ s.table, ¬ e.MountedAt call.path) ∧
      ∃ e, s.table[fs]? = some e ∧ e.ops = none := by
  unfold mountChecks at hchecks
  by_cases hdev : call.deviceName ≠ none ∧ ans.device = none
  · rw [if_pos hdev] at hchecks
    cases hchecks
  rw [if_neg hdev] at hchecks
  cases htype : findOps types call.filesystemtype with
  | none =>
    rw [htype] at hchecks
    cases hchecks
  | some ops' =>
    rw [htype] at hchecks
    dsimp only at hchecks
    by_cases himpl : ops'.mount = none
    · rw [if_pos himpl] at hchecks
      cases hchecks
    rw [if_neg himpl] at hchecks
    rcases hpath : normalizePath call.path ans with fault | _ | fullpath'
    all_goals
      rw [hpath] at hchecks
      dsimp only at hchecks
    · cases hchecks
    · cases hchecks
    · by_cases hdir : fullpath' ≠ rootPath ∧ fullpath' ≠ devPath ∧ (!ans.directory) = true
      · rw [if_pos hdir] at hchecks
        cases hchecks
      rw [if_neg hdir] at hchecks
      obtain ⟨scan, hscan, hresult⟩ := Option.map_eq_some_iff.mp hchecks
      rcases scan with _ | _ | i
      · cases hresult
      · cases hresult
      · cases hresult
        obtain ⟨hnone, hfound⟩ := mountScan_free hscan
        obtain hbefore | ⟨j, e, rfl, he, ho⟩ := hfound _ rfl
        · contradiction
        · rw [Nat.zero_add]
          exact ⟨rfl, hnone, e, he, ho⟩

/-- The ways in which `dfs_mount` ends. -/
inductive MountOutcome (types : List (Option DfsFilesystemOps)) (maxSs : Nat) (s : DfsState δ φ) (call : MountCall)
    (ans : Answers δ φ) : DfsState δ φ → MountRet → Prop
  | refused {errno : Errno} (hchecks : mountChecks types s call ans = some (.error errno)) :
    MountOutcome types maxSs s call ans s (.fail (some errno))
  | unopened {fs : Nat} {fullpath : CString} {ops : DfsFilesystemOps}
    (hchecks : mountChecks types s call ans = some (.ok (fs, fullpath, ops))) (hdev : call.devId ans ≠ none)
    (hopens : ans.opens = false) :
    MountOutcome types maxSs s call ans { s with table := s.table.set fs unused } (.fail none)
  | failed {fs : Nat} {fullpath : CString} {ops : DfsFilesystemOps} {impl : FsImpl} {disk : List (Option δ)}
    {data : Option φ} {errno : Errno} (hchecks : mountChecks types s call ans = some (.ok (fs, fullpath, ops)))
    (hopens : call.devId ans ≠ none → ans.opens = true) (himpl : ops.mount = some impl)
    (hmount : impl.mount maxSs s.disk (call.devId ans) ans = some (disk, data, some errno)) :
    MountOutcome types maxSs s call ans ⟨s.table.set fs unused, disk⟩ (.fail none)
  | mounted {fs : Nat} {fullpath : CString} {ops : DfsFilesystemOps} {impl : FsImpl} {disk : List (Option δ)}
    {data : Option φ} (hchecks : mountChecks types s call ans = some (.ok (fs, fullpath, ops)))
    (hmount : impl.mount maxSs s.disk (call.devId ans) ans = some (disk, data, none)) :
    MountOutcome types maxSs s call ans ⟨s.table.set fs ⟨call.devId ans, some fullpath, some ops, data⟩, disk⟩ .ok

omit [DecidableEq δ] in
theorem modify_set {l : List (DfsFilesystem δ DfsFilesystemOps φ)} {e : DfsFilesystem δ DfsFilesystemOps φ}
    (f : DfsFilesystem δ DfsFilesystemOps φ → DfsFilesystem δ DfsFilesystemOps φ) :
    (l.modify fs f).set fs e = l.set fs e := by
  apply List.ext_getElem?
  intro i
  rw [List.getElem?_set, List.getElem?_set, List.length_modify]
  split_ifs with hi
  · rfl
  · rfl
  · exact List.getElem?_modify_ne f l hi

omit [DecidableEq δ] in
theorem modify_modify {l : List (DfsFilesystem δ DfsFilesystemOps φ)} {devId : Option δ} :
    (l.modify fs ({ · with devId := devId, path := some fullpath, ops := some ops })).modify fs
      ({ · with data := data }) = l.set fs ⟨devId, some fullpath, some ops, data⟩ := by
  apply List.ext_getElem?
  intro i
  by_cases hi : fs = i
  · subst hi
    rw [List.getElem?_modify_eq, List.getElem?_modify_eq, List.getElem?_set_self']
    cases l[fs]? <;> rfl
  · rw [List.getElem?_modify_ne _ _ hi, List.getElem?_modify_ne _ _ hi, List.getElem?_set_ne hi]

theorem dfsMount_outcome (hs : dfsMount types maxSs s call ans = some (s', ret)) :
    MountOutcome types maxSs s call ans s' ret := by
  obtain ⟨checks, hchecks, hs⟩ := Option.bind_eq_some_iff.mp hs
  rcases checks with errno | ⟨fs, fullpath, ops⟩
  · cases hs
    exact .refused hchecks
  dsimp only at hs
  by_cases hopens : call.devId ans ≠ none ∧ (!ans.opens) = true
  · rw [if_pos hopens, modify_set] at hs
    cases hs
    exact .unopened hchecks hopens.1 (by simpa using hopens.2)
  rw [if_neg hopens] at hs
  obtain ⟨impl, himpl, hs⟩ := Option.bind_eq_some_iff.mp hs
  obtain ⟨⟨disk, data, errno⟩, hmount, hs⟩ := Option.map_eq_some_iff.mp hs
  dsimp only at hs
  cases errno with
  | none =>
    rw [if_neg (by simp), modify_modify] at hs
    cases hs
    exact .mounted hchecks hmount
  | some errno =>
    rw [if_pos (by simp), modify_set] at hs
    cases hs
    refine .failed hchecks ?_ himpl hmount
    intro hdev
    by_contra hclosed
    exact hopens ⟨hdev, by simpa using hclosed⟩

theorem dfsUnmount_table (hs : dfsUnmount s path ans = some (s', ret)) :
    s'.table = s.table ∨ ∃ i, s'.table = s.table.set i unused := by
  unfold dfsUnmount at hs
  rcases hpath : normalizePath path ans with fault | _ | fullpath
  all_goals
    rw [hpath] at hs
    dsimp only at hs
  · cases hs
  · cases hs
    exact .inl rfl
  cases hfind : s.table.findIdx? (·.path = some fullpath) with
  | none =>
    rw [hfind] at hs
    cases hs
    exact .inl rfl
  | some i =>
    rw [hfind] at hs
    obtain ⟨fs, -, hs⟩ := Option.bind_eq_some_iff.mp hs
    obtain ⟨ops, -, hs⟩ := Option.bind_eq_some_iff.mp hs
    cases himpl : ops.unmount with
    | none =>
      rw [himpl] at hs
      cases hs
      exact .inl rfl
    | some impl =>
      rw [himpl] at hs
      obtain ⟨⟨disk, errno⟩, -, hs⟩ := Option.map_eq_some_iff.mp hs
      dsimp only at hs
      split_ifs at hs
      · cases hs
        exact .inl rfl
      · cases hs
        exact .inr ⟨i, rfl⟩

/-! ### The mount paths -/

omit [DecidableEq δ] in
theorem not_mountedAt_unused {m : CString} : ¬ (unused : DfsFilesystem δ DfsFilesystemOps φ).MountedAt m :=
  fun hm => hm.2 rfl

omit [DecidableEq δ] in
theorem UniquePaths.clear (hu : UniquePaths s) (htable : s'.table = s.table.set fs unused) : UniquePaths s' := by
  intro i j e e' m he he' hm hm'
  rw [htable, List.getElem?_set] at he he'
  split_ifs at he with hi
  · cases he
    exact absurd hm not_mountedAt_unused
  split_ifs at he' with hj
  · cases he'
    exact absurd hm' not_mountedAt_unused
  exact hu i j e e' m he he' hm hm'

omit [DecidableEq δ] in
theorem uniquePaths_fill {devId : Option δ} {e₀ : DfsFilesystem δ DfsFilesystemOps φ} (hu : UniquePaths s)
    (hfs : s.table[fs]? = some e₀) (hfree : e₀.ops = none)
    (htable : s'.table = s.table.set fs ⟨devId, some fullpath, some ops, data⟩) :
    UniquePaths s' ↔ ∀ e ∈ s.table, ¬ e.MountedAt fullpath := by
  have hlt : fs < s.table.length := (List.getElem?_eq_some_iff.mp hfs).1
  have hnew : s'.table[fs]? = some ⟨devId, some fullpath, some ops, data⟩ := by
    rw [htable, List.getElem?_set_self hlt]
  have hold : ∀ i, i ≠ fs → s'.table[i]? = s.table[i]? := by
    intro i hi
    rw [htable, List.getElem?_set_ne (Ne.symm hi)]
  constructor
  · intro hu' e he hm
    obtain ⟨j, hj⟩ := List.getElem?_of_mem he
    have hne : j ≠ fs := by
      rintro rfl
      obtain rfl := Option.some.inj (hj.symm.trans hfs)
      exact hm.2 hfree
    exact hne (hu' j fs e _ fullpath ((hold j hne).trans hj) hnew hm ⟨rfl, by simp⟩)
  · intro hnone i j e e' m he he' hm hm'
    have hfilled : ∀ {k : Nat} {e₁ e₂ : DfsFilesystem δ DfsFilesystemOps φ}, k ≠ fs → s'.table[k]? = some e₁ →
        s'.table[fs]? = some e₂ → e₁.MountedAt m → ¬ e₂.MountedAt m := by
      intro k e₁ e₂ hk he₁ he₂ hm₁ hm₂
      obtain rfl := Option.some.inj (hnew.symm.trans he₂)
      obtain rfl := Option.some.inj hm₂.1
      exact hnone e₁ (List.mem_of_getElem? ((hold k hk).symm.trans he₁)) hm₁
    by_cases hi : i = fs
    · by_cases hj : j = fs
      · rw [hi, hj]
      · subst hi
        exact absurd hm (hfilled hj he' he hm')
    · by_cases hj : j = fs
      · subst hj
        exact absurd hm' (hfilled hi he he' hm)
      · exact hu i j e e' m ((hold i hi).symm.trans he) ((hold j hj).symm.trans he') hm hm'

theorem uniquePaths_mount (hu : UniquePaths s) (hs : dfsMount types maxSs s call ans = some (s', .ok)) :
    UniquePaths s' ↔ KeepsUnique s (.mount call ans) := by
  cases dfsMount_outcome hs with
  | mounted hchecks hmount =>
    obtain ⟨hpath, hnone, e, he, hfree⟩ := mountChecks_ok hchecks
    rw [uniquePaths_fill hu he hfree rfl]
    constructor
    · intro hall fullpath' hpath'
      rw [hpath] at hpath'
      cases hpath'
      exact .inr hall
    · intro hkeeps
      rcases hkeeps _ hpath with rfl | hall
      · exact hnone
      · exact hall

theorem mount_keeps (hu : UniquePaths s) (hkeeps : KeepsUnique s (.mount call ans))
    (hs : dfsMount types maxSs s call ans = some (s', ret)) : UniquePaths s' := by
  cases ret with
  | ok => exact (uniquePaths_mount hu hs).mpr hkeeps
  | fail errno =>
    cases dfsMount_outcome hs with
    | refused => exact hu
    | unopened => exact hu.clear rfl
    | failed => exact hu.clear rfl

theorem unmount_keeps (hu : UniquePaths s) (hs : dfsUnmount s path ans = some (s', ret)) : UniquePaths s' := by
  obtain htable | ⟨i, htable⟩ := dfsUnmount_table hs
  · intro i j
    rw [htable]
    exact hu i j
  · exact hu.clear htable

/-- In every run in which each mount gets a path that is its own normal form, or at whose normal form nothing is
mounted, no two entries in use have the same mount path in any state; and a mount that succeeds in such a state keeps
this exactly if it is such a mount. -/
theorem mount_paths_unique (hrun : (dfsSystem types maxSs filesystemsMax volumes).Run h s) :
    (Throughout (fun _ s a => KeepsUnique s a) h → Throughout (fun _ s _ => UniquePaths s) h ∧ UniquePaths s) ∧
      ∀ call ans s', UniquePaths s → dfsMount types maxSs s call ans = some (s', .ok) →
        (UniquePaths s' ↔ KeepsUnique s (.mount call ans)) := by
  refine ⟨?_, fun call ans s' hu hs => uniquePaths_mount hu hs⟩
  have hunique : ∀ (h : History (DfsState δ φ) (DfsCall δ φ)) (s : DfsState δ φ),
      (dfsSystem types maxSs filesystemsMax volumes).Run h s → Throughout (fun _ s a => KeepsUnique s a) h →
      UniquePaths s := by
    intro h s hrun hkeeps
    refine hrun.invariant (I := fun _ s => UniquePaths s) ?_ ?_ hkeeps
    · rintro s rfl i j e e' m he - hm -
      obtain rfl := List.eq_of_mem_replicate (List.mem_of_getElem? he)
      exact absurd hm not_mountedAt_unused
    · rintro h s a s' - hu hkeep hs
      cases a with
      | mount call ans =>
        obtain ⟨⟨s₁, ret⟩, hcall, rfl⟩ := Option.map_eq_some_iff.mp hs
        exact mount_keeps hu hkeep hcall
      | unmount specialfile ans =>
        obtain ⟨⟨s₁, ret⟩, hcall, rfl⟩ := Option.map_eq_some_iff.mp hs
        exact unmount_keeps hu hcall
  intro hkeeps
  refine ⟨?_, hunique h s hrun hkeeps⟩
  exact hrun.throughout hunique (fun _ _ _ _ _ hu _ _ => hu) hkeeps

/-- Three file systems and a number of volumes. -/
def emptyTables (volumes : Nat) : DfsState (Fin 2) Unit := ⟨List.replicate 3 unused, List.replicate volumes none⟩

/-- The board's tables, two devices, and elm as the only type. -/
def boardDfs : System (DfsState (Fin 2) Unit) (DfsCall (Fin 2) Unit) := dfsSystem [some dfsElm] 4096 3 2

/-- The device is found, and everything succeeds. -/
def allWell (device : Fin 2) : Answers (Fin 2) Unit :=
  ⟨rootPath, true, true, some device, true, some 512, some (), .ok, true, .ok, none, none⟩

/-- A mount of elm on a device. -/
def mountElm (path : List Char) : MountCall := ⟨some rootPath, .ofBuffer (path.map Char.toUInt8), dfsElm.name⟩

/-- "/m" and "n/../k" are mounted, and "/m/" is unmounted. -/
theorem mount_paths_unique_run : ∃ h s, boardDfs.Run h s ∧ s.disk = [none, some 1] ∧ UniquePaths s := by
  obtain ⟨h, s, hrun, hdisk, hkeeps⟩ := System.exists_run (S := boardDfs) (s := emptyTables 2) rfl
    [.mount (mountElm ['/', 'm']) (allWell 0), .mount (mountElm ['n', '/', '.', '.', '/', 'k']) (allWell 1),
      .unmount (.ofBuffer (['/', 'm', '/'].map Char.toUInt8)) (allWell 0)]
    (fun h s => s.disk = [none, some 1] ∧ Throughout (fun _ s a => KeepsUnique s a) h) (by decide +kernel)
  exact ⟨h, s, hrun, hdisk, ((mount_paths_unique hrun).1 hkeeps).2⟩

/-- "/m" and "/m/" are both mounted, and both entries have the path "/m". -/
theorem mounted_twice : ∃ h s, boardDfs.Run h s ∧ s.disk = [some 0, some 1] ∧ ¬ UniquePaths s := by
  obtain ⟨h, s, hrun, hdisk, htable⟩ := System.exists_run (S := boardDfs) (s := emptyTables 2) rfl
    [.mount (mountElm ['/', 'm']) (allWell 0), .mount (mountElm ['/', 'm', '/']) (allWell 1)]
    (fun h s => s.disk = [some 0, some 1] ∧
      s.table = [⟨some 0, some (mountElm ['/', 'm']).path, some dfsElm, some ()⟩,
        ⟨some 1, some (mountElm ['/', 'm']).path, some dfsElm, some ()⟩, unused]) (by decide +kernel)
  refine ⟨h, s, hrun, hdisk, ?_⟩
  intro hu
  have htwo : 0 = 1 := by
    apply hu 0 1 _ _ (mountElm ['/', 'm']).path (by rw [htable]; rfl) (by rw [htable]; rfl)
    · exact ⟨rfl, by simp⟩
    · exact ⟨rfl, by simp⟩
  exact Nat.zero_ne_one htwo

/-! ### Failed mounts -/

omit [DecidableEq δ] in
theorem Cleared.set (hc : Cleared s) {e : DfsFilesystem δ DfsFilesystemOps φ} (he : e.ops = none → e = unused)
    (htable : s'.table = s.table.set fs e) : Cleared s' := by
  intro e' he' hops
  rw [htable] at he'
  rcases List.mem_or_eq_of_mem_set he' with hmem | rfl
  · exact hc e' hmem hops
  · exact he hops

theorem cleared_run (hrun : (dfsSystem types maxSs filesystemsMax volumes).Run h s) : Cleared s := by
  refine hrun.always (I := fun _ s => Cleared s) ?_ ?_
  · rintro s rfl e he -
    exact List.eq_of_mem_replicate he
  · rintro h s a s' - hc hs
    cases a with
    | mount call ans =>
      obtain ⟨⟨s₁, ret⟩, hcall, rfl⟩ := Option.map_eq_some_iff.mp hs
      cases dfsMount_outcome hcall with
      | refused => exact hc
      | unopened => exact hc.set (fun _ => rfl) rfl
      | failed => exact hc.set (fun _ => rfl) rfl
      | mounted =>
        refine hc.set ?_ rfl
        exact fun hops => by cases hops
    | unmount specialfile ans =>
      obtain ⟨⟨s₁, ret⟩, hcall, rfl⟩ := Option.map_eq_some_iff.mp hs
      obtain htable | ⟨i, htable⟩ := dfsUnmount_table hcall
      · intro e he
        rw [htable] at he
        exact hc e he
      · exact hc.set (fun _ => rfl) htable

omit [DecidableEq δ] in
theorem table_set_unused (hc : Cleared s) (hchecks : mountChecks types s call ans = some (.ok (fs, fullpath, ops))) :
    s.table.set fs unused = s.table := by
  obtain ⟨-, -, e, he, hfree⟩ := mountChecks_ok hchecks
  obtain ⟨hlt, he⟩ := List.getElem?_eq_some_iff.mp he
  rw [← hc e (he ▸ List.getElem_mem hlt) hfree, ← he, List.set_getElem_self]

theorem getDisk_none (hdisk : getDisk disk none = some fs) : ∃ hlt : fs < disk.length, disk[fs] = none := by
  obtain ⟨hlt, hnone, -⟩ := List.findIdx?_eq_some_iff_getElem.mp hdisk
  exact ⟨hlt, by simpa using hnone⟩

theorem dfsElmMount_fails {devId : Option δ} {errno : Errno}
    (hs : dfsElmMount maxSs disk devId ans = some (disk', data, some errno)) :
    disk' = disk ↔ ¬ (devId ≠ none ∧ none ∈ disk ∧ ∃ b, ans.bytesPerSector = some b ∧ maxSs < b) := by
  unfold dfsElmMount at hs
  cases hdisk : getDisk disk none with
  | none =>
    rw [hdisk] at hs
    cases hs
    refine iff_of_true rfl ?_
    rintro ⟨-, hfree, -⟩
    have hfull := List.findIdx?_eq_none_iff.mp hdisk none hfree
    simp at hfull
  | some index =>
    obtain ⟨hlt, hnone⟩ := getDisk_none hdisk
    have hfree : none ∈ disk := hnone ▸ List.getElem_mem hlt
    have hback : (disk.set index devId).set index none = disk := by
      rw [List.set_set, ← hnone, List.set_getElem_self]
    rw [hdisk] at hs
    dsimp only at hs
    by_cases hdev : devId = none
    · rw [if_pos hdev] at hs
      cases hs
    rw [if_neg hdev] at hs
    by_cases hlarge : ∃ b ∈ ans.bytesPerSector, b > maxSs
    · rw [if_pos hlarge] at hs
      cases hs
      refine iff_of_false ?_ fun hnot => hnot ⟨hdev, hfree, hlarge⟩
      intro hsame
      apply hdev
      rw [← hnone, ← List.getElem_set_self (a := devId) (by rwa [List.length_set])]
      congr 1
    · rw [if_neg hlarge] at hs
      refine iff_of_true ?_ fun hall => hlarge hall.2.2
      split_ifs at hs
      iterate 4 exact (congrArg Prod.fst (Option.some.inj hs)).symm.trans hback
      exact absurd (congrArg (fun r => r.2.2) (Option.some.inj hs)) (by simp)

/-- In every state that is reached, when `dfs_mount` returns an error, both tables are as before the call if and only
if it has not come to `dfs_elm_mount`, with a volume that is free, for a device whose sectors are too large. -/
theorem failed_mount_unchanged {errno : Option Errno} (hrun : (dfsSystem types maxSs filesystemsMax volumes).Run h s)
    (hs : dfsMount types maxSs s call ans = some (s', .fail errno)) :
    s' = s ↔ ¬ SectorTooLarge types maxSs s call ans := by
  have hc : Cleared s := cleared_run hrun
  cases dfsMount_outcome hs with
  | refused hchecks =>
    refine iff_of_true rfl ?_
    rintro ⟨fs, fullpath, ops, b, hok, -⟩
    rw [hchecks] at hok
    cases hok
  | unopened hchecks hdev hopens =>
    refine iff_of_true ?_ ?_
    · rw [table_set_unused hc hchecks]
    · rintro ⟨-, -, -, -, -, -, -, hopened, -⟩
      rw [hopens] at hopened
      cases hopened
  | @failed fs fullpath ops impl disk data errno hchecks hopens himpl hmount =>
    rw [table_set_unused hc hchecks]
    have hstate : (⟨s.table, disk⟩ : DfsState δ φ) = s ↔ disk = s.disk := by
      constructor
      · intro hsame
        rw [← hsame]
      · rintro rfl
        rfl
    rw [hstate]
    cases impl with
    | elm =>
      rw [dfsElmMount_fails hmount]
      apply not_congr
      constructor
      · rintro ⟨hdev, hfree, b, hb, hlt⟩
        exact ⟨fs, fullpath, ops, b, hchecks, himpl, hdev, hopens hdev, hfree, hb, hlt⟩
      · rintro ⟨-, -, -, b, -, -, hdev, -, hfree, hb, hlt⟩
        exact ⟨hdev, hfree, b, hb, hlt⟩
    | other =>
      refine iff_of_true (congrArg Prod.fst (Option.some.inj hmount)).symm ?_
      rintro ⟨fs', fullpath', ops', b, hok, helm, -⟩
      rw [hchecks] at hok
      cases hok
      rw [himpl] at helm
      cases helm

/-- The root directory cannot be opened, and the tables are as before. -/
theorem failed_mount_unchanged_opendir :
    dfsMount [some dfsElm] 4096 (emptyTables 2) (mountElm ['/', 'm']) { allWell 0 with fOpendir := .noFilesystem } =
      some (emptyTables 2, .fail none) ∧
    ¬ SectorTooLarge [some dfsElm] 4096 (emptyTables 2) (mountElm ['/', 'm'])
      { allWell 0 with fOpendir := .noFilesystem } := by
  have hmount : dfsMount [some dfsElm] 4096 (emptyTables 2) (mountElm ['/', 'm'])
      { allWell 0 with fOpendir := .noFilesystem } = some (emptyTables 2, .fail none) := by decide +kernel
  have hrun : boardDfs.Run [] (emptyTables 2) := .init rfl
  exact ⟨hmount, (failed_mount_unchanged hrun hmount).mp rfl⟩

/-- With one volume, a mount fails as the sectors have 8192 bytes. The volume stays taken, and so a later mount that
would have succeeded fails. -/
theorem large_sector_keeps_volume :
    (dfsSystem [some dfsElm] 4096 3 1).init (emptyTables 1) ∧
    dfsMount [some dfsElm] 4096 (emptyTables 1) (mountElm ['/', 'm']) { allWell 0 with bytesPerSector := some 8192 } =
      some ({ emptyTables 1 with disk := [some 0] }, .fail none) ∧
    (dfsMount [some dfsElm] 4096 { emptyTables 1 with disk := [some 0] } (mountElm ['/', 'm']) (allWell 0)).map
      Prod.snd = some (.fail none) ∧
    (dfsMount [some dfsElm] 4096 (emptyTables 1) (mountElm ['/', 'm']) (allWell 0)).map Prod.snd = some .ok := by
  refine ⟨rfl, ?_, ?_, ?_⟩
  · decide +kernel
  · decide +kernel
  · decide +kernel

end calls

end ThyristorController.Filesystems
