import ThyristorController.App.Params

/-!
# Descriptors of `/params.dat` (`components/dfs`)

The way of `open`, `read`, `write` and `close` through `dfs_posix.c`, `dfs_file.c` and `dfs_elm.c` down to
FatFs, for a regular file. `dfs_elm_open` translates the flags of `open` into a mode of `f_open`, and that
mode, kept in the `FIL`, is what `f_read` and `f_write` check. A `FIL` has its own copy of the file's size
and of the sector it works on; what it changed reaches the volume when it is closed. A format renews the
mount id of the volume, and a `FIL` with an old id is refused.

`openMode_faRead` is the reason why `para_read` may read through a descriptor opened `O_WRONLY`.
-/

namespace ThyristorController

/-! ## Flags -/

/-- The flags of `open` (`libc_fcntl.h`). -/
def oWronly : UInt32 := 0o1
def oRdwr : UInt32 := 0o2
def oCreat : UInt32 := 0o100
def oExcl : UInt32 := 0o200
def oTrunc : UInt32 := 0o1000
def oAppend : UInt32 := 0o2000
def oSearch : UInt32 := 0o10000000
def oAccmode : UInt32 := 0o3 ||| oSearch

/-- The flags that `dfs_file.c` adds to those of `open`. -/
def dfsFOpen : UInt32 := 0x01000000
def dfsFEof : UInt32 := 0x04000000

/-- The mode and state bits of a `FIL` (`ff.h`, `ff.c`). -/
def faRead : UInt8 := 0x01
def faWrite : UInt8 := 0x02
def faCreateNew : UInt8 := 0x04
def faCreateAlways : UInt8 := 0x08
def faOpenAlways : UInt8 := 0x10
def faSeekend : UInt8 := 0x20
def faModified : UInt8 := 0x40
def faDirty : UInt8 := 0x80

/-- The error codes of FatFs that the calls below return. -/
inductive FResult where
  | noFile | exist | denied | invalidObject
deriving DecidableEq

inductive Errno where
  | enoent | eexist | erofs | enomem
deriving DecidableEq

/-- `elm_result_to_dfs`. -/
def elmResultToDfs : FResult → Errno
  | .noFile => .enoent
  | .exist => .eexist
  | .invalidObject => .eexist
  | .denied => .erofs

/-! ## FatFs (`ff.c`) -/

/-- The volume with `FATFS.id`, its mount id. -/
structure ElmVolume extends Volume where
  id : Nat

/-- An open file: mount id, mode and state bits, position, size, and the buffered bytes. -/
structure Fil where
  id : Nat
  flag : UInt8
  fptr : Nat
  objsize : Nat
  buf : Option (List UInt8)
deriving DecidableEq

/-- The `FIL` that `f_open` fills. -/
def newFil (id : Nat) (mode : UInt8) (bytes : List UInt8) : Fil where
  id := id
  flag := mode
  fptr := if mode &&& faSeekend ≠ 0 then bytes.length else 0
  objsize := bytes.length
  buf := none

/-- `f_open` of the file. -/
def fOpen (vol : ElmVolume) (mode : UInt8) : Except FResult (ElmVolume × Fil) :=
  let mode := mode &&& 0x3f
  if mode &&& (faCreateAlways ||| faOpenAlways ||| faCreateNew) ≠ 0 then
    match vol.params with
    | none =>
      .ok ({ vol with params := some [] }, newFil vol.id (mode ||| faCreateAlways ||| faModified) [])
    | some bytes =>
      if mode &&& faCreateNew ≠ 0 then .error .exist
      else if mode &&& faCreateAlways ≠ 0 then
        .ok ({ vol with params := some [] }, newFil vol.id (mode ||| faModified) [])
      else .ok (vol, newFil vol.id mode bytes)
  else
    match vol.params with
    | none => .error .noFile
    | some bytes => .ok (vol, newFil vol.id mode bytes)

/-- `f_read`: the bytes, or an error, and the `FIL` after it. -/
def fRead (vol : ElmVolume) (fp : Fil) (btr : Nat) : Except FResult (List UInt8) × Fil :=
  if fp.id ≠ vol.id then (.error .invalidObject, fp)
  else if fp.flag &&& faRead = 0 then (.error .denied, fp)
  else
    let buf := fp.buf.getD (vol.params.getD [])
    let bytes := ((buf.take fp.objsize).drop fp.fptr).take btr
    (.ok bytes,
      { fp with fptr := fp.fptr + bytes.length, buf := if bytes = [] then fp.buf else some buf })

/-- `f_write` of at least one byte, within the buffered sector. -/
def fWrite (vol : ElmVolume) (fp : Fil) (bytes : List UInt8) : Except FResult Nat × Fil :=
  if fp.id ≠ vol.id then (.error .invalidObject, fp)
  else if fp.flag &&& faWrite = 0 then (.error .denied, fp)
  else
    let buf := fp.buf.getD (vol.params.getD [])
    let fptr := fp.fptr + bytes.length
    (.ok bytes.length,
      { fp with
        flag := fp.flag ||| faDirty ||| faModified
        fptr := fptr
        objsize := max fp.objsize fptr
        buf := some (buf.take fp.fptr ++ bytes ++ buf.drop fptr) })

/-- `f_close`: a changed file reaches the volume, with the size this `FIL` has for it. -/
def fClose (vol : ElmVolume) (fp : Fil) : Except FResult ElmVolume :=
  if fp.id ≠ vol.id then .error .invalidObject
  else if fp.flag &&& faModified ≠ 0 then
    let bytes := if fp.flag &&& faDirty ≠ 0 then fp.buf.getD [] else vol.params.getD []
    .ok { vol with params := some (bytes.take fp.objsize) }
  else .ok vol

/-! ## The FatFs binding (`dfs_elm.c`) -/

/-- `struct dfs_fd` of a regular file. -/
structure DfsFd where
  flags : UInt32
  pos : Nat
  size : Nat
  data : Fil
deriving DecidableEq

/-- The mode `dfs_elm_open` passes to `f_open`. -/
def openMode (flags : UInt32) : UInt8 :=
  let mode := faRead
  let mode := if flags &&& oWronly ≠ 0 then mode ||| faWrite else mode
  let mode := if (flags &&& oAccmode) &&& oRdwr ≠ 0 then mode ||| faWrite else mode
  let mode := if flags &&& oCreat ≠ 0 then mode ||| faOpenAlways else mode
  let mode := if flags &&& oTrunc ≠ 0 then mode ||| faCreateAlways else mode
  if flags &&& oExcl ≠ 0 then mode ||| faCreateNew else mode

/-- `dfs_elm_open`, without `O_DIRECTORY`. -/
def dfsElmOpen (vol : ElmVolume) (flags : UInt32) : Except Errno (ElmVolume × DfsFd) :=
  match fOpen vol (openMode flags) with
  | .error e => .error (elmResultToDfs e)
  | .ok (vol, fd) =>
    let fd := if flags &&& oAppend ≠ 0 then { fd with fptr := fd.objsize } else fd
    .ok (vol, { flags := flags, pos := fd.fptr, size := fd.objsize, data := fd })

/-- `dfs_elm_read`. -/
def dfsElmRead (vol : ElmVolume) (file : DfsFd) (len : Nat) : Except Errno (List UInt8) × DfsFd :=
  let (result, fd) := fRead vol file.data len
  (result.mapError elmResultToDfs, { file with pos := fd.fptr, data := fd })

/-- `dfs_elm_write`. -/
def dfsElmWrite (vol : ElmVolume) (file : DfsFd) (bytes : List UInt8) : Except Errno Nat × DfsFd :=
  let (result, fd) := fWrite vol file.data bytes
  (result.mapError elmResultToDfs, { file with pos := fd.fptr, size := fd.objsize, data := fd })

/-- `dfs_elm_close`. -/
def dfsElmClose (vol : ElmVolume) (file : DfsFd) : Except Errno ElmVolume :=
  (fClose vol file.data).mapError elmResultToDfs

/-- `dfs_elm_mkfs`: a format takes the file away and ends the mount of the volume; `ok` is whether it
succeeds. -/
def dfsElmMkfs (vol : ElmVolume) (ok : Bool) : ElmVolume :=
  if ok then { vol with params := none, id := vol.id + 1 } else vol

/-! ## `dfs_file.c` and `dfs_posix.c` -/

/-- `dfs_file_open`: without a mounted file system the lookup of the path fails. -/
def dfsFileOpen (vol : ElmVolume) (flags : UInt32) : Except Errno (ElmVolume × DfsFd) :=
  if vol.mounted then
    match dfsElmOpen vol flags with
    | .error e => .error e
    | .ok (vol, fd) => .ok (vol, { fd with flags := fd.flags ||| dfsFOpen })
  else .error .enoent

/-- `dfs_file_read`. -/
def dfsFileRead (vol : ElmVolume) (fd : DfsFd) (len : Nat) : Except Errno (List UInt8) × DfsFd :=
  match dfsElmRead vol fd len with
  | (.error e, fd) => (.error e, { fd with flags := fd.flags ||| dfsFEof })
  | (.ok bytes, fd) => (.ok bytes, fd)

/-- `open("/params.dat", flags)`; `granted` is whether a descriptor and the memory for it are free. -/
def posixOpen (vol : ElmVolume) (granted : Bool) (flags : UInt32) : Except Errno (ElmVolume × DfsFd) :=
  if granted then dfsFileOpen vol flags else .error .enomem

/-- `read`: the buffer, which keeps its zeros where nothing is read, and the descriptor. -/
def posixRead (vol : ElmVolume) (fd : DfsFd) (len : Nat) : List UInt8 × DfsFd :=
  match dfsFileRead vol fd len with
  | (.error _, fd) => ([], fd)
  | (.ok bytes, fd) => (bytes, fd)

/-- `write`. -/
def posixWrite (vol : ElmVolume) (fd : DfsFd) (bytes : List UInt8) : DfsFd :=
  (dfsElmWrite vol fd bytes).2

/-- `close`. -/
def posixClose (vol : ElmVolume) (fd : DfsFd) : ElmVolume :=
  match dfsElmClose vol fd with
  | .error _ => vol
  | .ok vol => vol

/-! ## Flag words -/

theorem or_and_ne_zero (a b m : UInt8) : (a ||| b) &&& m ≠ 0 ↔ a &&& m ≠ 0 ∨ b &&& m ≠ 0 := by
  have hdist : (a ||| b) &&& m = (a &&& m) ||| (b &&& m) := by
    rw [← UInt8.toBitVec_inj]
    exact BitVec.and_or_distrib_right
  rw [hdist, Ne, UInt8.or_eq_zero_iff, not_and_or]

theorem orIf_and_ne_zero {c : Prop} [Decidable c] (a b m : UInt8) :
    (if c then a ||| b else a) &&& m ≠ 0 ↔ a &&& m ≠ 0 ∨ c ∧ b &&& m ≠ 0 := by
  by_cases hc : c
  · rw [if_pos hc, or_and_ne_zero, and_iff_right hc]
  · rw [if_neg hc, or_iff_left fun h => hc h.1]

/-! ## What the modes allow -/

theorem openMode_and_ne_zero (flags : UInt32) (m : UInt8) :
    openMode flags &&& m ≠ 0 ↔ ((((faRead &&& m ≠ 0 ∨ flags &&& oWronly ≠ 0 ∧ faWrite &&& m ≠ 0) ∨
      flags &&& oAccmode &&& oRdwr ≠ 0 ∧ faWrite &&& m ≠ 0) ∨ flags &&& oCreat ≠ 0 ∧ faOpenAlways &&& m ≠ 0) ∨
      flags &&& oTrunc ≠ 0 ∧ faCreateAlways &&& m ≠ 0) ∨ flags &&& oExcl ≠ 0 ∧ faCreateNew &&& m ≠ 0 := by
  simp only [openMode, orIf_and_ne_zero]

theorem openMode_faRead (flags : UInt32) : openMode flags &&& faRead ≠ 0 := by
  rw [openMode_and_ne_zero]
  exact .inl (.inl (.inl (.inl (.inl (by decide)))))

theorem openMode_faWrite (flags : UInt32) :
    openMode flags &&& faWrite ≠ 0 ↔ flags &&& oWronly ≠ 0 ∨ (flags &&& oAccmode) &&& oRdwr ≠ 0 := by
  have hbits : faWrite &&& faWrite ≠ 0 ∧ faRead &&& faWrite = 0 ∧ faOpenAlways &&& faWrite = 0 ∧
      faCreateAlways &&& faWrite = 0 ∧ faCreateNew &&& faWrite = 0 := by decide
  obtain ⟨hset, hread, halways, hcreate, hnew⟩ := hbits
  simp only [openMode_and_ne_zero, hset, hread, halways, hcreate, hnew, ne_eq, not_true, not_false_iff,
    and_true, and_false, or_false, false_or]

theorem openMode_faCreateAlways (flags : UInt32) :
    openMode flags &&& faCreateAlways ≠ 0 ↔ flags &&& oTrunc ≠ 0 := by
  have hbits : faCreateAlways &&& faCreateAlways ≠ 0 ∧ faRead &&& faCreateAlways = 0 ∧
      faWrite &&& faCreateAlways = 0 ∧ faOpenAlways &&& faCreateAlways = 0 ∧
      faCreateNew &&& faCreateAlways = 0 := by decide
  obtain ⟨hset, hread, hwrite, halways, hnew⟩ := hbits
  simp only [openMode_and_ne_zero, hset, hread, hwrite, halways, hnew, ne_eq, not_true, not_false_iff,
    and_true, and_false, or_false, false_or]

/-! ## What the calls do -/

section calls

variable {vol : ElmVolume} {fd : DfsFd} {bytes buf : List UInt8}

theorem fOpen_frame {mode : UInt8} {vol' : ElmVolume} {fp : Fil} (h : fOpen vol mode = .ok (vol', fp)) :
    vol'.mounted = vol.mounted ∧ vol'.id = vol.id ∧ vol'.params ≠ none := by
  unfold fOpen at h
  dsimp only at h
  cases hp : vol.params with
  | none =>
    simp only [hp] at h
    split_ifs at h
    obtain ⟨rfl, -⟩ := Prod.mk.inj (Except.ok.inj h)
    exact ⟨rfl, rfl, by simp⟩
  | some bytes =>
    simp only [hp] at h
    split_ifs at h <;> obtain ⟨rfl, -⟩ := Prod.mk.inj (Except.ok.inj h)
    · exact ⟨rfl, rfl, by simp⟩
    · exact ⟨rfl, rfl, by simp [hp]⟩
    · exact ⟨rfl, rfl, by simp [hp]⟩

theorem posixOpen_frame {granted : Bool} {flags : UInt32} {vol' : ElmVolume}
    (h : posixOpen vol granted flags = .ok (vol', fd)) :
    vol'.mounted = vol.mounted ∧ vol'.id = vol.id ∧ vol'.params ≠ none := by
  unfold posixOpen dfsFileOpen dfsElmOpen at h
  cases hopen : fOpen vol (openMode flags) with
  | error e =>
    rw [hopen] at h
    split_ifs at h
  | ok r =>
    rw [hopen] at h
    split_ifs at h <;> obtain ⟨rfl, -⟩ := Prod.mk.inj (Except.ok.inj h) <;> exact fOpen_frame hopen

theorem posixRead_frame (vol : ElmVolume) (fd : DfsFd) (len : Nat) :
    (posixRead vol fd len).2.data.id = fd.data.id ∧ (posixRead vol fd len).2.data.flag = fd.data.flag ∧
      (posixRead vol fd len).2.data.objsize = fd.data.objsize := by
  unfold posixRead dfsFileRead dfsElmRead fRead
  split_ifs <;> exact ⟨rfl, rfl, rfl⟩

/-- A readable descriptor at the start of the file reads the bytes of the volume, up to the size that its
`FIL` has for the file. -/
theorem posixRead_start (hid : fd.data.id = vol.id) (hflag : fd.data.flag &&& faRead ≠ 0)
    (hpos : fd.data.fptr = 0) (hbuf : fd.data.buf = none) (len : Nat) :
    (posixRead vol fd len).1 = ((vol.params.getD []).take fd.data.objsize).take len := by
  unfold posixRead dfsFileRead dfsElmRead fRead
  rw [if_neg (not_not.mpr hid), if_neg hflag, hpos, hbuf]
  rfl

/-- A write at the start of the file replaces the first bytes of what the volume holds. -/
theorem posixWrite_start (hid : fd.data.id = vol.id) (hflag : fd.data.flag &&& faWrite ≠ 0)
    (hpos : fd.data.fptr = 0) (hbuf : fd.data.buf = none) (bytes : List UInt8) :
    (posixWrite vol fd bytes).data =
      { id := vol.id
        flag := fd.data.flag ||| faDirty ||| faModified
        fptr := bytes.length
        objsize := max fd.data.objsize bytes.length
        buf := some (bytes ++ (vol.params.getD []).drop bytes.length) } := by
  unfold posixWrite dfsElmWrite fWrite
  rw [if_neg (not_not.mpr hid), if_neg hflag, hpos, hbuf]
  simp [hid]

theorem written_flag (flag : UInt8) :
    (flag ||| faDirty ||| faModified) &&& faModified ≠ 0 ∧
      (flag ||| faDirty ||| faModified) &&& faDirty ≠ 0 := by
  have hdirty : (flag ||| faDirty) &&& faDirty ≠ 0 := (or_and_ne_zero _ _ _).mpr (.inr (by decide))
  exact ⟨(or_and_ne_zero _ _ _).mpr (.inr (by decide)), (or_and_ne_zero _ _ _).mpr (.inl hdirty)⟩

theorem posixClose_unmodified (vol : ElmVolume) (hflag : fd.data.flag &&& faModified = 0) :
    posixClose vol fd = vol := by
  unfold posixClose dfsElmClose fClose
  by_cases hid : fd.data.id = vol.id
  · rw [if_neg (not_not.mpr hid), if_neg (not_not.mpr hflag)]
    rfl
  · rw [if_pos hid]
    rfl

theorem posixClose_dirty (hid : fd.data.id = vol.id) (hmodified : fd.data.flag &&& faModified ≠ 0)
    (hdirty : fd.data.flag &&& faDirty ≠ 0) (hbuf : fd.data.buf = some buf) :
    posixClose vol fd = { vol with params := some (buf.take fd.data.objsize) } := by
  unfold posixClose dfsElmClose fClose
  rw [if_neg (not_not.mpr hid), if_pos hmodified, if_pos hdirty, hbuf]
  rfl

/-- Closing a descriptor that has created or truncated the file, and not written to it, sets the file
back to the size that its `FIL` has for it. -/
theorem posixClose_clean (vol : ElmVolume) (hid : fd.data.id = vol.id)
    (hmodified : fd.data.flag &&& faModified ≠ 0) (hclean : fd.data.flag &&& faDirty = 0) :
    posixClose vol fd = { vol with params := some ((vol.params.getD []).take fd.data.objsize) } := by
  unfold posixClose dfsElmClose fClose
  rw [if_neg (not_not.mpr hid), if_pos hmodified, if_neg (not_not.mpr hclean)]
  rfl

/-- A write at the start and a close, with other calls on the volume between them. -/
theorem posixClose_posixWrite (hid : fd.data.id = vol.id) (hflag : fd.data.flag &&& faWrite ≠ 0)
    (hpos : fd.data.fptr = 0) (hbuf : fd.data.buf = none) (bytes : List UInt8) {vol' : ElmVolume}
    (hid' : vol'.id = vol.id) :
    posixClose vol' (posixWrite vol fd bytes) =
      { vol' with
        params := some ((bytes ++ (vol.params.getD []).drop bytes.length).take
          (max fd.data.objsize bytes.length)) } := by
  have hdata := posixWrite_start hid hflag hpos hbuf bytes
  have hbits := written_flag fd.data.flag
  rw [posixClose_dirty (by rw [hdata, hid']) (by rw [hdata]; exact hbits.1) (by rw [hdata]; exact hbits.2)
    (by rw [hdata]), hdata]

theorem posixClose_frame (vol : ElmVolume) (fd : DfsFd) :
    (posixClose vol fd).mounted = vol.mounted ∧ (posixClose vol fd).id = vol.id ∧
      (vol.params ≠ none → (posixClose vol fd).params ≠ none) := by
  unfold posixClose dfsElmClose fClose
  by_cases hid : fd.data.id = vol.id
  · rw [if_neg (not_not.mpr hid)]
    by_cases hm : fd.data.flag &&& faModified ≠ 0
    · rw [if_pos hm]
      exact ⟨rfl, rfl, fun _ => by simp [Except.mapError]⟩
    · rw [if_neg hm]
      exact ⟨rfl, rfl, id⟩
  · rw [if_pos hid]
    exact ⟨rfl, rfl, id⟩

end calls

end ThyristorController
