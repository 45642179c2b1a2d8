import ThyristorController.Lib.Counting
import ThyristorController.Lib.Run
import Mathlib.Data.Fintype.Basic
import Mathlib.Logic.Function.Basic

/-!
# The table of file descriptors (`components/dfs/src/dfs.c`, `dfs_posix.c`, `dfs_file.c`)

`open`, `close`, `read` and `write` of any number of threads. `fd_new`, `fd_get` and `fd_put` run under the lock of the
file systems and are one step each; the call of an operation of the file system and its return are steps of their own,
between which other threads run. The memory of a descriptor that is not in the table belongs to other users of the
heap, who may write to it (`reuse`).

`close` drops the reference of its own `fd_get`, and the one that `fd_new` made. The call of the file system depends on
neither: two threads that close one descriptor, or one that closes while another one reads, meet no test
(`close_races`). `descriptor_life_time` says what the callers have to do for the references to be right;
`proper_of_oneAtATime` says that it is enough to close a descriptor once and to make one call with it at a time.
-/

namespace ThyristorController.Descriptors

open Transition

/-! ## The table -/

/-- Which operations a file system has. -/
structure FileOps where
  open' : Bool
  close : Bool
  read : Bool
  write : Bool
deriving DecidableEq

/-- `struct dfs_fd`. -/
structure DfsFd where
  magic : UInt16
  refCount : Int
  fops : Option FileOps
deriving DecidableEq

/-- `DFS_FD_MAGIC`. -/
def dfsFdMagic : UInt16 := 0xfdfd

inductive Access where
  | read | write
deriving DecidableEq

def FileOps.has (f : FileOps) : Access → Bool
  | .read => f.read
  | .write => f.write

/-- Where a thread is in a call while it has a descriptor: before the operation of the file system, in it, or before
one of the calls of `fd_put`. -/
inductive Point where
  | openFile | opening | openPut | failPut | failPut2
  | closeFile | closing | closePut | closePut2 | closeFail
  | accessFile (op : Access) | accessing (op : Access) | accessPut
deriving DecidableEq

/-- A thread in `open` between `fd_new` and `fd_get` has the number of a descriptor; behind `fd_get` it has the
structure, too. A failed assertion halts the thread. -/
inductive FdPc where
  | idle
  | newFd (fd : Nat)
  | at (p : Point) (fd d : Nat)
  | halted
deriving DecidableEq

/-- The memory of descriptors, by address; the table, indexed by the numbers without `DFS_FD_OFFSET`. -/
structure FdState (τ : Type) where
  mem : Nat → DfsFd
  fds : Nat → Option Nat
  maxfd : Nat
  pc : τ → FdPc

variable {τ : Type} [DecidableEq τ]

namespace FdState

/-- The address is that of a descriptor in the table. -/
def Allocated (s : FdState τ) (d : Nat) : Prop := ∃ fd < s.maxfd, s.fds fd = some d

instance (s : FdState τ) (d : Nat) : Decidable (s.Allocated d) :=
  decidable_of_iff (∃ fd, fd < s.maxfd ∧ s.fds fd = some d) Iff.rfl

def setMem (s : FdState τ) (d : Nat) (v : DfsFd) : FdState τ := { s with mem := Function.update s.mem d v }

def setPc (s : FdState τ) (t : τ) (pc : FdPc) : FdState τ := { s with pc := Function.update s.pc t pc }

/-- "find an empty fd entry". -/
def findEmpty (s : FdState τ) : Nat :=
  ((List.range s.maxfd).find? fun fd => (s.fds fd).all fun d => (s.mem d).refCount = 0).getD s.maxfd

/-- "increase the number of FD with 4 step length". -/
def enlarge (fdMax : Nat) (s : FdState τ) : FdState τ :=
  { s with
    fds := fun fd => if s.maxfd ≤ fd ∧ fd < min (s.maxfd + 4) fdMax then none else s.fds fd
    maxfd := min (s.maxfd + 4) fdMax }

/-- `fd_alloc`; `realloc` is whether `rt_realloc` succeeds, `calloc` the address that `rt_calloc` returns. -/
def fdAlloc (fdMax : Nat) (s : FdState τ) (realloc : Bool) (calloc : Option Nat) : FdState τ × Nat :=
  let idx := s.findEmpty
  if idx = s.maxfd ∧ s.maxfd < fdMax ∧ realloc = false then (s, idx)
  else
    let s := if idx = s.maxfd ∧ s.maxfd < fdMax then s.enlarge fdMax else s
    if idx < s.maxfd ∧ s.fds idx = none then
      match calloc with
      | none => (s, s.maxfd)
      | some d => ({ s with fds := Function.update s.fds idx (some d) }.setMem d ⟨0, 0, none⟩, idx)
    else (s, idx)

/-- `fd_new`. -/
def fdNew (fdMax : Nat) (s : FdState τ) (realloc : Bool) (calloc : Option Nat) : FdState τ × Option Nat :=
  let (s, idx) := s.fdAlloc fdMax realloc calloc
  if idx = s.maxfd then (s, none)
  else
    match s.fds idx with
    | some d => (s.setMem d { s.mem d with refCount := 1, magic := dfsFdMagic }, some idx)
    | none => (s, none)

/-- The descriptor that `fd_get` finds. -/
def lookup (s : FdState τ) (fd : Nat) : Option Nat :=
  if fd ≥ s.maxfd then none else (s.fds fd).filter fun d => (s.mem d).magic = dfsFdMagic

/-- `fd_get`, of a descriptor that is found. -/
def ref (s : FdState τ) (d : Nat) : FdState τ := s.setMem d { s.mem d with refCount := (s.mem d).refCount + 1 }

/-- `fd_put`. -/
def fdPut (s : FdState τ) (d : Nat) : FdState τ :=
  let s := s.setMem d { s.mem d with refCount := (s.mem d).refCount - 1 }
  if (s.mem d).refCount = 0 then
    match (List.range s.maxfd).find? fun fd => s.fds fd = some d with
    | some fd => { s with fds := Function.update s.fds fd none }
    | none => s
  else s

end FdState

/-! ## The system -/

/-- What a thread calls with the number of a descriptor. -/
inductive Call where
  | close
  | access (op : Access)
deriving DecidableEq

/-- `fdNew` and `fdGet` are the beginning of `open`, and `call` that of the other calls; `enter` is what follows up to
the call of the file system, with the operations of the file system that `dfs_file_open` finds, if any; `leave` is the
return of the file system, with its success. -/
inductive FdAction (τ : Type) where
  | fdNew (t : τ) (realloc : Bool) (calloc : Option Nat)
  | fdGet (t : τ)
  | call (t : τ) (fd : Nat) (c : Call)
  | enter (t : τ) (fops : Option FileOps)
  | leave (t : τ) (ok : Bool)
  | fdPut (t : τ)
  | reuse (d : Nat) (v : DfsFd)

def Call.point : Call → Point
  | .close => .closeFile
  | .access op => .accessFile op

/-- `dfs_file_open`, `dfs_file_close`, `dfs_file_read` or `dfs_file_write` up to the call of the file system, with the
operations of the descriptor. -/
def enterPoint (fops : FileOps) : Point → Option Point
  | .openFile => some (if fops.open' then .opening else .failPut)
  | .closeFile => some (if fops.close then .closing else .closePut)
  | .accessFile op => some (if fops.has op then .accessing op else .accessPut)
  | _ => none

/-- The return of the file system. -/
def leavePoint (ok : Bool) : Point → Option Point
  | .opening => some (if ok then .openPut else .failPut)
  | .closing => some (if ok then .closePut else .closeFail)
  | .accessing _ => some .accessPut
  | _ => none

/-- What follows an `fd_put`: another one, or the return. -/
def putPoint : Point → Option (Option Point)
  | .failPut => some (some .failPut2)
  | .closePut => some (some .closePut2)
  | .openPut | .failPut2 | .closePut2 | .closeFail | .accessPut => some none
  | _ => none

def fdStep (fdMax : Nat) (s : FdState τ) : FdAction τ → Option (FdState τ)
  | .fdNew t realloc calloc =>
    if s.pc t = .idle ∧ ∀ d ∈ calloc, ¬ s.Allocated d then
      match s.fdNew fdMax realloc calloc with
      | (s, some fd) => some (s.setPc t (.newFd fd))
      | (s, none) => some s
    else none
  | .fdGet t =>
    match s.pc t with
    | .newFd fd =>
      match s.lookup fd with
      | some d => some ((s.ref d).setPc t (.at .openFile fd d))
      | none => some (s.setPc t .halted)
    | _ => none
  | .call t fd c =>
    if s.pc t = .idle then
      match s.lookup fd with
      | some d => some ((s.ref d).setPc t (.at c.point fd d))
      | none => some s
    else none
  | .enter t fops =>
    match s.pc t with
    | .at .openFile fd d =>
      match fops with
      | none => some (s.setPc t (.at .failPut fd d))
      | some f =>
        (enterPoint f .openFile).map fun p =>
          (s.setMem d { s.mem d with fops := some f }).setPc t (.at p fd d)
    | .at p fd d => (s.mem d).fops.bind fun f => (enterPoint f p).map fun p => s.setPc t (.at p fd d)
    | _ => none
  | .leave t ok =>
    match s.pc t with
    | .at p fd d => (leavePoint ok p).map fun p => s.setPc t (.at p fd d)
    | _ => none
  | .fdPut t =>
    match s.pc t with
    | .at p fd d =>
      (putPoint p).map fun next => (s.fdPut d).setPc t (next.elim .idle fun p => .at p fd d)
    | _ => none
  | .reuse d v => if s.Allocated d then none else some (s.setMem d v)

/-- The table behind `dfs_init`; `fdMax` is `DFS_FD_MAX`. -/
def descriptors (τ : Type) [DecidableEq τ] (fdMax : Nat) : System (FdState τ) (FdAction τ) where
  init s := s.maxfd = 0 ∧ (∀ fd, s.fds fd = none) ∧ ∀ t, s.pc t = .idle
  step := fdStep fdMax

/-! ## The life of a descriptor -/

/-- What happens to a descriptor: `fd_new` makes it, a call of `close` or of `read` or `write` obtains it, the file
system is called to close it, the reference of `fd_new` is dropped. -/
inductive Mark where
  | made | closer | accessor | closed | dropped
deriving DecidableEq

/-- What a step does to which descriptor. -/
def mark (fdMax : Nat) (s : FdState τ) : FdAction τ → Option (Mark × Nat)
  | .fdNew _ realloc calloc =>
    let (s, fd) := s.fdNew fdMax realloc calloc
    (fd.bind s.fds).map (.made, ·)
  | .call _ fd .close => (s.lookup fd).map (.closer, ·)
  | .call _ fd (.access _) => (s.lookup fd).map (.accessor, ·)
  | .enter t _ =>
    match s.pc t with
    | .at .closeFile _ d => if (s.mem d).fops.any (·.close) then some (.closed, d) else none
    | _ => none
  | .fdPut t =>
    match s.pc t with
    | .at .failPut2 _ d => some (.dropped, d)
    | .at .closePut2 _ d => some (.dropped, d)
    | _ => none
  | _ => none

/-- Since `fd_new`: how many calls of `close` have obtained the descriptor, how often the file system was called to
close it, and whether the reference of `fd_new` has been dropped. -/
structure Life where
  closers : Nat
  calls : Nat
  dropped : Bool
deriving DecidableEq

def Life.next (l : Life) : Mark → Life
  | .made => ⟨0, 0, false⟩
  | .closer => { l with closers := l.closers + 1 }
  | .accessor => l
  | .closed => { l with calls := l.calls + 1 }
  | .dropped => { l with dropped := true }

def life (fdMax : Nat) (d : Nat) : History (FdState τ) (FdAction τ) → Life
  | [] => ⟨0, 0, false⟩
  | (s, a) :: h =>
    match mark fdMax s a with
    | some (m, d') => if d' = d then (life fdMax d h).next m else life fdMax d h
    | none => life fdMax d h

/-- The slot that `fd_new` takes. -/
def slotTaken (fdMax : Nat) (s : FdState τ) : FdAction τ → Option Nat
  | .fdNew _ realloc calloc => (s.fdNew fdMax realloc calloc).2
  | _ => none

/-- The slot of the descriptor that a thread has a reference to. -/
def FdPc.slot : FdPc → Option Nat
  | .newFd fd => some fd
  | .at _ fd _ => some fd
  | _ => none

/-- The thread is in `open`. -/
def Point.inOpen : Point → Bool
  | .openFile | .opening | .openPut | .failPut | .failPut2 => true
  | _ => false

/-- The thread is in `close`. -/
def Point.inClose : Point → Bool
  | .closeFile | .closing | .closePut | .closePut2 | .closeFail => true
  | _ => false

/-- The operation of a `read` or `write` is to come, or under way. -/
def Point.accesses : Point → Bool
  | .accessFile _ | .accessing _ => true
  | _ => false

def FdPc.accesses (d : Nat) : FdPc → Bool
  | .at p _ d' => d' = d && p.accesses
  | _ => false

/-- The file system is closing the descriptor. -/
def FdPc.closing (d : Nat) : FdPc → Bool
  | .at p _ d' => d' = d && p = .closing
  | _ => false

/-- The thread is in the call of `open` that made the descriptor. -/
def FdState.opens (s : FdState τ) (d : Nat) (t : τ) : Bool :=
  match s.pc t with
  | .newFd fd => s.fds fd = some d
  | .at p _ d' => d' = d && p.inOpen
  | _ => false

/-- The descriptor that a step marks. -/
def marked (m : Mark) (fdMax : Nat) (s : FdState τ) (a : FdAction τ) : Option Nat :=
  (mark fdMax s a).bind fun x => if x.1 = m then some x.2 else none

/-- How the callers use a descriptor. `close` obtains it only if the `open` that made it has returned with success and
no other `close` has obtained it; `close` calls the file system only when no `read` or `write` of it is to come or
under way; and none obtains it while the file system closes it. -/
abbrev Proper (fdMax : Nat) (h : History (FdState τ) (FdAction τ)) (s : FdState τ) (a : FdAction τ) : Prop :=
  (∀ d ∈ marked .closer fdMax s a, (life fdMax d h).closers = 0 ∧ (life fdMax d h).dropped = false ∧
    ∀ u, s.opens d u = false) ∧
  (∀ d ∈ marked .closed fdMax s a, ∀ u, (s.pc u).accesses d = false) ∧
  ∀ d ∈ marked .accessor fdMax s a, ∀ u, (s.pc u).closing d = false

/-! ## `fd_new` and `fd_put` -/

section table

omit [DecidableEq τ]

variable {fdMax : Nat} {s s' : FdState τ} {fd d : Nat} {realloc : Bool} {calloc : Option Nat}

@[simp] theorem setMem_self (s : FdState τ) (d : Nat) (v : DfsFd) : (s.setMem d v).mem d = v :=
  Function.update_self _ _ _

theorem setMem_of_ne {e : Nat} (s : FdState τ) (v : DfsFd) (he : e ≠ d) : (s.setMem d v).mem e = s.mem e :=
  Function.update_of_ne he _ _

theorem findEmpty_le : s.findEmpty ≤ s.maxfd := by
  unfold FdState.findEmpty
  cases hfind : (List.range s.maxfd).find? fun fd => (s.fds fd).all fun d => (s.mem d).refCount = 0 with
  | none => exact Nat.le_refl _
  | some fd => exact Nat.le_of_lt (List.mem_range.mp (List.mem_of_find?_eq_some hfind))

theorem findEmpty_free (hlt : s.findEmpty < s.maxfd) (hd : s.fds s.findEmpty = some d) : (s.mem d).refCount = 0 := by
  unfold FdState.findEmpty at hlt hd
  cases hfind : (List.range s.maxfd).find? fun fd => (s.fds fd).all fun d => (s.mem d).refCount = 0 with
  | none =>
    rw [hfind] at hlt
    exact absurd hlt (Nat.lt_irrefl _)
  | some fd =>
    rw [hfind, Option.getD_some] at hd
    have hall := List.find?_some hfind
    rw [hd] at hall
    simpa using hall

/-- The entries of a table that may have grown, apart from one slot, are those of the old one. -/
structure Grown (s s' : FdState τ) (idx : Nat) : Prop where
  pc : s'.pc = s.pc
  le : s.maxfd ≤ s'.maxfd
  fds : ∀ i < s'.maxfd, i ≠ idx → ∀ d, s'.fds i = some d ↔ i < s.maxfd ∧ s.fds i = some d

theorem grown_refl (s : FdState τ) (idx : Nat) : Grown s s idx where
  pc := rfl
  le := Nat.le_refl _
  fds _ hi _ _ := ⟨fun h => ⟨hi, h⟩, fun h => h.2⟩

theorem grown_enlarge (hlt : s.maxfd < fdMax) (idx : Nat) : Grown s (s.enlarge fdMax) idx where
  pc := rfl
  le := by
    show s.maxfd ≤ min (s.maxfd + 4) fdMax
    omega
  fds i hi _ d := by
    show (if s.maxfd ≤ i ∧ i < min (s.maxfd + 4) fdMax then none else s.fds i) = some d ↔ _
    have hi : i < min (s.maxfd + 4) fdMax := hi
    by_cases hnew : s.maxfd ≤ i
    · rw [if_pos ⟨hnew, hi⟩]
      exact ⟨fun h => by contradiction, fun h => absurd h.1 (by omega)⟩
    · rw [if_neg (fun h => hnew h.1)]
      exact ⟨fun h => ⟨by omega, h⟩, fun h => h.2⟩

theorem Grown.set {idx : Nat} (h : Grown s s' idx) (e : Option Nat) (d : Nat) (v : DfsFd) :
    Grown s ({ s' with fds := Function.update s'.fds idx e }.setMem d v) idx where
  pc := h.pc
  le := h.le
  fds i hi hne d := by
    show Function.update s'.fds idx e i = some d ↔ _
    rw [Function.update_of_ne hne]
    exact h.fds i hi hne d

/-- What `fd_alloc` does: it finds nothing; it takes an old structure without references, or a new one. -/
inductive Alloc (s : FdState τ) (calloc : Option Nat) : FdState τ × Nat → Prop where
  | fail (s' : FdState τ) (hg : Grown s s' s'.maxfd) (hmem : s'.mem = s.mem) : Alloc s calloc (s', s'.maxfd)
  | old (d : Nat) (hlt : s.findEmpty < s.maxfd) (hd : s.fds s.findEmpty = some d) (h0 : (s.mem d).refCount = 0) :
      Alloc s calloc (s, s.findEmpty)
  | new (s' : FdState τ) (d : Nat) (hg : Grown s s' s.findEmpty) (hlt : s.findEmpty < s'.maxfd)
      (hcalloc : calloc = some d) (hold : s.findEmpty < s.maxfd → s.fds s.findEmpty = none)
      (hd : s'.fds s.findEmpty = some d) (hmem : s'.mem = Function.update s.mem d ⟨0, 0, none⟩) :
      Alloc s calloc (s', s.findEmpty)

theorem alloc_empty (hg : ∀ idx, Grown s s' idx) (hmem : s'.mem = s.mem) (hlt : s.findEmpty < s'.maxfd)
    (hold : s.findEmpty < s.maxfd → s.fds s.findEmpty = none) : Alloc s calloc (match calloc with
      | none => (s', s'.maxfd)
      | some d =>
        ({ s' with fds := Function.update s'.fds s.findEmpty (some d) }.setMem d ⟨0, 0, none⟩, s.findEmpty)) := by
  cases calloc with
  | none => exact .fail s' (hg _) hmem
  | some d =>
    refine .new _ d ((hg _).set _ _ _) hlt rfl hold (Function.update_self _ _ _) ?_
    show Function.update s'.mem d _ = _
    rw [hmem]

theorem fdAlloc_spec : Alloc s calloc (s.fdAlloc fdMax realloc calloc) := by
  unfold FdState.fdAlloc
  rcases Nat.lt_or_eq_of_le (findEmpty_le (s := s)) with hlt | heq
  · have hno : ¬ (s.findEmpty = s.maxfd ∧ s.maxfd < fdMax) := by omega
    dsimp only
    rw [if_neg (fun h => hno ⟨h.1, h.2.1⟩), if_neg hno]
    cases hd : s.fds s.findEmpty with
    | none =>
      rw [if_pos ⟨hlt, rfl⟩]
      exact alloc_empty (grown_refl s) rfl hlt fun _ => hd
    | some d =>
      rw [if_neg (fun h => by simpa using h.2)]
      exact .old d hlt hd (findEmpty_free hlt hd)
  · dsimp only
    by_cases hroom : s.maxfd < fdMax
    · cases realloc with
      | false =>
        rw [if_pos ⟨heq, hroom, rfl⟩, heq]
        exact .fail s (grown_refl s _) rfl
      | true =>
        have hyes : s.findEmpty = s.maxfd ∧ s.maxfd < fdMax := ⟨heq, hroom⟩
        rw [if_neg (fun h => by simpa using h.2.2), if_pos hyes]
        have hlt : s.findEmpty < (s.enlarge fdMax).maxfd := by
          show _ < min (s.maxfd + 4) fdMax
          omega
        have hnone : (s.enlarge fdMax).fds s.findEmpty = none := if_pos ⟨by omega, hlt⟩
        rw [if_pos ⟨hlt, hnone⟩]
        exact alloc_empty (grown_enlarge hroom) rfl hlt fun h => absurd h (by omega)
    · have hno : ¬ (s.findEmpty = s.maxfd ∧ s.maxfd < fdMax) := fun h => hroom h.2
      rw [if_neg (fun h => hroom h.2.1), if_neg hno, if_neg (fun h => absurd h.1 (by omega)), heq]
      exact .fail s (grown_refl s _) rfl

/-- What `fd_new` does. -/
inductive New (s : FdState τ) (calloc : Option Nat) : FdState τ × Option Nat → Prop where
  | fail (s' : FdState τ) (hg : Grown s s' s'.maxfd) (hmem : s'.mem = s.mem) : New s calloc (s', none)
  | made (s' : FdState τ) (fd d : Nat) (hg : Grown s s' fd) (hlt : fd < s'.maxfd) (hd : s'.fds fd = some d)
      (hmagic : (s'.mem d).magic = dfsFdMagic) (href : (s'.mem d).refCount = 1) (hmem : ∀ e ≠ d, s'.mem e = s.mem e)
      (hfree : fd < s.maxfd → ∀ e, s.fds fd = some e → (s.mem e).refCount = 0)
      (hnew : calloc = some d ∨ fd < s.maxfd ∧ s.fds fd = some d) : New s calloc (s', some fd)

theorem fdNew_spec : New s calloc (s.fdNew fdMax realloc calloc) := by
  have halloc : Alloc s calloc (s.fdAlloc fdMax realloc calloc) := fdAlloc_spec
  unfold FdState.fdNew
  generalize s.fdAlloc fdMax realloc calloc = r at halloc
  cases halloc with
  | fail s' hg hmem =>
    dsimp only
    rw [if_pos rfl]
    exact .fail s' hg hmem
  | old d hlt hd h0 =>
    dsimp only
    rw [if_neg (Nat.ne_of_lt hlt), hd]
    refine .made _ _ d ⟨rfl, Nat.le_refl _, (grown_refl s _).fds⟩ hlt hd ?_ ?_ ?_ ?_ (.inr ⟨hlt, hd⟩)
    · rw [setMem_self]
    · rw [setMem_self]
    · exact fun e he => setMem_of_ne _ _ he
    · intro _ e he
      obtain rfl := Option.some.inj (hd.symm.trans he)
      exact h0
  | new s' d hg hlt hcalloc hold hd hmem =>
    dsimp only
    rw [if_neg (Nat.ne_of_lt hlt), hd]
    refine .made _ _ d ⟨hg.pc, hg.le, hg.fds⟩ hlt hd ?_ ?_ ?_ ?_ (.inl hcalloc)
    · rw [setMem_self]
    · rw [setMem_self]
    · intro e he
      rw [setMem_of_ne _ _ he, hmem, Function.update_of_ne he]
    · intro hlt e he
      rw [hold hlt] at he
      contradiction

end table

/-! ## The references -/

/-- The thread has a reference of its own; before the last `fd_put` of `close`, and of an `open` that fails, it has the
one that `fd_new` made. -/
def Point.owns : Point → Bool
  | .failPut2 | .closePut2 => false
  | _ => true

/-- The owners of the references of a descriptor: the threads, and nobody for the one that `fd_new` made. -/
def FdState.Owns (s : FdState τ) (dropped : Bool) (d : Nat) : Option τ → Prop
  | none => dropped = false
  | some t => ∃ p fd, s.pc t = .at p fd d ∧ p.owns = true

/-- The thread may drop the reference that `fd_new` made. -/
def Point.claims (p : Point) : Bool := p.inOpen || p.inClose

/-- The thread is in a call that may drop the reference that `fd_new` made. -/
def FdPc.claims (fd : Nat) : FdPc → Bool
  | .newFd fd' => fd' = fd
  | .at p fd' _ => fd' = fd && p.claims
  | _ => false

/-- Where a thread can be, in the life of its descriptor. -/
structure Fits (p : Point) (l : Life) : Prop where
  inOpen : p.inOpen = true → l = ⟨0, 0, false⟩
  inClose : p.inClose = true → l.closers = 1 ∧ l.dropped = false
  closeFile : p = .closeFile → l.calls = 0

/-- The count of every descriptor is the number of its references, and only one thread may drop the one that `fd_new`
made. -/
structure Counted (L : Nat → Life) (s : FdState τ) : Prop where
  inj : ∀ i < s.maxfd, ∀ j < s.maxfd, ∀ d, s.fds i = some d → s.fds j = some d → i = j
  entry : ∀ i < s.maxfd, ∀ d, s.fds i = some d → (s.mem d).magic = dfsFdMagic ∧ 0 < (s.mem d).refCount ∧
    Counts (s.Owns (L d).dropped d) (s.mem d).refCount
  newFd : ∀ t fd, s.pc t = .newFd fd → fd < s.maxfd ∧ ∃ d, s.fds fd = some d ∧ L d = ⟨0, 0, false⟩
  at' : ∀ t p fd d, s.pc t = .at p fd d → fd < s.maxfd ∧ s.fds fd = some d ∧ Fits p (L d)
  claim : ∀ t u fd, (s.pc t).claims fd = true → (s.pc u).claims fd = true → t = u
  once : ∀ d, (L d).closers ≤ 1 ∧ (L d).calls ≤ (L d).closers
  apart : ∀ t u d, (s.pc t).closing d = true → (s.pc u).accesses d = false

section invariant

variable {L : Nat → Life} {s s' : FdState τ} {t u : τ} {fd d : Nat} {p p' : Point}

omit [DecidableEq τ] in
theorem counted_init (hmax : s.maxfd = 0) (hpc : ∀ t, s.pc t = .idle) :
    Counted (fun _ => ⟨0, 0, false⟩) s := by
  refine ⟨?_, ?_, ?_, ?_, ?_, fun d => ⟨Nat.zero_le _, Nat.le_refl _⟩, ?_⟩
  · intro i hi
    omega
  · intro i hi
    omega
  · intro t fd ht
    rw [hpc] at ht
    contradiction
  · intro t p fd d ht
    rw [hpc] at ht
    contradiction
  · intro t u fd ht
    rw [hpc] at ht
    contradiction
  · intro t u d ht
    rw [hpc] at ht
    contradiction

theorem setPc_self (s : FdState τ) (t : τ) (pc : FdPc) : (s.setPc t pc).pc t = pc := Function.update_self _ _ _

theorem setPc_of_ne (s : FdState τ) (pc : FdPc) (hu : u ≠ t) : (s.setPc t pc).pc u = s.pc u :=
  Function.update_of_ne hu _ _

omit [DecidableEq τ] in
theorem Counted.setMem {v : DfsFd} (hc : Counted L s) (hv : ∀ i < s.maxfd, s.fds i = some d →
    v.magic = (s.mem d).magic ∧ v.refCount = (s.mem d).refCount) : Counted L (s.setMem d v) where
  inj := hc.inj
  entry i hi e he := by
    have hentry := hc.entry i hi e he
    by_cases hed : e = d
    · obtain rfl := hed
      obtain ⟨hmagic, href⟩ := hv i hi he
      rwa [setMem_self, hmagic, href]
    · rwa [setMem_of_ne _ _ hed]
  newFd := hc.newFd
  at' := hc.at'
  claim := hc.claim
  once := hc.once
  apart := hc.apart

omit [DecidableEq τ] in
theorem Counted.relabel {l : Life} (hc : Counted L s) (hdropped : l.dropped = (L d).dropped)
    (honce : l.closers ≤ 1 ∧ l.calls ≤ l.closers) (hfits : ∀ t p fd, s.pc t = .at p fd d → Fits p l)
    (hnew : ∀ t fd, s.pc t = .newFd fd → s.fds fd ≠ some d) : Counted (Function.update L d l) s where
  inj := hc.inj
  entry i hi e he := by
    have hentry := hc.entry i hi e he
    by_cases hed : e = d
    · obtain rfl := hed
      rwa [Function.update_self, hdropped]
    · rwa [Function.update_of_ne hed]
  newFd t fd ht := by
    obtain ⟨hlt, e, he, hl⟩ := hc.newFd t fd ht
    have hed : e ≠ d := fun hed => hnew t fd ht (hed ▸ he)
    exact ⟨hlt, e, he, by rwa [Function.update_of_ne hed]⟩
  at' t p fd e ht := by
    obtain ⟨hlt, he, hl⟩ := hc.at' t p fd e ht
    refine ⟨hlt, he, ?_⟩
    by_cases hed : e = d
    · obtain rfl := hed
      rw [Function.update_self]
      exact hfits t p fd ht
    · rwa [Function.update_of_ne hed]
  claim := hc.claim
  once e := by
    by_cases hed : e = d
    · obtain rfl := hed
      rwa [Function.update_self]
    · rw [Function.update_of_ne hed]
      exact hc.once e
  apart := hc.apart

theorem owns_setPc_of_ne {pc : FdPc} {b : Bool} {e : Nat} {x : Option τ} (hx : x ≠ some t) :
    (s.setPc t pc).Owns b e x ↔ s.Owns b e x := by
  cases x with
  | none => exact Iff.rfl
  | some u =>
    show (∃ p fd, (s.setPc t pc).pc u = _ ∧ _) ↔ ∃ p fd, s.pc u = _ ∧ _
    rw [setPc_of_ne _ _ fun he => hx (congrArg some he)]

theorem owns_setPc_self {b : Bool} {e : Nat} : (s.setPc t (.at p fd d)).Owns b e (some t) ↔ e = d ∧ p.owns = true := by
  show (∃ q i, (s.setPc t _).pc t = .at q i e ∧ q.owns = true) ↔ _
  rw [setPc_self]
  constructor
  · rintro ⟨q, i, hq, hown⟩
    obtain ⟨rfl, -, rfl⟩ := FdPc.at.inj hq
    exact ⟨rfl, hown⟩
  · rintro ⟨rfl, hown⟩
    exact ⟨p, fd, rfl, hown⟩

omit [DecidableEq τ] in
theorem owns_at {b : Bool} {e : Nat} (ht : s.pc t = .at p fd d) : s.Owns b e (some t) ↔ e = d ∧ p.owns = true := by
  constructor
  · rintro ⟨q, i, hq, hown⟩
    obtain ⟨rfl, -, rfl⟩ := FdPc.at.inj (ht.symm.trans hq)
    exact ⟨rfl, hown⟩
  · rintro ⟨rfl, hown⟩
    exact ⟨p, fd, ht, hown⟩

theorem claim_setPc {pc : FdPc}
    (hclaim : ∀ t u fd, (s.pc t).claims fd = true → (s.pc u).claims fd = true → t = u)
    (hpc : ∀ fd, pc.claims fd = true → ∀ u, (s.pc u).claims fd = true → u = t) (x y : τ) (i : Nat)
    (hx : ((s.setPc t pc).pc x).claims i = true) (hy : ((s.setPc t pc).pc y).claims i = true) : x = y := by
  by_cases hxt : x = t
  · by_cases hyt : y = t
    · rw [hxt, hyt]
    · rw [hxt, setPc_self] at hx
      rw [setPc_of_ne _ _ hyt] at hy
      rw [hxt, hpc i hx y hy]
  · rw [setPc_of_ne _ _ hxt] at hx
    by_cases hyt : y = t
    · rw [hyt, setPc_self] at hy
      rw [hyt, hpc i hy x hx]
    · rw [setPc_of_ne _ _ hyt] at hy
      exact hclaim x y i hx hy

/-- A thread goes on with its descriptor, from one point where it has a reference to another one. -/
theorem Counted.goOn (hc : Counted L s) (ht : s.pc t = .at p fd d) (howns : p.owns = true) (howns' : p'.owns = true)
    (hclaims : p'.claims = true → p.claims = true) (hfits : Fits p (L d) → Fits p' (L d))
    (hclosing : p' = .closing → ∀ u, (s.pc u).accesses d = false)
    (haccesses : p'.accesses = true → p.accesses = true) :
    Counted L (s.setPc t (.at p' fd d)) := by
  obtain ⟨hlt, hfd, hfit⟩ := hc.at' t p fd d ht
  refine ⟨hc.inj, ?_, ?_, ?_, ?_, hc.once, ?_⟩
  · intro i hi e he
    obtain ⟨hmagic, hpos, hcount⟩ := hc.entry i hi e he
    refine ⟨hmagic, hpos, hcount.congr fun x => ?_⟩
    by_cases hx : x = some t
    · rw [hx, owns_setPc_self, owns_at ht, howns, howns']
    · exact owns_setPc_of_ne hx
  · intro u j hu
    by_cases hut : u = t
    · rw [hut, setPc_self] at hu
      contradiction
    · rw [setPc_of_ne _ _ hut] at hu
      exact hc.newFd u j hu
  · intro u q j e hu
    by_cases hut : u = t
    · rw [hut, setPc_self] at hu
      obtain ⟨rfl, rfl, rfl⟩ := FdPc.at.inj hu
      exact ⟨hlt, hfd, hfits hfit⟩
    · rw [setPc_of_ne _ _ hut] at hu
      exact hc.at' u q j e hu
  · refine claim_setPc hc.claim fun i hi u hu => hc.claim u t i hu ?_
    obtain ⟨hfdi, hp'⟩ := (Bool.and_eq_true _ _).mp hi
    rw [ht]
    exact (Bool.and_eq_true _ _).mpr ⟨hfdi, hclaims hp'⟩
  · intro x y e hx
    have hold : (s.pc y).accesses e = false := by
      by_cases hxt : x = t
      · rw [hxt, setPc_self] at hx
        obtain ⟨hde, hp'⟩ := (Bool.and_eq_true _ _).mp hx
        exact of_decide_eq_true hde ▸ hclosing (of_decide_eq_true hp') y
      · rw [setPc_of_ne _ _ hxt] at hx
        exact hc.apart x y e hx
    by_cases hyt : y = t
    · rw [hyt, ht] at hold
      rw [hyt, setPc_self, Bool.eq_false_iff]
      intro hy
      obtain ⟨hde, hp'⟩ := (Bool.and_eq_true _ _).mp hy
      exact Bool.eq_false_iff.mp hold ((Bool.and_eq_true _ _).mpr ⟨hde, haccesses hp'⟩)
    · rwa [setPc_of_ne _ _ hyt]

theorem Counted.get (hc : Counted L s) (ht : ∀ p i e, s.pc t ≠ .at p i e) (hlt : fd < s.maxfd) (hfd : s.fds fd = some d)
    (howns : p.owns = true) (hclaims : p.claims = true → ∀ u, (s.pc u).claims fd = true → u = t) (hfits : Fits p (L d))
    (hclosing : p ≠ .closing) (haccesses : p.accesses = true → ∀ u, (s.pc u).closing d = false) :
    Counted L ((s.ref d).setPc t (.at p fd d)) := by
  have hother {u : τ} {q : Point} {j e : Nat} (hu : ((s.ref d).setPc t (.at p fd d)).pc u = .at q j e) :
      (u = t ∧ q = p ∧ j = fd ∧ e = d) ∨ u ≠ t ∧ s.pc u = .at q j e := by
    by_cases hut : u = t
    · rw [hut, setPc_self] at hu
      obtain ⟨rfl, rfl, rfl⟩ := FdPc.at.inj hu
      exact .inl ⟨hut, rfl, rfl, rfl⟩
    · rw [setPc_of_ne _ _ hut] at hu
      exact .inr ⟨hut, hu⟩
  refine ⟨hc.inj, ?_, ?_, ?_, ?_, hc.once, ?_⟩
  · intro i hi e he
    obtain ⟨hmagic, hpos, hcount⟩ := hc.entry i hi e he
    have hnot : ¬ s.Owns (L e).dropped e (some t) := by
      rintro ⟨q, j, hq, -⟩
      exact ht q j e hq
    by_cases hed : e = d
    · obtain rfl := hed
      have href : ((s.ref e).setPc t (.at p fd e)).mem e = { s.mem e with refCount := (s.mem e).refCount + 1 } :=
        setMem_self _ _ _
      rw [href]
      refine ⟨hmagic, by show 0 < (s.mem e).refCount + 1; omega, hcount.add hnot fun y => ?_⟩
      by_cases hy : y = some t
      · rw [hy, owns_setPc_self]
        exact ⟨fun _ => .inr rfl, fun _ => ⟨rfl, howns⟩⟩
      · rw [owns_setPc_of_ne hy]
        exact ⟨.inl, fun h => h.resolve_right hy⟩
    · have href : ((s.ref d).setPc t (.at p fd d)).mem e = s.mem e := setMem_of_ne _ _ hed
      rw [href]
      refine ⟨hmagic, hpos, hcount.congr fun x => ?_⟩
      by_cases hx : x = some t
      · rw [hx, owns_setPc_self]
        exact ⟨fun h => absurd h.1 hed, fun h => absurd h hnot⟩
      · exact owns_setPc_of_ne hx
  · intro u j hu
    by_cases hut : u = t
    · rw [hut, setPc_self] at hu
      contradiction
    · rw [setPc_of_ne _ _ hut] at hu
      exact hc.newFd u j hu
  · intro u q j e hu
    rcases hother hu with ⟨rfl, rfl, rfl, rfl⟩ | ⟨-, hu⟩
    · exact ⟨hlt, hfd, hfits⟩
    · exact hc.at' u q j e hu
  · refine claim_setPc hc.claim fun i hi u hu => ?_
    obtain ⟨hfdi, hp⟩ := (Bool.and_eq_true _ _).mp hi
    obtain rfl := of_decide_eq_true hfdi
    exact hclaims hp u hu
  · intro x y e hx
    have hxt : x ≠ t := by
      rintro rfl
      rw [setPc_self] at hx
      exact hclosing (of_decide_eq_true ((Bool.and_eq_true _ _).mp hx).2)
    rw [setPc_of_ne _ _ hxt] at hx
    by_cases hyt : y = t
    · rw [hyt, setPc_self, Bool.eq_false_iff]
      intro hy
      obtain ⟨hde, hp⟩ := (Bool.and_eq_true _ _).mp hy
      obtain rfl := of_decide_eq_true hde
      exact Bool.eq_false_iff.mp (haccesses hp x) hx
    · rw [setPc_of_ne _ _ hyt]
      exact hc.apart x y e hx

/-- Behind the first `fd_put` of a call that calls it twice: the second one drops the reference that `fd_new` made. -/
structure Between (p q : Point) : Prop where
  owns : p.owns = true
  claims : p.claims = true
  owns' : q.owns = false
  claims' : q.claims = true
  accesses' : q.accesses = false
  closing' : q ≠ .closing
  fits : ∀ l, Fits p l → Fits q l ∧ l.dropped = false

theorem between_of_put {q : Point} (hnext : putPoint p = some (some q)) : Between p q := by
  cases p with
  | failPut =>
    obtain rfl := Option.some.inj (Option.some.inj hnext)
    refine ⟨rfl, rfl, rfl, rfl, rfl, by decide, fun l hl => ⟨⟨fun _ => hl.inOpen rfl, ?_, ?_⟩, ?_⟩⟩
    · exact fun h => absurd h (by decide)
    · exact fun h => absurd h (by decide)
    · rw [hl.inOpen rfl]
  | closePut =>
    obtain rfl := Option.some.inj (Option.some.inj hnext)
    refine ⟨rfl, rfl, rfl, rfl, rfl, by decide, fun l hl => ⟨⟨?_, fun _ => hl.inClose rfl, ?_⟩, (hl.inClose rfl).2⟩⟩
    · exact fun h => absurd h (by decide)
    · exact fun h => absurd h (by decide)
  | _ => simp [putPoint] at hnext

/-- A thread without a reference of its own is about to drop the one that `fd_new` made. -/
theorem claims_of_not_owns (howns : p.owns = false) : p.claims = true := by
  cases p <;> first | rfl | contradiction

theorem Fits.not_dropped {l : Life} (hl : Fits p l) (hclaims : p.claims = true) : l.dropped = false := by
  rcases (Bool.or_eq_true _ _).mp hclaims with hopen | hclose
  · rw [hl.inOpen hopen]
  · exact (hl.inClose hclose).2

omit [DecidableEq τ] in
/-- `fd_put` removes the structure from the table with its last reference. -/
theorem fdPut_fds (hc : Counted L s) (hlt : fd < s.maxfd) (hfd : s.fds fd = some d) (i : Nat) :
    (s.fdPut d).fds i = if (s.mem d).refCount - 1 = 0 ∧ i = fd then none else s.fds i := by
  have hfind : (List.range s.maxfd).find? (fun i => s.fds i = some d) = some fd := by
    cases hf : (List.range s.maxfd).find? fun i => s.fds i = some d with
    | none =>
      have hno := List.find?_eq_none.mp hf fd (List.mem_range.mpr hlt)
      simp [hfd] at hno
    | some j =>
      have hj := List.mem_range.mp (List.mem_of_find?_eq_some hf)
      have hjd : s.fds j = some d := by simpa using List.find?_some hf
      rw [hc.inj j hj fd hlt d hjd hfd]
  unfold FdState.fdPut
  dsimp only
  rw [setMem_self]
  dsimp only
  by_cases h0 : (s.mem d).refCount - 1 = 0
  · rw [if_pos h0]
    split
    · rename_i j hj
      obtain rfl := Option.some.inj (hfind.symm.trans hj)
      show Function.update s.fds fd none i = _
      by_cases hi : i = fd
      · rw [hi, Function.update_self, if_pos ⟨h0, rfl⟩]
      · rw [Function.update_of_ne hi, if_neg fun h => hi h.2]
    · rename_i hj
      exact absurd (hfind.symm.trans hj) (by simp)
  · rw [if_neg h0, if_neg fun h => h0 h.1]
    rfl

omit [DecidableEq τ] in
theorem fdPut_frame (s : FdState τ) (d : Nat) : (s.fdPut d).pc = s.pc ∧ (s.fdPut d).maxfd = s.maxfd ∧
    (s.fdPut d).mem = Function.update s.mem d { s.mem d with refCount := (s.mem d).refCount - 1 } := by
  unfold FdState.fdPut
  dsimp only
  split_ifs
  · split <;> exact ⟨rfl, rfl, rfl⟩
  · exact ⟨rfl, rfl, rfl⟩

omit [DecidableEq τ] in
/-- What is in the table behind `fd_put` was there before, with another reference. -/
theorem fdPut_old {i e : Nat} (hc : Counted L s) (hlt : fd < s.maxfd) (hfd : s.fds fd = some d)
    (hi : i < (s.fdPut d).maxfd) (he : (s.fdPut d).fds i = some e) :
    i < s.maxfd ∧ s.fds i = some e ∧ (e = d → (s.mem d).refCount - 1 ≠ 0) := by
  rw [(fdPut_frame s d).2.1] at hi
  rw [fdPut_fds hc hlt hfd] at he
  split_ifs at he with hif
  refine ⟨hi, he, ?_⟩
  rintro rfl h0
  exact hif ⟨h0, hc.inj i hi fd hlt _ he hfd⟩

omit [DecidableEq τ] in
theorem fdPut_keeps {i e : Nat} (hc : Counted L s) (hlt : fd < s.maxfd) (hfd : s.fds fd = some d)
    (he : s.fds i = some e) (hed : e = d → (s.mem d).refCount - 1 ≠ 0) : (s.fdPut d).fds i = some e := by
  rw [fdPut_fds hc hlt hfd, if_neg]
  · exact he
  · rintro ⟨h0, rfl⟩
    exact hed (Option.some.inj (he.symm.trans hfd)) h0

theorem owns_fdPut {pc : FdPc} {b : Bool} {e : Nat} {x : Option τ} (hx : x ≠ some t) :
    ((s.fdPut d).setPc t pc).Owns b e x ↔ s.Owns b e x := by
  rw [owns_setPc_of_ne hx]
  cases x with
  | none => exact Iff.rfl
  | some u =>
    show (∃ q i, (s.fdPut d).pc u = _ ∧ _) ↔ _
    rw [(fdPut_frame s d).1]
    exact Iff.rfl

/-- A thread drops a reference: its own one, or the one that `fd_new` made. -/
structure Drops (L L' : Nat → Life) (s : FdState τ) (t : τ) (p : Point) (fd d : Nat) (pc : FdPc) : Prop where
  before : s.pc t = .at p fd d
  after : pc = .idle ∨ ∃ q, pc = .at q fd d ∧ Between p q
  life : L' = if p.owns = true then L else Function.update L d ((L d).next .dropped)

section drops

variable {L' : Nat → Life} {pc : FdPc} {b : Bool} {e : Nat} {x : Option τ}

omit [DecidableEq τ]

theorem Drops.at_eq {q : Point} {j : Nat} (hd : Drops L L' s t p fd d pc) (hq : pc = .at q j e) :
    j = fd ∧ e = d ∧ Between p q := by
  rcases hd.after with hidle | ⟨q', hq', hbetween⟩
  · rw [hidle] at hq
    contradiction
  · obtain ⟨rfl, rfl, rfl⟩ := FdPc.at.inj (hq'.symm.trans hq)
    exact ⟨rfl, rfl, hbetween⟩

theorem Drops.other (hd : Drops L L' s t p fd d pc) (he : e ≠ d) : L' e = L e := by
  rw [hd.life]
  split_ifs
  · rfl
  · exact Function.update_of_ne he _ _

theorem Drops.own (hd : Drops L L' s t p fd d pc) (howns : p.owns = true) : L' = L := by
  rw [hd.life, if_pos howns]

/-- Beside a thread that may drop the reference that `fd_new` made, the thread drops its own one. -/
theorem Drops.beside (hd : Drops L L' s t p fd d pc) (hc : Counted L s) (hut : u ≠ t)
    (hu : (s.pc u).claims fd = true) : L' = L := by
  apply hd.own
  by_contra hp
  refine hut (hc.claim u t fd hu ?_)
  rw [hd.before]
  exact (Bool.and_eq_true _ _).mpr ⟨decide_eq_true rfl, claims_of_not_owns (Bool.eq_false_iff.mpr hp)⟩

theorem Drops.claims_eq (hd : Drops L L' s t p fd d pc) (hc : Counted L s) {i : Nat} (hi : pc.claims i = true)
    (hu : (s.pc u).claims i = true) : u = t := by
  rcases hd.after with rfl | ⟨q, rfl, hbetween⟩
  · contradiction
  · obtain rfl := of_decide_eq_true ((Bool.and_eq_true _ _).mp hi).1
    refine hc.claim u t _ hu ?_
    rw [hd.before]
    exact (Bool.and_eq_true _ _).mpr ⟨decide_eq_true rfl, hbetween.claims⟩

theorem Drops.not_closing (hd : Drops L L' s t p fd d pc) : pc.closing e = false := by
  rcases hd.after with rfl | ⟨q, rfl, hbetween⟩
  · rfl
  · rw [Bool.eq_false_iff]
    intro hcl
    exact hbetween.closing' (of_decide_eq_true ((Bool.and_eq_true _ _).mp hcl).2)

theorem Drops.not_accesses (hd : Drops L L' s t p fd d pc) : pc.accesses e = false := by
  rcases hd.after with rfl | ⟨q, rfl, hbetween⟩
  · rfl
  · rw [Bool.eq_false_iff]
    intro hacc
    exact Bool.eq_false_iff.mp hbetween.accesses' ((Bool.and_eq_true _ _).mp hacc).2

end drops

section drops

variable {L' : Nat → Life} {pc : FdPc} {b : Bool} {e : Nat} {x : Option τ}

theorem Drops.not_owns (hd : Drops L L' s t p fd d pc) : ¬ ((s.fdPut d).setPc t pc).Owns b e (some t) := by
  rintro ⟨q, i, hq, hown⟩
  rw [setPc_self] at hq
  obtain ⟨-, -, hbetween⟩ := hd.at_eq hq
  exact Bool.eq_false_iff.mp hbetween.owns' hown

theorem Drops.counts (hd : Drops L L' s t p fd d pc) (hc : Counted L s) :
    Counts (((s.fdPut d).setPc t pc).Owns (L' d).dropped d) ((s.mem d).refCount - 1) := by
  obtain ⟨hlt, hfd, hfit⟩ := hc.at' t p fd d hd.before
  obtain ⟨-, -, hcount⟩ := hc.entry fd hlt d hfd
  by_cases hp : p.owns = true
  · rw [hd.own hp]
    refine hcount.remove ((owns_at hd.before).mpr ⟨rfl, hp⟩) fun y => ?_
    by_cases hy : y = some t
    · rw [hy]
      exact ⟨fun h => absurd h hd.not_owns, fun h => absurd rfl h.2⟩
    · rw [owns_fdPut hy]
      exact ⟨fun h => ⟨h, hy⟩, fun h => h.1⟩
  · have hdropped := hfit.not_dropped (claims_of_not_owns (Bool.eq_false_iff.mpr hp))
    have htrue : (L' d).dropped = true := by
      rw [hd.life, if_neg hp, Function.update_self]
      rfl
    rw [htrue]
    refine hcount.remove (x := none) hdropped fun y => ?_
    cases y with
    | none => exact ⟨fun h => absurd h (by simp [FdState.Owns]), fun h => absurd rfl h.2⟩
    | some u =>
      by_cases hut : u = t
      · rw [hut]
        exact ⟨fun h => absurd h hd.not_owns, fun h => absurd ((owns_at hd.before).mp h.1).2 hp⟩
      · rw [owns_fdPut fun he => hut (Option.some.inj he)]
        exact ⟨fun h => ⟨h, by simp⟩, fun h => h.1⟩

theorem Drops.held (hd : Drops L L' s t p fd d pc) (hc : Counted L s)
    (hx : ((s.fdPut d).setPc t pc).Owns (L' d).dropped d x) : (s.mem d).refCount - 1 ≠ 0 := by
  intro h0
  have hleft := hd.counts hc
  rw [h0] at hleft
  exact hleft.not_own x hx

theorem Drops.entry (hd : Drops L L' s t p fd d pc) (hc : Counted L s) {i : Nat} (hi : i < (s.fdPut d).maxfd)
    (he : (s.fdPut d).fds i = some e) :
    ((s.fdPut d).mem e).magic = dfsFdMagic ∧ 0 < ((s.fdPut d).mem e).refCount ∧
      Counts (((s.fdPut d).setPc t pc).Owns (L' e).dropped e) ((s.fdPut d).mem e).refCount := by
  obtain ⟨hlt, hfd, -⟩ := hc.at' t p fd d hd.before
  obtain ⟨hi, he, hne⟩ := fdPut_old hc hlt hfd hi he
  obtain ⟨hmagic, hpos, hcount⟩ := hc.entry i hi e he
  rw [(fdPut_frame s d).2.2]
  by_cases hed : e = d
  · obtain rfl := hed
    have hleft := hd.counts hc
    have hnonneg := hleft.nonneg
    have hne := hne rfl
    rw [Function.update_self]
    refine ⟨hmagic, ?_, hleft⟩
    show 0 < (s.mem e).refCount - 1
    omega
  · rw [Function.update_of_ne hed, hd.other hed]
    refine ⟨hmagic, hpos, hcount.congr fun x => ?_⟩
    by_cases hx : x = some t
    · rw [hx, owns_at hd.before]
      exact ⟨fun h => absurd h hd.not_owns, fun h => absurd h.1 hed⟩
    · exact owns_fdPut hx

theorem Drops.newFd (hd : Drops L L' s t p fd d pc) (hc : Counted L s) {j : Nat} (hut : u ≠ t)
    (hu : s.pc u = .newFd j) :
    j < (s.fdPut d).maxfd ∧ ∃ e, (s.fdPut d).fds j = some e ∧ L' e = ⟨0, 0, false⟩ := by
  obtain ⟨hlt, hfd, -⟩ := hc.at' t p fd d hd.before
  obtain ⟨hj, e, he, hl⟩ := hc.newFd u j hu
  have hle : L' e = L e := by
    by_cases hed : e = d
    · obtain rfl := hed
      obtain rfl := hc.inj j hj fd hlt e he hfd
      have hclaims : (s.pc u).claims j = true := by
        rw [hu]
        exact decide_eq_true rfl
      rw [hd.beside hc hut hclaims]
    · exact hd.other hed
  refine ⟨(fdPut_frame s d).2.1 ▸ hj, e, fdPut_keeps hc hlt hfd he ?_, by rw [hle, hl]⟩
  rintro rfl
  refine hd.held hc (x := none) ?_
  rw [hle, hl]
  rfl

theorem Drops.other_at (hd : Drops L L' s t p fd d pc) (hc : Counted L s) {q : Point} {j : Nat} (hut : u ≠ t)
    (hu : s.pc u = .at q j e) : j < (s.fdPut d).maxfd ∧ (s.fdPut d).fds j = some e ∧ Fits q (L' e) := by
  obtain ⟨hlt, hfd, -⟩ := hc.at' t p fd d hd.before
  obtain ⟨hj, he, hq⟩ := hc.at' u q j e hu
  refine ⟨(fdPut_frame s d).2.1 ▸ hj, ?_⟩
  by_cases hed : e = d
  · obtain rfl := hed
    obtain rfl := hc.inj j hj fd hlt e he hfd
    -- another thread that may drop the reference of `fd_new` would have to be this one
    have hbeside : q.claims = true → L' = L := by
      intro hqc
      apply hd.beside hc hut
      rw [hu]
      exact (Bool.and_eq_true _ _).mpr ⟨decide_eq_true rfl, hqc⟩
    refine ⟨fdPut_keeps hc hlt hfd he fun _ => ?_, ?_⟩
    · by_cases hown : q.owns = true
      · refine hd.held hc (x := some u) ((owns_fdPut fun he => hut (Option.some.inj he)).mpr ?_)
        exact ⟨q, j, hu, hown⟩
      · have hqc := claims_of_not_owns (Bool.eq_false_iff.mpr hown)
        refine hd.held hc (x := none) ?_
        rw [hbeside hqc]
        exact hq.not_dropped hqc
    · by_cases hqc : q.claims = true
      · rw [hbeside hqc]
        exact hq
      · have hno := Bool.or_eq_false_iff.mp (Bool.eq_false_iff.mpr hqc)
        refine ⟨fun h => ?_, fun h => ?_, fun h => ?_⟩
        · rw [hno.1] at h
          contradiction
        · rw [hno.2] at h
          contradiction
        · exact absurd rfl (h ▸ hqc)
  · exact ⟨fdPut_keeps hc hlt hfd he fun h => absurd h hed, by rwa [hd.other hed]⟩

/-- Before the second `fd_put` of a call, the descriptor is there still. -/
theorem Drops.self_at (hd : Drops L L' s t p fd d pc) (hc : Counted L s) {q : Point} {j : Nat}
    (hq : pc = .at q j e) : j < (s.fdPut d).maxfd ∧ (s.fdPut d).fds j = some e ∧ Fits q (L' e) := by
  obtain ⟨hlt, hfd, hfit⟩ := hc.at' t p fd d hd.before
  obtain ⟨rfl, rfl, hbetween⟩ := hd.at_eq hq
  obtain ⟨hfit', hdropped⟩ := hbetween.fits _ hfit
  have hle := hd.own hbetween.owns
  refine ⟨(fdPut_frame s e).2.1 ▸ hlt, fdPut_keeps hc hlt hfd hfd fun _ => hd.held hc (x := none) ?_, hle ▸ hfit'⟩
  rw [hle]
  exact hdropped

theorem Drops.counted (hd : Drops L L' s t p fd d pc) (hc : Counted L s) :
    Counted L' ((s.fdPut d).setPc t pc) := by
  obtain ⟨hpc, -, -⟩ := fdPut_frame s d
  obtain ⟨hlt, hfd, -⟩ := hc.at' t p fd d hd.before
  refine ⟨?_, fun i hi e he => hd.entry hc hi he, ?_, ?_, ?_, ?_, ?_⟩
  · intro i hi j hj e he he'
    obtain ⟨hi, he, -⟩ := fdPut_old hc hlt hfd hi he
    obtain ⟨hj, he', -⟩ := fdPut_old hc hlt hfd hj he'
    exact hc.inj i hi j hj e he he'
  · intro u j hu
    by_cases hut : u = t
    · rw [hut, setPc_self] at hu
      rcases hd.after with hidle | ⟨q, hq, -⟩
      · rw [hidle] at hu
        contradiction
      · rw [hq] at hu
        contradiction
    · rw [setPc_of_ne _ _ hut, hpc] at hu
      exact hd.newFd hc hut hu
  · intro u q j e hu
    by_cases hut : u = t
    · rw [hut, setPc_self] at hu
      exact hd.self_at hc hu
    · rw [setPc_of_ne _ _ hut, hpc] at hu
      exact hd.other_at hc hut hu
  · refine claim_setPc (s := s.fdPut d) (hpc ▸ hc.claim) fun i hi u hu => ?_
    rw [hpc] at hu
    exact hd.claims_eq hc hi hu
  · intro e
    rw [hd.life]
    split_ifs
    · exact hc.once e
    · by_cases hed : e = d
      · rw [hed, Function.update_self]
        exact hc.once d
      · rw [Function.update_of_ne hed]
        exact hc.once e
  · intro x y e hx
    have hxt : x ≠ t := by
      rintro rfl
      rw [setPc_self] at hx
      exact Bool.eq_false_iff.mp hd.not_closing hx
    rw [setPc_of_ne _ _ hxt, hpc] at hx
    by_cases hyt : y = t
    · rw [hyt, setPc_self]
      exact hd.not_accesses
    · rw [setPc_of_ne _ _ hyt, hpc]
      exact hc.apart x y e hx

end drops

theorem Counted.put {next : Option Point} (hc : Counted L s) (ht : s.pc t = .at p fd d)
    (hnext : putPoint p = some next) :
    Counted (if p.owns = true then L else Function.update L d ((L d).next .dropped))
      ((s.fdPut d).setPc t (next.elim .idle fun p' => .at p' fd d)) := by
  refine Drops.counted ⟨ht, ?_, rfl⟩ hc
  cases next with
  | none => exact .inl rfl
  | some q => exact .inr ⟨q, rfl, between_of_put hnext⟩

omit [DecidableEq τ] in
theorem Counted.mem_allocated (hc : Counted L s) (ht : s.pc t = .at p fd d) : s.Allocated d :=
  ⟨fd, (hc.at' t p fd d ht).1, (hc.at' t p fd d ht).2.1⟩

omit [DecidableEq τ] in
/-- A thread with the number of a descriptor has a descriptor in the table. -/
theorem Counted.slot_entry (hc : Counted L s) (ht : (s.pc t).slot = some fd) :
    fd < s.maxfd ∧ ∃ d, s.fds fd = some d := by
  cases hpc : s.pc t with
  | idle | halted =>
    rw [hpc] at ht
    contradiction
  | newFd i =>
    rw [hpc] at ht
    obtain rfl := Option.some.inj ht
    obtain ⟨hlt, d, hd, -⟩ := hc.newFd t i hpc
    exact ⟨hlt, d, hd⟩
  | «at» p i d =>
    rw [hpc] at ht
    obtain rfl := Option.some.inj ht
    obtain ⟨hlt, hd, -⟩ := hc.at' t p i d hpc
    exact ⟨hlt, d, hd⟩

omit [DecidableEq τ] in
theorem slot_of_claims {pc : FdPc} (h : pc.claims fd = true) : pc.slot = some fd := by
  cases pc with
  | idle | halted => contradiction
  | newFd i => exact congrArg some (of_decide_eq_true h)
  | «at» p i d => exact congrArg some (of_decide_eq_true ((Bool.and_eq_true _ _).mp h).1)

omit [DecidableEq τ] in
theorem Counted.slot_free {calloc : Option Nat} (hc : Counted L s) (hnew : New s calloc (s', some fd)) (t : τ) :
    (s.pc t).slot ≠ some fd := by
  intro ht
  obtain ⟨hlt, d, hd⟩ := hc.slot_entry ht
  have hpos := (hc.entry fd hlt d hd).2.1
  cases hnew with
  | made _ _ _ _ _ _ _ _ _ hfree _ =>
    have := hfree hlt d hd
    omega

omit [DecidableEq τ] in
theorem Counted.grown {calloc : Option Nat} (hc : Counted L s) (hnew : New s calloc (s', none)) : Counted L s' := by
  cases hnew with
  | fail _ hg hmem =>
    have hold {i e : Nat} (hi : i < s'.maxfd) : s'.fds i = some e ↔ i < s.maxfd ∧ s.fds i = some e :=
      hg.fds i hi (Nat.ne_of_lt hi) e
    refine ⟨?_, ?_, ?_, ?_, ?_, hc.once, ?_⟩
    · intro i hi j hj e he he'
      exact hc.inj i ((hold hi).mp he).1 j ((hold hj).mp he').1 e ((hold hi).mp he).2 ((hold hj).mp he').2
    · intro i hi e he
      obtain ⟨hi, he⟩ := (hold hi).mp he
      have hentry := hc.entry i hi e he
      rw [hmem]
      refine ⟨hentry.1, hentry.2.1, hentry.2.2.congr fun x => ?_⟩
      unfold FdState.Owns
      rw [hg.pc]
    · intro u j hu
      rw [hg.pc] at hu
      obtain ⟨hj, e, he, hl⟩ := hc.newFd u j hu
      have hj' := Nat.lt_of_lt_of_le hj hg.le
      exact ⟨hj', e, (hold hj').mpr ⟨hj, he⟩, hl⟩
    · intro u q j e hu
      rw [hg.pc] at hu
      obtain ⟨hj, he, hq⟩ := hc.at' u q j e hu
      have hj' := Nat.lt_of_lt_of_le hj hg.le
      exact ⟨hj', (hold hj').mpr ⟨hj, he⟩, hq⟩
    · rw [hg.pc]
      exact hc.claim
    · rw [hg.pc]
      exact hc.apart

omit [DecidableEq τ] in
/-- The other entries of the table are those of before, and not the new descriptor. -/
theorem Grown.old (hg : Grown s s' fd) (hapart : ¬ s.Allocated d) {i e : Nat} (hi : i < s'.maxfd) (hne : i ≠ fd)
    (he : s'.fds i = some e) : i < s.maxfd ∧ s.fds i = some e ∧ e ≠ d := by
  obtain ⟨hi, he⟩ := (hg.fds i hi hne e).mp he
  exact ⟨hi, he, fun hed => hapart ⟨i, hi, hed ▸ he⟩⟩

omit [DecidableEq τ] in
theorem Grown.kept (hg : Grown s s' fd) (hapart : ¬ s.Allocated d) {i e : Nat} (hi : i < s.maxfd) (hne : i ≠ fd)
    (he : s.fds i = some e) : i < s'.maxfd ∧ s'.fds i = some e ∧ e ≠ d := by
  have hi' := Nat.lt_of_lt_of_le hi hg.le
  exact ⟨hi', (hg.fds i hi' hne e).mpr ⟨hi, he⟩, fun hed => hapart ⟨i, hi, hed ▸ he⟩⟩

omit [DecidableEq τ] in
theorem Counted.inj_made (hc : Counted L s) (hg : Grown s s' fd) (hd : s'.fds fd = some d)
    (hapart : ¬ s.Allocated d) {i j e : Nat} (hi : i < s'.maxfd) (hj : j < s'.maxfd) (he : s'.fds i = some e)
    (he' : s'.fds j = some e) : i = j := by
  by_cases hi' : i = fd
  · by_cases hj' : j = fd
    · rw [hi', hj']
    · rw [hi'] at he
      exact absurd (Option.some.inj (he.symm.trans hd)) (hg.old hapart hj hj' he').2.2
  · by_cases hj' : j = fd
    · rw [hj'] at he'
      exact absurd (Option.some.inj (he'.symm.trans hd)) (hg.old hapart hi hi' he).2.2
    · obtain ⟨hi, he, -⟩ := hg.old hapart hi hi' he
      obtain ⟨hj, he', -⟩ := hg.old hapart hj hj' he'
      exact hc.inj i hi j hj e he he'

theorem owns_newFd {b : Bool} {e : Nat} {x : Option τ} (hpc : s'.pc = s.pc) (ht : s.pc t = .idle) :
    (s'.setPc t (.newFd fd)).Owns b e x ↔ s.Owns b e x := by
  cases x with
  | none => exact Iff.rfl
  | some u =>
    show (∃ q j, (s'.setPc t _).pc u = _ ∧ _) ↔ ∃ q j, s.pc u = _ ∧ _
    by_cases hut : u = t
    · rw [hut, setPc_self, ht]
      constructor <;> rintro ⟨q, j, h, -⟩ <;> contradiction
    · rw [setPc_of_ne _ _ hut, hpc]

theorem Counted.made {calloc : Option Nat} (hc : Counted L s) (hnew : New s calloc (s', some fd))
    (hfresh : ∀ d ∈ calloc, ¬ s.Allocated d) (ht : s.pc t = .idle) :
    ∃ d, s'.fds fd = some d ∧ Counted (Function.update L d ⟨0, 0, false⟩) (s'.setPc t (.newFd fd)) := by
  have hslot := hc.slot_free hnew
  cases hnew with
  | made _ _ d hg hlt hd hmagic href hmem hfree hcalloc =>
    refine ⟨d, hd, ?_⟩
    have hapart : ¬ s.Allocated d := by
      rcases hcalloc with hcalloc | ⟨hlt, hd⟩
      · exact hfresh d hcalloc
      · have := hfree hlt d hd
        have hpos := (hc.entry fd hlt d hd).2.1
        omega
    have hkeep {u : τ} {i e : Nat} (hu : (s.pc u).slot = some i) (hi : i < s.maxfd) (he : s.fds i = some e) :
        i < s'.maxfd ∧ s'.fds i = some e ∧ e ≠ d := hg.kept hapart hi (fun h => hslot u (h ▸ hu)) he
    have hpc {u : τ} (hut : u ≠ t) : (s'.setPc t (.newFd fd)).pc u = s.pc u := by rw [setPc_of_ne _ _ hut, hg.pc]
    refine ⟨?_, ?_, ?_, ?_, ?_, ?_, ?_⟩
    · exact fun i hi j hj e he he' => hc.inj_made hg hd hapart hi hj he he'
    · intro i hi e he
      by_cases hi' : i = fd
      · rw [hi'] at he
        obtain rfl := Option.some.inj (hd.symm.trans he)
        show (s'.mem d).magic = _ ∧ 0 < (s'.mem d).refCount ∧ Counts _ (s'.mem d).refCount
        rw [href, Function.update_self]
        refine ⟨hmagic, by decide, (Counts.single none).congr fun x => (owns_newFd hg.pc ht).trans ?_⟩
        cases x with
        | none => exact ⟨fun _ => rfl, fun _ => rfl⟩
        | some u =>
          refine ⟨?_, fun h => by contradiction⟩
          rintro ⟨q, j, hq, -⟩
          exact absurd (hc.mem_allocated hq) hapart
      · obtain ⟨hi, he, hed⟩ := hg.old hapart hi hi' he
        obtain ⟨hmagic, hpos, hcount⟩ := hc.entry i hi e he
        show (s'.mem e).magic = _ ∧ 0 < (s'.mem e).refCount ∧ Counts _ (s'.mem e).refCount
        rw [hmem e hed, Function.update_of_ne hed]
        exact ⟨hmagic, hpos, hcount.congr fun x => owns_newFd hg.pc ht⟩
    · intro u j hu
      by_cases hut : u = t
      · rw [hut, setPc_self] at hu
        obtain rfl := FdPc.newFd.inj hu
        exact ⟨hlt, d, hd, Function.update_self _ _ _⟩
      · rw [hpc hut] at hu
        obtain ⟨hj, e, he, hl⟩ := hc.newFd u j hu
        obtain ⟨hj, he, hed⟩ := hkeep (by rw [hu]; rfl) hj he
        exact ⟨hj, e, he, by rwa [Function.update_of_ne hed]⟩
    · intro u q j e hu
      have hut : u ≠ t := by
        rintro rfl
        rw [setPc_self] at hu
        contradiction
      rw [hpc hut] at hu
      obtain ⟨hj, he, hq⟩ := hc.at' u q j e hu
      obtain ⟨hj, he, hed⟩ := hkeep (by rw [hu]; rfl) hj he
      exact ⟨hj, he, by rwa [Function.update_of_ne hed]⟩
    · refine claim_setPc (s := s') (by rw [hg.pc]; exact hc.claim) fun i hi u hu => ?_
      obtain rfl := of_decide_eq_true hi
      rw [hg.pc] at hu
      exact absurd (slot_of_claims hu) (hslot u)
    · intro e
      by_cases hed : e = d
      · rw [hed, Function.update_self]
        exact ⟨Nat.zero_le _, Nat.le_refl _⟩
      · rw [Function.update_of_ne hed]
        exact hc.once e
    · intro x y e hx
      have hxt : x ≠ t := by
        rintro rfl
        rw [setPc_self] at hx
        contradiction
      rw [hpc hxt] at hx
      by_cases hyt : y = t
      · rw [hyt, setPc_self]
        rfl
      · rw [hpc hyt]
        exact hc.apart x y e hx

omit [DecidableEq τ] in
theorem lookup_some (h : s.lookup fd = some d) : fd < s.maxfd ∧ s.fds fd = some d := by
  unfold FdState.lookup at h
  split_ifs at h with hge
  obtain ⟨hd, -⟩ := Option.filter_eq_some_iff.mp h
  exact ⟨Nat.lt_of_not_ge hge, hd⟩

omit [DecidableEq τ] in
theorem Counted.lookup_eq (hc : Counted L s) (hlt : fd < s.maxfd) (hd : s.fds fd = some d) : s.lookup fd = some d := by
  rw [FdState.lookup, if_neg (Nat.not_le_of_lt hlt), hd]
  exact Option.filter_eq_some_iff.mpr ⟨rfl, decide_eq_true (hc.entry fd hlt d hd).1⟩

section unclaimed

variable (hc : Counted L s) (hclosers : (L d).closers = 0) (hopens : ∀ u, s.opens d u = false)

include hopens

omit [DecidableEq τ] in
theorem not_newFd (hu : s.pc u = .newFd fd) : s.fds fd ≠ some d := by
  have hno := hopens u
  rw [FdState.opens, hu] at hno
  simpa using hno

include hc hclosers

omit [DecidableEq τ] in
/-- Before a `close` obtains the descriptor, and behind its `open`, no thread may drop the reference of `fd_new`. -/
theorem Counted.not_claims (hu : s.pc u = .at p fd d) : p.claims = false := by
  refine Bool.or_eq_false_iff.mpr ⟨?_, ?_⟩
  · have hno := hopens u
    rw [FdState.opens, hu] at hno
    simpa using hno
  · rw [Bool.eq_false_iff]
    intro hp
    have := ((hc.at' u p fd d hu).2.2.inClose hp).1
    omega

omit [DecidableEq τ] in
theorem Counted.unclaimed (hd : s.fds fd = some d) (u : τ) : (s.pc u).claims fd = false := by
  cases hpc : s.pc u with
  | idle | halted => rfl
  | newFd i =>
    refine decide_eq_false ?_
    rintro rfl
    exact not_newFd hopens hpc hd
  | «at» p i e =>
    refine Bool.and_eq_false_imp.mpr fun hi => ?_
    obtain rfl := of_decide_eq_true hi
    obtain rfl := Option.some.inj (hd.symm.trans (hc.at' u p i e hpc).2.1)
    exact hc.not_claims hclosers hopens hpc

omit [DecidableEq τ] in
theorem Counted.firstClose (hdropped : (L d).dropped = false) : Counted (Function.update L d ⟨1, 0, false⟩) s := by
  refine hc.relabel hdropped.symm ⟨Nat.le_refl 1, Nat.zero_le 1⟩ (fun u p i hu => ?_) fun _ _ => not_newFd hopens
  have hno := Bool.or_eq_false_iff.mp (hc.not_claims hclosers hopens hu)
  refine ⟨fun h => ?_, fun _ => ⟨rfl, rfl⟩, fun _ => rfl⟩
  rw [hno.1] at h
  contradiction

end unclaimed

end invariant

/-! ## The steps -/

section steps

variable {fdMax : Nat} {h : History (FdState τ) (FdAction τ)} {s s' : FdState τ} {a : FdAction τ} {t : τ} {fd d : Nat}

/-- The lives of the descriptors. -/
abbrev lives (fdMax : Nat) (h : History (FdState τ) (FdAction τ)) : Nat → Life := fun d => life fdMax d h

omit [DecidableEq τ] in
theorem lives_mark {m : Mark} (hm : mark fdMax s a = some (m, d)) :
    lives fdMax ((s, a) :: h) = Function.update (lives fdMax h) d ((life fdMax d h).next m) := by
  funext e
  rw [lives, life, hm]
  by_cases hed : e = d
  · obtain rfl := hed
    rw [Function.update_self]
    exact if_pos rfl
  · rw [Function.update_of_ne hed]
    exact if_neg (Ne.symm hed)

omit [DecidableEq τ] in
theorem lives_none (hm : mark fdMax s a = none) : lives fdMax ((s, a) :: h) = lives fdMax h := by
  funext e
  rw [lives, life, hm]

omit [DecidableEq τ] in
theorem mem_marked {m : Mark} (hm : mark fdMax s a = some (m, d)) : d ∈ marked m fdMax s a := by
  rw [marked, hm]
  exact if_pos rfl

theorem step_fdNew {realloc : Bool} {calloc : Option Nat} (hc : Counted (lives fdMax h) s)
    (hs : fdStep fdMax s (.fdNew t realloc calloc) = some s') :
    Counted (lives fdMax ((s, .fdNew t realloc calloc) :: h)) s' := by
  unfold fdStep at hs
  obtain ⟨⟨ht, hfresh⟩, hs⟩ := Option.ite_none_right_eq_some.mp hs
  have hnew : New s calloc (s.fdNew fdMax realloc calloc) := fdNew_spec
  have hmark : mark fdMax s (.fdNew t realloc calloc) =
      ((s.fdNew fdMax realloc calloc).2.bind (s.fdNew fdMax realloc calloc).1.fds).map (.made, ·) := rfl
  generalize s.fdNew fdMax realloc calloc = r at hnew hmark hs
  obtain ⟨s₁, fd⟩ := r
  cases fd with
  | none =>
    obtain rfl := Option.some.inj hs
    rw [lives_none hmark]
    exact hc.grown hnew
  | some fd =>
    obtain rfl := Option.some.inj hs
    obtain ⟨d, hd, hc'⟩ := hc.made hnew hfresh ht
    have hmade : mark fdMax s (.fdNew t realloc calloc) = some (.made, d) := by
      rw [hmark]
      show (s₁.fds fd).map _ = _
      rw [hd]
      rfl
    rw [lives_mark hmade]
    exact hc'

theorem step_fdGet (hc : Counted (lives fdMax h) s) (hs : fdStep fdMax s (.fdGet t) = some s') :
    Counted (lives fdMax ((s, .fdGet t) :: h)) s' := by
  rw [lives_none rfl]
  cases hpc : s.pc t with
  | newFd fd =>
    obtain ⟨hlt, d, hd, hl⟩ := hc.newFd t fd hpc
    simp only [fdStep, hpc, hc.lookup_eq hlt hd] at hs
    obtain rfl := Option.some.inj hs
    refine hc.get (fun p i e he => ?_) hlt hd rfl (fun _ u hu => ?_) ⟨fun _ => hl, ?_, ?_⟩ (by decide) ?_
    · rw [hpc] at he
      contradiction
    · refine hc.claim u t fd hu ?_
      rw [hpc]
      exact decide_eq_true rfl
    · exact fun h => absurd h (by decide)
    · exact fun h => absurd h (by decide)
    · exact fun h => absurd h (by decide)
  | idle | halted | «at» _ _ _ =>
    simp only [fdStep, hpc] at hs
    contradiction

theorem step_call {c : Call} (hc : Counted (lives fdMax h) s) (hP : Proper fdMax h s (.call t fd c))
    (hs : fdStep fdMax s (.call t fd c) = some s') : Counted (lives fdMax ((s, .call t fd c) :: h)) s' := by
  unfold fdStep at hs
  obtain ⟨ht, hs⟩ := Option.ite_none_right_eq_some.mp hs
  have hidle (p : Point) (i e : Nat) : s.pc t ≠ .at p i e := by
    rw [ht]
    exact fun h => by contradiction
  cases hlook : s.lookup fd with
  | none =>
    simp only [hlook] at hs
    obtain rfl := Option.some.inj hs
    have hmark : mark fdMax s (.call t fd c) = none := by
      cases c with
      | close => show (s.lookup fd).map _ = _; rw [hlook]; rfl
      | access op => show (s.lookup fd).map _ = _; rw [hlook]; rfl
    rw [lives_none hmark]
    exact hc
  | some d =>
    simp only [hlook] at hs
    obtain rfl := Option.some.inj hs
    obtain ⟨hlt, hd⟩ := lookup_some hlook
    cases c with
    | close =>
      have hmark : mark fdMax s (.call t fd .close) = some (.closer, d) := by
        show (s.lookup fd).map _ = _
        rw [hlook]
        rfl
      obtain ⟨hclosers, hdropped, hopens⟩ := hP.1 d (mem_marked hmark)
      have honce := hc.once d
      have hcalls : (life fdMax d h).calls = 0 := by
        have : (lives fdMax h d).calls ≤ (lives fdMax h d).closers := honce.2
        have hclosers : (lives fdMax h d).closers = 0 := hclosers
        show (lives fdMax h d).calls = 0
        omega
      have hone : ((life fdMax d h).next .closer) = ⟨1, 0, false⟩ := by
        show Life.mk ((life fdMax d h).closers + 1) (life fdMax d h).calls (life fdMax d h).dropped = _
        rw [hclosers, hcalls, hdropped]
      rw [lives_mark hmark, hone]
      refine (hc.firstClose hclosers hopens hdropped).get hidle hlt hd rfl (fun _ u hu => ?_) ?_ (by decide) ?_
      · rw [hc.unclaimed hclosers hopens hd u] at hu
        contradiction
      · rw [Function.update_self]
        exact ⟨fun h => absurd h (by decide), fun _ => ⟨rfl, rfl⟩, fun _ => rfl⟩
      · exact fun h => absurd h (by decide)
    | access op =>
      have hmark : mark fdMax s (.call t fd (.access op)) = some (.accessor, d) := by
        show (s.lookup fd).map _ = _
        rw [hlook]
        rfl
      have hsame : Function.update (lives fdMax h) d ((life fdMax d h).next .accessor) = lives fdMax h :=
        Function.update_eq_self _ _
      rw [lives_mark hmark, hsame]
      refine hc.get hidle hlt hd rfl ?_ ⟨?_, ?_, ?_⟩ ?_ fun _ u => hP.2.2 d (mem_marked hmark) u
      all_goals exact fun h => by contradiction

theorem step_closing (hc : Counted (lives fdMax h) s) (ht : s.pc t = .at .closeFile fd d)
    (hno : ∀ u, (s.pc u).accesses d = false) :
    Counted (Function.update (lives fdMax h) d ((life fdMax d h).next .closed)) (s.setPc t (.at .closing fd d)) := by
  obtain ⟨hlt, hd, hfit⟩ := hc.at' t _ fd d ht
  obtain ⟨hone, hdropped⟩ : (lives fdMax h d).closers = 1 ∧ (lives fdMax h d).dropped = false := hfit.inClose rfl
  have hcalls : (lives fdMax h d).calls = 0 := hfit.closeFile rfl
  have hc' : Counted (lives fdMax h) (s.setPc t (.at .closing fd d)) :=
    hc.goOn ht rfl rfl (fun _ => rfl) (fun hf => ⟨fun h => absurd h (by decide), fun _ => hf.inClose rfl,
      fun h => absurd h (by decide)⟩) (fun _ => hno) fun h => absurd h (by decide)
  refine hc'.relabel rfl ⟨Nat.le_of_eq hone, ?_⟩ (fun u q i hu => ?_) fun u i hu hd' => ?_
  · show (lives fdMax h d).calls + 1 ≤ (lives fdMax h d).closers
    omega
  · have hq := (hc'.at' u q i d hu).2.2
    refine ⟨fun ho => ?_, fun _ => ⟨hone, hdropped⟩, ?_⟩
    · rw [hq.inOpen ho] at hone
      contradiction
    · rintro rfl
      -- no other thread is in `close` with this descriptor
      have hut : u ≠ t := by
        rintro rfl
        rw [setPc_self] at hu
        exact absurd (FdPc.at.inj hu).1 (by decide)
      rw [setPc_of_ne _ _ hut] at hu
      have hi := hc.at' u _ i d hu
      refine absurd (hc.claim u t fd ?_ ?_) hut
      · rw [hu, hc.inj i hi.1 fd hlt d hi.2.1 hd]
        exact (Bool.and_eq_true _ _).mpr ⟨decide_eq_true rfl, rfl⟩
      · rw [ht]
        exact (Bool.and_eq_true _ _).mpr ⟨decide_eq_true rfl, rfl⟩
  · obtain ⟨-, e, he, hl⟩ := hc'.newFd u i hu
    obtain rfl := Option.some.inj (hd'.symm.trans he)
    rw [hl] at hone
    contradiction

theorem step_enter {fops : Option FileOps} (hc : Counted (lives fdMax h) s) (hP : Proper fdMax h s (.enter t fops))
    (hs : fdStep fdMax s (.enter t fops) = some s') : Counted (lives fdMax ((s, .enter t fops) :: h)) s' := by
  cases hpc : s.pc t with
  | idle | halted | newFd _ =>
    simp only [fdStep, hpc] at hs
    contradiction
  | «at» p fd d =>
    have hnomark (hp : p ≠ .closeFile) : mark fdMax s (.enter t fops) = none := by
      cases p <;> first | exact absurd rfl hp | simp only [mark, hpc]
    by_cases hopen : p = .openFile
    · obtain rfl := hopen
      rw [lives_none (hnomark (by decide))]
      cases fops with
      | none =>
        simp only [fdStep, hpc] at hs
        obtain rfl := Option.some.inj hs
        exact hc.goOn hpc rfl rfl (fun _ => rfl) (fun hf => ⟨fun _ => hf.inOpen rfl, fun h => absurd h (by decide),
          fun h => absurd h (by decide)⟩) (fun h => absurd h (by decide)) fun h => absurd h (by decide)
      | some f =>
        simp only [fdStep, hpc, enterPoint, Option.map_some] at hs
        obtain rfl := Option.some.inj hs
        have hc' : Counted (lives fdMax h) (s.setMem d { s.mem d with fops := some f }) :=
          hc.setMem fun _ _ _ => ⟨rfl, rfl⟩
        refine hc'.goOn (p := .openFile) hpc rfl ?_ (fun _ => rfl) (fun hf => ⟨fun _ => hf.inOpen rfl, ?_, ?_⟩) ?_ ?_
        all_goals split_ifs
        all_goals first | rfl | exact fun h => absurd h (by decide)
    · have hs' : ∃ f p', (s.mem d).fops = some f ∧ enterPoint f p = some p' ∧ s' = s.setPc t (.at p' fd d) := by
        cases p <;> first
          | exact absurd rfl hopen
          | skip
        all_goals
          simp only [fdStep, hpc] at hs
          obtain ⟨f, hf, hs⟩ := Option.bind_eq_some_iff.mp hs
          obtain ⟨p', hp', hs⟩ := Option.map_eq_some_iff.mp hs
          exact ⟨f, p', hf, hp', hs.symm⟩
      obtain ⟨f, p', hf, hp', rfl⟩ := hs'
      cases p with
      | closeFile =>
        by_cases hclose : f.close = true
        · have hmark : mark fdMax s (.enter t fops) = some (.closed, d) := by
            simp only [mark, hpc, hf, Option.any_some]
            exact if_pos hclose
          obtain rfl : Point.closing = p' := by
            have := Option.some.inj hp'
            rwa [if_pos hclose] at this
          rw [lives_mark hmark]
          exact step_closing hc hpc (hP.2.1 d (mem_marked hmark))
        · have hmark : mark fdMax s (.enter t fops) = none := by
            simp only [mark, hpc, hf, Option.any_some]
            exact if_neg hclose
          obtain rfl : Point.closePut = p' := by
            have := Option.some.inj hp'
            rwa [if_neg hclose] at this
          rw [lives_none hmark]
          exact hc.goOn hpc rfl rfl (fun _ => rfl) (fun hf => ⟨fun h => absurd h (by decide), fun _ => hf.inClose rfl,
            fun h => absurd h (by decide)⟩) (fun h => absurd h (by decide)) fun h => absurd h (by decide)
      | accessFile op =>
        rw [lives_none (hnomark fun h => by contradiction)]
        have hp'' := Option.some.inj hp'
        refine hc.goOn hpc rfl ?_ ?_ (fun _ => ⟨?_, ?_, ?_⟩) ?_ fun _ => rfl
        all_goals
          rw [← hp'']
          split_ifs
        all_goals first | rfl | exact fun h => by contradiction
      | openFile => exact absurd rfl hopen
      | opening | openPut | failPut | failPut2 | closing | closePut | closePut2 | closeFail | accessing _ | accessPut =>
        contradiction

theorem step_leave {ok : Bool} (hc : Counted (lives fdMax h) s) (hs : fdStep fdMax s (.leave t ok) = some s') :
    Counted (lives fdMax ((s, .leave t ok) :: h)) s' := by
  rw [lives_none rfl]
  cases hpc : s.pc t with
  | idle | halted | newFd _ =>
    simp only [fdStep, hpc] at hs
    contradiction
  | «at» p fd d =>
    simp only [fdStep, hpc] at hs
    obtain ⟨p', hp', rfl⟩ := Option.map_eq_some_iff.mp hs
    cases p with
    | opening =>
      have hp'' := Option.some.inj hp'
      refine hc.goOn hpc rfl ?_ (fun _ => rfl) (fun hf => ⟨fun _ => hf.inOpen rfl, ?_, ?_⟩) ?_ ?_
      all_goals
        rw [← hp'']
        split_ifs
      all_goals first | rfl | exact fun h => absurd h (by decide)
    | closing =>
      have hp'' := Option.some.inj hp'
      refine hc.goOn hpc rfl ?_ (fun _ => rfl) (fun hf => ⟨?_, fun _ => hf.inClose rfl, ?_⟩) ?_ ?_
      all_goals
        rw [← hp'']
        split_ifs
      all_goals first | rfl | exact fun h => absurd h (by decide)
    | accessing op =>
      obtain rfl := Option.some.inj hp'
      refine hc.goOn hpc rfl rfl ?_ (fun _ => ⟨?_, ?_, ?_⟩) ?_ ?_
      all_goals exact fun h => absurd h (by decide)
    | openFile | openPut | failPut | failPut2 | closeFile | closePut | closePut2 | closeFail | accessFile _
    | accessPut => contradiction

theorem step_fdPut (hc : Counted (lives fdMax h) s) (hs : fdStep fdMax s (.fdPut t) = some s') :
    Counted (lives fdMax ((s, .fdPut t) :: h)) s' := by
  cases hpc : s.pc t with
  | idle | halted | newFd _ =>
    simp only [fdStep, hpc] at hs
    contradiction
  | «at» p fd d =>
    simp only [fdStep, hpc] at hs
    obtain ⟨next, hnext, rfl⟩ := Option.map_eq_some_iff.mp hs
    have hput := hc.put hpc hnext
    by_cases howns : p.owns = true
    · have hmark : mark fdMax s (.fdPut t) = none := by
        cases p <;> first | contradiction | simp only [mark, hpc]
      rw [if_pos howns] at hput
      rwa [lives_none hmark]
    · have hmark : mark fdMax s (.fdPut t) = some (.dropped, d) := by
        cases p <;> first | exact absurd rfl howns | simp only [mark, hpc]
      rw [if_neg howns] at hput
      rwa [lives_mark hmark]

theorem step_reuse {v : DfsFd} (hc : Counted (lives fdMax h) s) (hs : fdStep fdMax s (.reuse d v) = some s') :
    Counted (lives fdMax ((s, .reuse d v) :: h)) s' := by
  rw [lives_none rfl]
  unfold fdStep at hs
  obtain ⟨hfree, hs⟩ := Option.ite_none_left_eq_some.mp hs
  obtain rfl := Option.some.inj hs
  exact hc.setMem fun i hi hd => absurd ⟨i, hi, hd⟩ hfree

theorem step_counted (hc : Counted (lives fdMax h) s) (hP : Proper fdMax h s a) (hs : fdStep fdMax s a = some s') :
    Counted (lives fdMax ((s, a) :: h)) s' := by
  cases a with
  | fdNew t realloc calloc => exact step_fdNew hc hs
  | fdGet t => exact step_fdGet hc hs
  | call t fd c => exact step_call hc hP hs
  | enter t fops => exact step_enter hc hP hs
  | leave t ok => exact step_leave hc hs
  | fdPut t => exact step_fdPut hc hs
  | reuse d v => exact step_reuse hc hs

end steps

/-! ## Runs -/

section runs

variable {fdMax : Nat} {h : History (FdState τ) (FdAction τ)} {s s' : FdState τ} {a : FdAction τ} {t : τ} {fd d : Nat}

theorem counted_run (hrun : (descriptors τ fdMax).Run h s) (hP : Throughout (Proper fdMax) h) :
    Counted (lives fdMax h) s := by
  refine System.Run.invariant (I := fun h s => Counted (lives fdMax h) s) (fun s hs => ?_) ?_ hrun hP
  · exact counted_init hs.1 hs.2.2
  · exact fun _ _ _ _ _ hc hP hs => step_counted hc hP hs

/-- Open a descriptor with number 0 at address 7. -/
def openFirst {n : Nat} (t : Fin n) : List (FdAction (Fin n)) :=
  [.fdNew t true (some 7), .fdGet t, .enter t (some ⟨true, true, true, true⟩), .leave t true, .fdPut t]

def emptyTable (n : Nat) : FdState (Fin n) := ⟨fun _ => ⟨0, 0, none⟩, fun _ => none, 0, fun _ => .idle⟩

theorem init_empty (n fdMax : Nat) : (descriptors (Fin n) fdMax).init (emptyTable n) :=
  ⟨rfl, fun _ => rfl, fun _ => rfl⟩

/-- Two threads close one descriptor, and the file system is called twice; a thread closes a descriptor while another
one is reading; two threads close a descriptor for which a third one has a reference, and its slot is taken again. -/
theorem close_races :
    (∃ h s, (descriptors (Fin 3) 16).Run h s ∧ (life 16 7 h).calls = 2) ∧
    (∃ h s, (descriptors (Fin 3) 16).Run h s ∧ s.pc 0 = .at .closing 0 7 ∧ s.pc 1 = .at (.accessing .read) 0 7) ∧
    ∃ h s, (descriptors (Fin 3) 16).Run h s ∧
      ¬ Throughout (fun _ s a => ∀ fd ∈ slotTaken 16 s a, ∀ t, (s.pc t).slot ≠ some fd) h := by
  refine ⟨?_, ?_, ?_⟩
  · exact System.exists_run (init_empty 3 16)
      (openFirst 0 ++ [.call 0 0 .close, .call 1 0 .close, .enter 0 none, .leave 0 true, .enter 1 none]) _
      (by decide +kernel)
  · exact System.exists_run (init_empty 3 16)
      (openFirst 0 ++ [.call 1 0 (.access .read), .enter 1 none, .call 0 0 .close, .enter 0 none]) _
      (by decide +kernel)
  · exact System.exists_run (init_empty 3 16)
      (openFirst 0 ++ [.call 2 0 (.access .read), .call 0 0 .close, .call 1 0 .close, .enter 0 none, .leave 0 true,
        .enter 1 none, .leave 1 true, .fdPut 0, .fdPut 0, .fdPut 1, .fdPut 1, .fdNew 0 true (some 7)]) _
      (by decide +kernel)

/-- In a run whose callers use the descriptors properly, the file system is called at most once to close a descriptor,
not while another thread is in an operation of it, and a slot is taken only when no thread has a reference to it. -/
theorem descriptor_life_time (hrun : (descriptors τ fdMax).Run h s) (hP : Throughout (Proper fdMax) h) :
    (∀ d, (life fdMax d h).calls ≤ 1) ∧
    (∀ t u i j d op, s.pc t = .at .closing i d → s.pc u ≠ .at (.accessing op) j d) ∧
    Throughout (fun _ s a => ∀ fd ∈ slotTaken fdMax s a, ∀ t, (s.pc t).slot ≠ some fd) h := by
  have hc := counted_run hrun hP
  refine ⟨fun d => Nat.le_trans (hc.once d).2 (hc.once d).1, fun t u i j d op ht hu => ?_, ?_⟩
  · have hno := hc.apart t u d (by rw [ht]; simp [FdPc.closing])
    rw [hu] at hno
    simp [FdPc.accesses, Point.accesses] at hno
  · refine System.Run.throughout (G := Proper fdMax) (I := fun h s => Counted (lives fdMax h) s)
      (fun h s => counted_run) (fun h s a s' _ hc _ hs fd hfd t => ?_) hrun hP
    cases a with
    | fdNew u realloc calloc =>
      have hnew : New s calloc (s.fdNew fdMax realloc calloc) := fdNew_spec
      have hfd : (s.fdNew fdMax realloc calloc).2 = some fd := hfd
      generalize s.fdNew fdMax realloc calloc = r at hnew hfd
      obtain ⟨s₁, _⟩ := r
      obtain rfl := hfd
      exact hc.slot_free hnew t
    | fdGet | call | enter | leave | fdPut | reuse => contradiction

/-! ### A condition on the callers -/

/-- A descriptor is closed once, and a call is made with a number only when no thread is in a call with that one. -/
structure OneAtATime (fdMax : Nat) (h : History (FdState τ) (FdAction τ)) (s : FdState τ) (a : FdAction τ) : Prop where
  once : ∀ d ∈ marked .closer fdMax s a, (life fdMax d h).closers = 0
  alone : ∀ t fd c, a = .call t fd c → ∀ u, (s.pc u).slot ≠ some fd

/-- No two threads are in calls with one number. -/
def Apart (s : FdState τ) : Prop := ∀ t u i, (s.pc t).slot = some i → (s.pc u).slot = some i → t = u

omit [DecidableEq τ] in
theorem Apart.keep (hs : Apart s) (hslot : ∀ u i, (s'.pc u).slot = some i → (s.pc u).slot = some i) : Apart s' :=
  fun t u i ht hu => hs t u i (hslot t i ht) (hslot u i hu)

/-- A thread goes on with the number that it has, or leaves its call. -/
theorem Apart.goOn {pc : FdPc} (hs : Apart s) (hpc : s'.pc = Function.update s.pc t pc)
    (hslot : ∀ i, pc.slot = some i → (s.pc t).slot = some i) : Apart s' := by
  refine hs.keep fun u i hu => ?_
  rw [hpc] at hu
  by_cases hut : u = t
  · rw [hut, Function.update_self] at hu
    rw [hut]
    exact hslot i hu
  · rwa [Function.update_of_ne hut] at hu

theorem Apart.enter {pc : FdPc} (hs : Apart s) (hpc : s'.pc = Function.update s.pc t pc) (hslot : pc.slot = some fd)
    (hfree : ∀ u, (s.pc u).slot ≠ some fd) : Apart s' := by
  have hother {u : τ} {i : Nat} (hut : u ≠ t) (hu : (s'.pc u).slot = some i) : (s.pc u).slot = some i ∧ i ≠ fd := by
    rw [hpc, Function.update_of_ne hut] at hu
    refine ⟨hu, fun hi => hfree u ?_⟩
    rw [hu, hi]
  have hself {i : Nat} (ht : (s'.pc t).slot = some i) : i = fd := by
    rw [hpc, Function.update_self, hslot] at ht
    exact (Option.some.inj ht).symm
  intro u v i hu hv
  by_cases hut : u = t
  · by_cases hvt : v = t
    · rw [hut, hvt]
    · rw [hut] at hu
      exact absurd (hself hu) (hother hvt hv).2
  · by_cases hvt : v = t
    · rw [hvt] at hv
      exact absurd (hself hv) (hother hut hu).2
    · exact hs u v i (hother hut hu).1 (hother hvt hv).1

/-- The call of the file system is made for the descriptor that the thread has. -/
theorem enter_pc {fops : Option FileOps} (hs : fdStep fdMax s (.enter t fops) = some s') :
    ∃ p p' i e, s.pc t = .at p i e ∧ s'.pc = Function.update s.pc t (.at p' i e) := by
  cases hpc : s.pc t with
  | idle | halted | newFd _ =>
    simp only [fdStep, hpc] at hs
    contradiction
  | «at» p i e =>
    cases p with
    | openFile =>
      cases fops with
      | none =>
        simp only [fdStep, hpc] at hs
        obtain rfl := Option.some.inj hs
        exact ⟨.openFile, .failPut, i, e, rfl, rfl⟩
      | some f =>
        simp only [fdStep, hpc] at hs
        obtain ⟨p', -, rfl⟩ := Option.map_eq_some_iff.mp hs
        exact ⟨.openFile, p', i, e, rfl, rfl⟩
    | _ =>
      simp only [fdStep, hpc] at hs
      obtain ⟨f, -, hs⟩ := Option.bind_eq_some_iff.mp hs
      obtain ⟨p', -, rfl⟩ := Option.map_eq_some_iff.mp hs
      exact ⟨_, p', i, e, rfl, rfl⟩

theorem step_apart {L : Nat → Life} (hc : Counted L s) (hs : Apart s) (hA : OneAtATime fdMax h s a)
    (hstep : fdStep fdMax s a = some s') : Apart s' := by
  cases a with
  | fdNew t realloc calloc =>
    unfold fdStep at hstep
    obtain ⟨-, hstep⟩ := Option.ite_none_right_eq_some.mp hstep
    have hnew : New s calloc (s.fdNew fdMax realloc calloc) := fdNew_spec
    generalize s.fdNew fdMax realloc calloc = r at hnew hstep
    obtain ⟨s₁, fd⟩ := r
    cases fd with
    | none =>
      obtain rfl := Option.some.inj hstep
      cases hnew with
      | fail _ hg _ => exact hs.keep fun u i hu => by rwa [hg.pc] at hu
    | some fd =>
      obtain rfl := Option.some.inj hstep
      have hpc : (s₁.setPc t (.newFd fd)).pc = Function.update s.pc t (.newFd fd) := by
        cases hnew with
        | made _ _ _ hg => exact congrArg (Function.update · t (.newFd fd)) hg.pc
      exact hs.enter hpc rfl fun u => hc.slot_free hnew u
  | fdGet t =>
    cases hpc : s.pc t with
    | newFd fd =>
      simp only [fdStep, hpc] at hstep
      split at hstep
      · obtain rfl := Option.some.inj hstep
        refine hs.goOn rfl fun i hi => ?_
        rw [hpc]
        exact hi
      · obtain rfl := Option.some.inj hstep
        exact hs.goOn rfl fun i hi => by contradiction
    | idle | halted | «at» _ _ _ =>
      simp only [fdStep, hpc] at hstep
      contradiction
  | call t fd c =>
    obtain ⟨-, hstep⟩ := Option.ite_none_right_eq_some.mp hstep
    split at hstep
    · obtain rfl := Option.some.inj hstep
      exact hs.enter rfl rfl (hA.alone t fd c rfl)
    · obtain rfl := Option.some.inj hstep
      exact hs
  | enter t fops =>
    obtain ⟨p, p', i, e, hpc, hpc'⟩ := enter_pc hstep
    refine hs.goOn hpc' fun j hj => ?_
    rw [hpc]
    exact hj
  | leave t ok =>
    cases hpc : s.pc t with
    | «at» p i e =>
      simp only [fdStep, hpc] at hstep
      obtain ⟨p', -, rfl⟩ := Option.map_eq_some_iff.mp hstep
      refine hs.goOn rfl fun j hj => ?_
      rw [hpc]
      exact hj
    | idle | halted | newFd _ =>
      simp only [fdStep, hpc] at hstep
      contradiction
  | fdPut t =>
    cases hpc : s.pc t with
    | «at» p i e =>
      simp only [fdStep, hpc] at hstep
      obtain ⟨next, -, rfl⟩ := Option.map_eq_some_iff.mp hstep
      refine hs.goOn (congrArg (Function.update · t _) (fdPut_frame s e).1) fun j hj => ?_
      rw [hpc]
      cases next with
      | none => contradiction
      | some p' => exact hj
    | idle | halted | newFd _ =>
      simp only [fdStep, hpc] at hstep
      contradiction
  | reuse d v =>
    obtain ⟨-, hstep⟩ := Option.ite_none_left_eq_some.mp hstep
    obtain rfl := Option.some.inj hstep
    exact hs

omit [DecidableEq τ] in
/-- No thread has a reference to the descriptor of a number that no thread is in a call with. -/
theorem Counted.not_at {L : Nat → Life} (hc : Counted L s) (hlt : fd < s.maxfd) (hd : s.fds fd = some d)
    (hfree : ∀ u, (s.pc u).slot ≠ some fd) (u : τ) (p : Point) (i : Nat) : s.pc u ≠ .at p i d := by
  intro hpc
  obtain ⟨hi, he, -⟩ := hc.at' u p i d hpc
  refine hfree u ?_
  rw [hpc, hc.inj i hi fd hlt d he hd]
  rfl

omit [DecidableEq τ] in
theorem Counted.not_dropped {L : Nat → Life} (hc : Counted L s) (hlt : fd < s.maxfd) (hd : s.fds fd = some d)
    (hfree : ∀ u, (s.pc u).slot ≠ some fd) : (L d).dropped = false := by
  obtain ⟨-, hpos, hcounts⟩ := hc.entry fd hlt d hd
  obtain ⟨x, hx⟩ := hcounts.exists_own hpos
  cases x with
  | none => exact hx
  | some t =>
    obtain ⟨p, i, hpc, -⟩ := hx
    exact absurd hpc (hc.not_at hlt hd hfree t p i)

omit [DecidableEq τ] in
theorem mark_of_mem {m : Mark} (hd : d ∈ marked m fdMax s a) : mark fdMax s a = some (m, d) := by
  obtain ⟨⟨m', d'⟩, hmark, hd⟩ := Option.bind_eq_some_iff.mp hd
  obtain ⟨hm, hd⟩ := Option.ite_none_right_eq_some.mp hd
  rw [hmark, ← hm, ← Option.some.inj hd]

omit [DecidableEq τ] in
/-- Which steps obtain a descriptor, and which ones call the file system to close it. -/
theorem mark_inv {m : Mark} (hmark : mark fdMax s a = some (m, d)) :
    match m with
    | .closer | .accessor => ∃ t fd c, a = .call t fd c ∧ s.lookup fd = some d
    | .closed => ∃ t i, s.pc t = .at .closeFile i d
    | .made | .dropped => True := by
  cases a with
  | call t fd c =>
    cases c with
    | close | access _ =>
      obtain ⟨e, he, heq⟩ := Option.map_eq_some_iff.mp hmark
      obtain ⟨rfl, rfl⟩ := Prod.mk.inj heq
      exact ⟨t, fd, _, rfl, he⟩
  | enter t fops =>
    simp only [mark] at hmark
    split at hmark
    · rename_i i e hpc
      split_ifs at hmark
      obtain ⟨rfl, rfl⟩ := Prod.mk.inj (Option.some.inj hmark)
      exact ⟨t, i, hpc⟩
    · contradiction
  | fdNew t realloc calloc =>
    obtain ⟨e, -, heq⟩ := Option.map_eq_some_iff.mp hmark
    obtain ⟨rfl, -⟩ := Prod.mk.inj heq
    trivial
  | fdPut t =>
    simp only [mark] at hmark
    split at hmark
    · obtain ⟨rfl, -⟩ := Prod.mk.inj (Option.some.inj hmark)
      trivial
    · obtain ⟨rfl, -⟩ := Prod.mk.inj (Option.some.inj hmark)
      trivial
    · contradiction
  | fdGet | leave | reuse => contradiction

omit [DecidableEq τ] in
theorem proper_of_apart {h : History (FdState τ) (FdAction τ)} (hc : Counted (lives fdMax h) s) (hs : Apart s)
    (hA : OneAtATime fdMax h s a) : Proper fdMax h s a := by
  refine ⟨fun d hd => ?_, fun d hd u => ?_, fun d hd u => ?_⟩
  · obtain ⟨t, fd, c, ha, hlookup⟩ := mark_inv (mark_of_mem hd)
    obtain ⟨hlt, hfd⟩ := lookup_some hlookup
    have hfree := hA.alone t fd c ha
    refine ⟨hA.once d hd, hc.not_dropped hlt hfd hfree, fun u => ?_⟩
    unfold FdState.opens
    cases hpc : s.pc u with
    | newFd i =>
      obtain ⟨hi, -⟩ := hc.newFd u i hpc
      refine decide_eq_false fun hid => hfree u ?_
      rw [hpc, hc.inj i hi fd hlt d hid hfd]
      rfl
    | «at» p i e =>
      refine Bool.and_eq_false_iff.mpr (.inl (decide_eq_false fun hed => ?_))
      exact hc.not_at hlt hfd hfree u p i (hed ▸ hpc)
    | idle | halted => rfl
  · obtain ⟨t, i, hpc⟩ := mark_inv (mark_of_mem hd)
    cases hpcu : s.pc u with
    | «at» p j e =>
      refine Bool.and_eq_false_iff.mpr ?_
      by_cases hed : e = d
      · obtain ⟨hi, hid, -⟩ := hc.at' t .closeFile i d hpc
        obtain ⟨hj, hje, -⟩ := hc.at' u p j e hpcu
        rw [hed] at hje
        -- the thread is the one that closes
        have htu : t = u := hs t u i (by rw [hpc]; rfl) (by rw [hpcu, hc.inj i hi j hj d hid hje]; rfl)
        rw [← htu, hpc] at hpcu
        obtain ⟨rfl, -, -⟩ := FdPc.at.inj hpcu
        exact .inr rfl
      · exact .inl (decide_eq_false hed)
    | idle | halted | newFd _ => rfl
  · obtain ⟨t, fd, c, ha, hlookup⟩ := mark_inv (mark_of_mem hd)
    obtain ⟨hlt, hfd⟩ := lookup_some hlookup
    cases hpc : s.pc u with
    | «at» p i e =>
      refine Bool.and_eq_false_iff.mpr (.inl (decide_eq_false fun hed => ?_))
      exact hc.not_at hlt hfd (hA.alone t fd c ha) u p i (hed ▸ hpc)
    | idle | halted | newFd _ => rfl

/-- If each descriptor is closed once, and no call is made with a number that a thread is in a call with, the callers
use the descriptors properly. -/
theorem proper_of_oneAtATime (hrun : (descriptors τ fdMax).Run h s) (hA : Throughout (OneAtATime fdMax) h) :
    Throughout (Proper fdMax) h := by
  refine hrun.throughout (I := fun h s => Counted (lives fdMax h) s ∧ Apart s) (fun h s hr hall => ?_)
    (fun _ _ _ _ _ hI hA _ => proper_of_apart hI.1 hI.2 hA) hA
  refine hr.invariant (I := fun h s => Counted (lives fdMax h) s ∧ Apart s) ?_ ?_ hall
  · rintro s ⟨hmax, -, hpc⟩
    refine ⟨counted_init hmax hpc, fun t u i ht => ?_⟩
    rw [hpc] at ht
    contradiction
  · rintro h s a s' _ ⟨hc, hs⟩ hA hstep
    exact ⟨step_counted hc (proper_of_apart hc hs hA) hstep, step_apart hc hs hA hstep⟩

instance [Fintype τ] (h : History (FdState τ) (FdAction τ)) (s : FdState τ) (a : FdAction τ) :
    Decidable (Proper fdMax h s a) :=
  @instDecidableAnd _ _ (Option.decidableForallMem _)
    (@instDecidableAnd _ _ (Option.decidableForallMem _) (Option.decidableForallMem _))

/-- One thread closes a descriptor while another one still has the reference of its `read`, and the slot is taken
again behind both. -/
theorem descriptor_life_time_run : ∃ h s, (descriptors (Fin 2) 16).Run h s ∧ s.pc 0 = .newFd 0 ∧
    (∀ d, (life 16 d h).calls ≤ 1) ∧
    Throughout (fun _ s a => ∀ fd ∈ slotTaken 16 s a, ∀ t, (s.pc t).slot ≠ some fd) h := by
  obtain ⟨h, s, hrun, hP, hpc⟩ := System.exists_run (init_empty 2 16)
    (openFirst 0 ++ [.call 1 0 (.access .read), .enter 1 none, .leave 1 true, .call 0 0 .close, .enter 0 none,
      .leave 0 true, .fdPut 0, .fdPut 0, .fdPut 1, .fdNew 0 true (some 7)])
    (fun h s => Throughout (Proper 16) h ∧ s.pc 0 = .newFd 0) (by decide +kernel)
  obtain ⟨hcalls, -, hslots⟩ := descriptor_life_time hrun hP
  exact ⟨h, s, hrun, hpc, hcalls, hslots⟩

end runs

end ThyristorController.Descriptors
