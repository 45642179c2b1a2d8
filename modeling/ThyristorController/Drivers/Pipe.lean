import Mathlib.Data.Fintype.Basic
import Mathlib.Data.List.Basic
import Mathlib.Logic.Function.Basic
import ThyristorController.Dfs.Poll
import ThyristorController.Drivers.RingBuffer
import ThyristorController.Drivers.WaitQueue
import ThyristorController.Kernel.IpcThreads
import ThyristorController.Lib.Run

/-!
# Pipes (`components/drivers/src/pipe.c`)

`pipe_fops_open`, `pipe_fops_close`, `pipe_fops_read` and `pipe_fops_write` of any number of threads on one named pipe.
The sections under the lock of the pipe, the tests in front of them, and the critical sections of `rt_wqueue_wait` and
`rt_wqueue_wakeup` are one step each.

A wake-up resumes one thread, and the flag of a wait queue is cleared by the first thread that leaves it: `no_sleepers`
says that no thread sleeps on a pipe that is ready for it, when no two threads wait on the same side and none waits
without need. A read looks at the number of writers before it looks into the buffer: `end_of_file` says that nothing is
lost at the end of file, when every read that finds no writer finds the buffer empty, and `drained_of_orderly` that it
is so when the last writer closes an empty buffer.
-/

namespace ThyristorController.Pipes

open Transition
open Polls (pollin pollout pollerr pollhup)
open WaitQueues (RtWqueue RtWqueueNode rtWqueueInit)
open WaitQueues.WaitState (waitNode)

/-! ## The pipe -/

/-- The wait queues `reader_queue` and `writer_queue`. -/
inductive Side where
  | reader | writer
  deriving DecidableEq

def Side.other : Side → Side
  | .reader => .writer
  | .writer => .reader

/-- `fd->flags & O_ACCMODE`; no case of the functions is for the last value. -/
inductive AccMode where
  | rdonly | wronly | rdwr | accmode
  deriving DecidableEq

def AccMode.reads : AccMode → Bool
  | .rdonly | .rdwr => true
  | _ => false

def AccMode.writes : AccMode → Bool
  | .wronly | .rdwr => true
  | _ => false

/-- The variables of `pipe_fops_read`, and those of `pipe_fops_write`, in which `pbuf` is what is left of the bytes. -/
inductive Call where
  | read (count : Nat) (nonblock : Bool)
  | write (pbuf : List UInt8) (ret : Nat) (wakeup nonblock : Bool)
  deriving DecidableEq

/-- The queue in which the call waits. -/
def Call.side : Call → Side
  | .read _ _ => .reader
  | .write _ _ _ _ => .writer

/-- Where a thread is: out of the calls, the last of which returned `ret`; before the first test; before the lock is
taken and the buffer looked at; behind an `rt_ringbuffer_get`, before `rt_wqueue_wakeup`; behind the loop of a write; in
the part of the loop that waits; or in `pipe_fops_close`. -/
inductive PipePc where
  | finished (ret : Int)
  | test (c : Call)
  | look (c : Call)
  | getWake (len : Nat)
  | putWake (ret : Int) (wakeup : Bool)
  | wakeOther (c : Call)
  | wait (c : Call)
  | waiting (c : Call)
  | waited (c : Call)
  | closeReaders
  | closeWriters
  | closeLast
  deriving DecidableEq

/-- `rt_pipe_t` with the threads. `fds` are the open descriptors: there are at most `DFS_FD_MAX`, so that the counters
do not wrap. The contents of the ring buffer are a list. -/
structure PipeState (τ : Type) where
  lock : Option τ
  fifo : Option (List UInt8)
  readers : Nat
  writers : Nat
  refCount : Nat
  fds : List AccMode
  queue : Side → RtWqueue τ
  suspended : τ → Bool
  pc : τ → PipePc

/-- `DFS_FD_MAX`. -/
def dfsFdMax : Nat := 16

/-- `EAGAIN`, `EPIPE` and `RT_ENOMEM`. -/
def eagain : Int := 11
def epipe : Int := 32
def rtEnomem : Int := 5

/-- `rt_ringbuffer_put` into a buffer of the size `cap`: the contents, and the number of bytes. -/
def put (cap : Nat) (q ptr : List UInt8) : List UInt8 × Nat :=
  (q ++ ptr.take (cap - q.length), min (cap - q.length) ptr.length)

/-- `rt_ringbuffer_get`: the contents, and the bytes. -/
def get (q : List UInt8) (length : Nat) : List UInt8 × List UInt8 := (q.drop length, q.take length)

/-- A `size_t` that is passed to the ring buffer as a `rt_uint16_t`. -/
def length16 (n : Nat) : Nat := n % 2 ^ 16

variable {τ : Type} [DecidableEq τ]

namespace PipeState

def setPc (s : PipeState τ) (t : τ) (pc : PipePc) : PipeState τ := { s with pc := Function.update s.pc t pc }

def setQueue (s : PipeState τ) (d : Side) (q : RtWqueue τ) : PipeState τ :=
  { s with queue := Function.update s.queue d q }

/-- The counter of the descriptors at the other end: without any, a thread of this side need not wait. -/
def others (s : PipeState τ) : Side → Nat
  | .reader => s.writers
  | .writer => s.readers

/-- `rt_wqueue_wakeup`, up to `rt_schedule`. -/
def wakeup (s : PipeState τ) (d : Side) (key : UInt32) : PipeState τ :=
  let q := s.queue d
  match q.first key with
  | none => s.setQueue d { q with flag := true }
  | some e =>
    { s with suspended := Function.update s.suspended e.pollingThread false }.setQueue d
      ({ q with flag := true }.remove e)

/-- `pipe_fops_open`; `ok` is whether there is memory for a ring buffer. -/
def open' (s : PipeState τ) (t : τ) (mode : AccMode) (ok : Bool) : PipeState τ :=
  if s.refCount = 0 ∧ ok = false then { s with fifo := none }.setPc t (.finished (-rtEnomem))
  else
    { s with
      fifo := if s.refCount = 0 then some [] else s.fifo
      readers := if mode.reads then s.readers + 1 else s.readers
      writers := if mode.writes then s.writers + 1 else s.writers
      refCount := s.refCount + 1
      fds := mode :: s.fds }.setPc t (.finished 0)

/-- `pipe_fops_close`, up to the first test. -/
def close (s : PipeState τ) (t : τ) (mode : AccMode) : PipeState τ :=
  { s with
    lock := some t
    readers := if mode.reads then s.readers - 1 else s.readers
    writers := if mode.writes then s.writers - 1 else s.writers
    fds := s.fds.erase mode }.setPc t .closeReaders

/-- The first tests of `pipe_fops_read` and `pipe_fops_write`, without the lock. -/
def test (s : PipeState τ) (t : τ) : Call → PipeState τ
  | .read count nonblock => s.setPc t (if s.writers = 0 then .finished 0 else .look (.read count nonblock))
  | .write pbuf ret wakeup nonblock =>
    s.setPc t (if s.readers = 0 then .finished (-epipe) else if pbuf = [] then .finished 0
      else .look (.write pbuf ret wakeup nonblock))

/-- The loops of `pipe_fops_read` and `pipe_fops_write` from the lock to its release, or to a wake-up before it. An
assertion of the ring buffer fails if there is none. -/
def look (cap : Nat) (s : PipeState τ) (t : τ) : Call → Option (PipeState τ)
  | .read count nonblock =>
    if s.writers = 0 then some (s.setPc t (.finished 0))
    else s.fifo.map fun q =>
      let (rest, buf) := get q (length16 count)
      if 0 < buf.length then { s with lock := some t, fifo := some rest }.setPc t (.getWake buf.length)
      else if nonblock then s.setPc t (.finished (-eagain))
      else s.setPc t (.wakeOther (.read count nonblock))
  | .write pbuf ret wakeup nonblock =>
    if s.readers = 0 then some (s.setPc t (.putWake (if ret = 0 then -epipe else ret) wakeup))
    else s.fifo.map fun q =>
      let (q, len) := put cap q (pbuf.take (length16 pbuf.length))
      let ret := ret + len
      { s with fifo := some q }.setPc t
        (if pbuf.length = len then .putWake ret true
        else if nonblock then .putWake (if ret = 0 then -eagain else ret) true
        else .wakeOther (.write (pbuf.drop len) ret true nonblock))

/-- `rt_wqueue_wait`, up to `rt_schedule` or to its `rt_wqueue_remove`. -/
def wait (s : PipeState τ) (t : τ) (c : Call) : PipeState τ :=
  let q := s.queue c.side
  if q.flag then (s.setQueue c.side { q with flag := false }).setPc t (.waited c)
  else
    { s with suspended := Function.update s.suspended t true }.setQueue c.side (q.add (waitNode t))
      |>.setPc t (.waiting c)

/-- The key of the wake-up of the other side before a wait. -/
def otherKey : Side → UInt32
  | .reader => pollout
  | .writer => pollin

/-- The next step of a thread in a call. -/
def goOn (cap : Nat) (s : PipeState τ) (t : τ) : Option (PipeState τ) :=
  if s.suspended t then none
  else
    match s.pc t with
    | .finished _ => none
    | .test c => some (s.test t c)
    | .look c => if s.lock = none then s.look cap t c else none
    | .getWake len => some ({ s.wakeup .writer pollout with lock := none }.setPc t (.finished len))
    | .putWake ret wakeup => some ((if wakeup then s.wakeup .reader pollin else s).setPc t (.finished ret))
    | .wakeOther c => some ((s.wakeup c.side.other (otherKey c.side)).setPc t (.wait c))
    | .wait c => some (s.wait t c)
    | .waiting c => some ((s.setQueue c.side { s.queue c.side with flag := false }).setPc t (.waited c))
    | .waited c => some ((s.setQueue c.side ((s.queue c.side).remove (waitNode t))).setPc t (.look c))
    | .closeReaders =>
      some ((if s.writers = 0 then s.wakeup .reader (pollin ||| pollerr ||| pollhup) else s).setPc t .closeWriters)
    | .closeWriters =>
      some ((if s.readers = 0 then s.wakeup .writer (pollout ||| pollerr ||| pollhup) else s).setPc t .closeLast)
    | .closeLast =>
      some ({ s with
        lock := none
        fifo := if s.refCount = 1 then none else s.fifo
        refCount := s.refCount - 1 }.setPc t (.finished 0))

end PipeState

/-- The start of a call, or the next step of one. -/
inductive PipeAction (τ : Type) where
  | open' (t : τ) (mode : AccMode) (ok : Bool)
  | close (t : τ) (mode : AccMode)
  | read (t : τ) (count : Nat) (nonblock : Bool)
  | write (t : τ) (buf : List UInt8) (nonblock : Bool)
  | goOn (t : τ)
  deriving DecidableEq

/-- The thread is in none of the calls. -/
def PipePc.isFinished : PipePc → Bool
  | .finished _ => true
  | _ => false

def pipeStep (cap : Nat) (s : PipeState τ) : PipeAction τ → Option (PipeState τ)
  | .open' t mode ok =>
    if (s.pc t).isFinished ∧ s.lock = none ∧ s.fds.length < dfsFdMax then some (s.open' t mode ok) else none
  | .close t mode => if (s.pc t).isFinished ∧ s.lock = none ∧ mode ∈ s.fds then some (s.close t mode) else none
  | .read t count nonblock => if (s.pc t).isFinished then some (s.setPc t (.test (.read count nonblock))) else none
  | .write t buf nonblock =>
    if (s.pc t).isFinished then some (s.setPc t (.test (.write buf 0 false nonblock))) else none
  | .goOn t => s.goOn cap t

/-- A pipe behind `rt_pipe_create`, whose ring buffers have the size `cap`. -/
def pipes (τ : Type) [DecidableEq τ] (cap : Nat) : System (PipeState τ) (PipeAction τ) where
  init s := s.lock = none ∧ s.fifo = none ∧ s.readers = 0 ∧ s.writers = 0 ∧ s.refCount = 0 ∧ s.fds = [] ∧
    (∀ d, s.queue d = rtWqueueInit) ∧ ∀ t, s.suspended t = false ∧ (s.pc t).isFinished = true
  step := pipeStep cap

theorem put_fifo (cap : Nat) (q ptr : List UInt8) :
    RingBuffers.Fifo cap q (.put ptr) (.count (put cap q ptr).2) (put cap q ptr).1 :=
  .put q ptr

theorem get_fifo (cap : Nat) (q : List UInt8) (length : Nat) :
    RingBuffers.Fifo cap q (.get length) (.bytes (get q length).2) (get q length).1 :=
  .get q length

/-! ## Sleeping threads -/

namespace PipePc

/-- The thread has the lock. -/
def holds : PipePc → Bool
  | .getWake _ | .closeReaders | .closeWriters | .closeLast => true
  | _ => false

/-- The thread is in `pipe_fops_close`. -/
def closing : PipePc → Bool
  | .closeReaders | .closeWriters | .closeLast => true
  | _ => false

/-- The side on which the thread waits, from the release of the lock to the next look at the buffer. -/
def waits : PipePc → Option Side
  | .wakeOther c | .wait c | .waiting c | .waited c => some c.side
  | _ => none

/-- A queue may be woken up when the thread goes on. -/
def wakes : PipePc → Bool
  | .getWake _ | .putWake _ _ | .wakeOther _ | .closeReaders | .closeWriters => true
  | _ => false

end PipePc

namespace PipeState

/-- The bytes in the buffer. -/
def data (s : PipeState τ) : List UInt8 := s.fifo.getD []

/-- A reader finds a byte or no writer, a writer space or no reader. -/
def Ready (cap : Nat) (s : PipeState τ) : Side → Prop
  | .reader => s.data ≠ [] ∨ s.writers = 0
  | .writer => (s.fifo ≠ none ∧ s.data.length < cap) ∨ s.readers = 0

/-- The look at the buffer ends with a wait. -/
def Blocks (cap : Nat) (s : PipeState τ) : Call → Prop
  | .read count nonblock => s.writers ≠ 0 ∧ (get s.data (length16 count)).2 = [] ∧ nonblock = false
  | .write pbuf _ _ nonblock =>
    s.readers ≠ 0 ∧ pbuf.length ≠ (put cap s.data (pbuf.take (length16 pbuf.length))).2 ∧ nonblock = false

/-- A read finds no byte, and a write leaves no space. -/
def Exhausts (cap : Nat) (s : PipeState τ) : Call → Prop
  | .read _ _ => s.data = []
  | .write pbuf _ _ _ => cap ≤ (put cap s.data (pbuf.take (length16 pbuf.length))).1.length

/-- The thread sleeps in `rt_wqueue_wait`. -/
def Sleeps (s : PipeState τ) (t : τ) (d : Side) : Prop :=
  s.suspended t = true ∧ (s.pc t).waits = some d

/-- The thread is in none of the calls, or sleeps. -/
def Still (s : PipeState τ) (t : τ) : Prop := (s.pc t).isFinished = true ∨ s.suspended t = true

end PipeState

/-- A thread whose look ends with a wait waits alone on its side, for a byte or for space that is not there. -/
def ProperLook (cap : Nat) (s : PipeState τ) (t : τ) : PipePc → Prop
  | .look c => s.Blocks cap c → s.Exhausts cap c ∧ ∀ u, u ≠ t → (s.pc u).waits ≠ some c.side
  | _ => True

def Proper (cap : Nat) (s : PipeState τ) : PipeAction τ → Prop
  | .goOn t => ProperLook cap s t (s.pc t)
  | _ => True

/-! ### The invariant -/

/-- The thread is going to wake the queue up. -/
def Pending (s : PipeState τ) (u : τ) (d : Side) : Prop :=
  match s.pc u with
  | .getWake _ => d = .writer
  | .putWake _ wakeup => wakeup = true ∧ d = .reader
  | .wakeOther c => d = c.side.other
  | .closeReaders => s.others d = 0
  | .closeWriters => d = .writer ∧ s.others d = 0
  | _ => False

/-- The thread sleeps, or goes to sleep when it goes on. -/
def Stays (s : PipeState τ) (t : τ) (d : Side) : Prop :=
  match s.pc t with
  | .wakeOther c | .wait c => c.side = d ∧ (s.queue d).flag = false
  | .waiting c => c.side = d ∧ s.suspended t = true
  | _ => False

/-- The thread that has the lock is about to lower `ref_count`. -/
def closer (s : PipeState τ) : Nat :=
  match s.lock with
  | some t => if (s.pc t).closing then 1 else 0
  | none => 0

/-- The lock and the counters. -/
structure Counts (s : PipeState τ) : Prop where
  lock : ∀ t, (s.pc t).holds = true ↔ s.lock = some t
  readers : s.readers = s.fds.countP (·.reads)
  writers : s.writers = s.fds.countP (·.writes)
  refCount : s.refCount = s.fds.length + closer s
  present : s.fifo = none → s.fds = []

/-- One thread waits on each side, and the queue has its entry while it sleeps. -/
structure Queues (s : PipeState τ) : Prop where
  single : ∀ t u d, (s.pc t).waits = some d → (s.pc u).waits = some d → t = u
  listed : ∀ d, ∀ e ∈ (s.queue d).waitingList, s.suspended e.pollingThread = true ∧
    (s.pc e.pollingThread).waits = some d
  asleep : ∀ t, s.suspended t = true → ∃ c, s.pc t = .waiting c ∧ s.queue c.side = ⟨false, [waitNode t]⟩

/-- The wake-up of a thread that sleeps on a ready side is still to come. -/
def Awaited (cap : Nat) (s : PipeState τ) : Prop := ∀ t d, Stays s t d → s.Ready cap d → ∃ u, Pending s u d

structure Ok (cap : Nat) (s : PipeState τ) : Prop where
  counts : Counts s
  queues : Queues s
  awaited : Awaited cap s


section steps

variable {cap : Nat} {s s' : PipeState τ} {t u v : τ} {d : Side} {c : Call} {pc : PipePc} {key : UInt32}
  {mode : AccMode}

/-! ### What the operations leave alone -/

@[simp] theorem setPc_self : (s.setPc t pc).pc t = pc := Function.update_self _ _ _

@[simp] theorem setPc_other (hne : t ≠ u) : (s.setPc u pc).pc t = s.pc t := Function.update_of_ne hne _ _

omit [DecidableEq τ] in
@[simp] theorem setQueue_self {q : RtWqueue τ} : (s.setQueue d q).queue d = q := Function.update_self _ _ _

omit [DecidableEq τ] in
@[simp] theorem setQueue_other {d' : Side} {q : RtWqueue τ} (hne : d' ≠ d) : (s.setQueue d q).queue d' = s.queue d' :=
  Function.update_of_ne hne _ _

@[simp] theorem other_ne (d : Side) : d.other ≠ d := by
  cases d
  all_goals decide

/-- A wake-up changes the queues and the threads that are suspended, and nothing else. -/
theorem wakeup_frame (s : PipeState τ) (d : Side) (key : UInt32) :
    s.wakeup d key = { s with queue := (s.wakeup d key).queue, suspended := (s.wakeup d key).suspended } := by
  unfold PipeState.wakeup
  dsimp only
  cases (s.queue d).first key with
  | none => rfl
  | some e => rfl

@[simp] theorem wakeup_pc : (s.wakeup d key).pc = s.pc := by rw [wakeup_frame]

@[simp] theorem wakeup_lock : (s.wakeup d key).lock = s.lock := by rw [wakeup_frame]

@[simp] theorem wakeup_fifo : (s.wakeup d key).fifo = s.fifo := by rw [wakeup_frame]

theorem wakeup_ready {d' : Side} : (s.wakeup d key).Ready cap d' ↔ s.Ready cap d' := by
  rw [wakeup_frame]
  cases d'
  all_goals exact Iff.rfl

theorem wakeup_counts (hc : Counts s) : Counts (s.wakeup d key) := by
  rw [wakeup_frame]
  exact ⟨hc.lock, hc.readers, hc.writers, hc.refCount, hc.present⟩

/-! ### The lock and the counters -/

omit [DecidableEq τ] in
theorem not_suspended (hq : Queues s) (hpc : ∀ c, s.pc u ≠ .waiting c) : s.suspended u = false := by
  cases hs : s.suspended u with
  | false => rfl
  | true =>
    obtain ⟨c, hc, -⟩ := hq.asleep u hs
    exact absurd hc (hpc c)

omit [DecidableEq τ] in
theorem awake_of_pc (hq : Queues s) (hpc : s.pc u = pc) (hwaits : pc.waits = none) : s.suspended u = false := by
  refine not_suspended hq fun c hc => ?_
  rw [← hpc, hc] at hwaits
  contradiction

omit [DecidableEq τ] in
/-- Without a thread that has the lock no thread is in `pipe_fops_close`. -/
theorem closer_unlocked (hlock : s.lock = none) : closer s = 0 := by
  rw [closer, hlock]

omit [DecidableEq τ] in
theorem Counts.unlocked (hc : Counts s) (hlock : s.lock = none) (t : τ) : (s.pc t).holds = false := by
  cases hh : (s.pc t).holds with
  | false => rfl
  | true =>
    have hl := (hc.lock t).mp hh
    rw [hlock] at hl
    contradiction

theorem Counts.setPc (hc : Counts s) (hholds : pc.holds = (s.pc u).holds) (hclosing : pc.closing = (s.pc u).closing) :
    Counts (s.setPc u pc) := by
  refine ⟨fun t => ?_, hc.readers, hc.writers, ?_, hc.present⟩
  · by_cases ht : t = u
    · subst ht
      rw [setPc_self, hholds]
      exact hc.lock t
    · rw [setPc_other ht]
      exact hc.lock t
  · have hsame : closer (s.setPc u pc) = closer s := by
      unfold closer
      show (match s.lock with
        | some t => if ((s.setPc u pc).pc t).closing then 1 else 0
        | none => 0) = _
      cases s.lock with
      | none => rfl
      | some t =>
        dsimp only
        by_cases ht : t = u
        · subst ht
          rw [setPc_self, hclosing]
        · rw [setPc_other ht]
    rw [hsame]
    exact hc.refCount

omit [DecidableEq τ] in
theorem Counts.setFifo (hc : Counts s) {q : List UInt8} : Counts { s with fifo := some q } :=
  ⟨hc.lock, hc.readers, hc.writers, hc.refCount, fun hn => by contradiction⟩

theorem Counts.acquire (hc : Counts s) (hlock : s.lock = none) (hholds : pc.holds = true)
    (hclosing : pc.closing = false) : Counts ({ s with lock := some u }.setPc u pc) := by
  refine ⟨fun t => ?_, hc.readers, hc.writers, ?_, hc.present⟩
  · show _ ↔ some u = some t
    by_cases ht : t = u
    · subst ht
      rw [setPc_self]
      exact iff_of_true hholds rfl
    · rw [setPc_other ht]
      exact iff_of_false (by simp [hc.unlocked hlock t]) fun he => ht (Option.some.inj he).symm
  · have hnone : closer ({ s with lock := some u }.setPc u pc) = 0 := by
      show (if (Function.update s.pc u pc u).closing then 1 else 0) = 0
      rw [Function.update_self, hclosing]
      rfl
    rw [hnone]
    have hcount := hc.refCount
    rwa [closer_unlocked hlock] at hcount

theorem Counts.release (hc : Counts s) (hheld : (s.pc u).holds = true) (hopen : (s.pc u).closing = false)
    (hholds : pc.holds = false) : Counts ({ s with lock := none }.setPc u pc) := by
  have hlock := (hc.lock u).mp hheld
  refine ⟨fun t => ?_, hc.readers, hc.writers, ?_, hc.present⟩
  · refine iff_of_false ?_ fun he => by contradiction
    by_cases ht : t = u
    · subst ht
      rw [setPc_self, hholds]
      exact Bool.false_ne_true
    · rw [setPc_other ht]
      intro hh
      have hl := (hc.lock t).mp hh
      rw [hlock] at hl
      exact ht (Option.some.inj hl).symm
  · have hnone : closer s = 0 := by
      rw [closer, hlock]
      dsimp only
      rw [hopen]
      rfl
    have hcount := hc.refCount
    rwa [hnone] at hcount

/-! ### The queues -/

/-- A step of a thread that is awake, which is alone on the side on which it waits then. -/
theorem Queues.setPc (hq : Queues s) (hawake : s.suspended u = false)
    (halone : ∀ d, pc.waits = some d → ∀ t, t ≠ u → (s.pc t).waits ≠ some d) : Queues (s.setPc u pc) := by
  have hne : ∀ t, s.suspended t = true → t ≠ u := by
    rintro t hs rfl
    rw [hawake] at hs
    contradiction
  refine ⟨fun t v d ht hv => ?_, fun d e he => ?_, fun t hs => ?_⟩
  · by_cases htu : t = u
    · by_cases hvu : v = u
      · rw [htu, hvu]
      · rw [htu, setPc_self] at ht
        rw [setPc_other hvu] at hv
        exact absurd hv (halone d ht v hvu)
    · rw [setPc_other htu] at ht
      by_cases hvu : v = u
      · rw [hvu, setPc_self] at hv
        exact absurd ht (halone d hv t htu)
      · rw [setPc_other hvu] at hv
        exact hq.single t v d ht hv
  · obtain ⟨hsus, hw⟩ := hq.listed d e he
    rw [setPc_other (hne _ hsus)]
    exact ⟨hsus, hw⟩
  · rw [setPc_other (hne t hs)]
    exact hq.asleep t hs

theorem Queues.move (hq : Queues s) (hawake : s.suspended u = false)
    (hwaits : pc.waits = none ∨ pc.waits = (s.pc u).waits) : Queues (s.setPc u pc) := by
  refine hq.setPc hawake fun d hd t ht hw => ?_
  rcases hwaits with hnone | hsame
  · rw [hnone] at hd
    contradiction
  · rw [hsame] at hd
    exact ht (hq.single t u d hw hd)

omit [DecidableEq τ] in
theorem Queues.entry (hq : Queues s) {e : RtWqueueNode τ} (he : e ∈ (s.queue d).waitingList) :
    e = waitNode e.pollingThread ∧ s.queue d = ⟨false, [waitNode e.pollingThread]⟩ := by
  obtain ⟨hsus, hw⟩ := hq.listed d e he
  obtain ⟨c, hc, hqueue⟩ := hq.asleep _ hsus
  rw [hc] at hw
  obtain rfl : c.side = d := Option.some.inj hw
  rw [hqueue] at he
  exact ⟨List.mem_singleton.mp he, hqueue⟩

theorem wakeup_spec (hq : Queues s) (d : Side) (key : UInt32) :
    (s.wakeup d key).queue d = ⟨true, []⟩ ∧ (∀ d', d' ≠ d → (s.wakeup d key).queue d' = s.queue d') ∧
      ∀ t, (s.wakeup d key).suspended t = true ↔ s.suspended t = true ∧ (s.pc t).waits ≠ some d := by
  have hempty : (s.queue d).waitingList = [] → ∀ t, s.suspended t = true → (s.pc t).waits ≠ some d := by
    intro hnil t hsus hw
    obtain ⟨c, hc, hqueue⟩ := hq.asleep t hsus
    rw [hc] at hw
    obtain rfl : c.side = d := Option.some.inj hw
    rw [hqueue] at hnil
    contradiction
  unfold PipeState.wakeup RtWqueue.first
  dsimp only
  cases hlist : (s.queue d).waitingList with
  | nil =>
    refine ⟨?_, fun d' hne => setQueue_other hne, fun t => ?_⟩
    · show (s.setQueue d ⟨true, []⟩).queue d = _
      exact setQueue_self
    · exact ⟨fun hs => ⟨hs, hempty hlist t hs⟩, fun hs => hs.1⟩
  | cons e l =>
    obtain ⟨he, hqueue⟩ := hq.entry (d := d) (e := e) (by rw [hlist]; exact List.mem_cons_self)
    obtain ⟨hsus, hw⟩ := hq.listed d e (by rw [hlist]; exact List.mem_cons_self)
    have haccepts : e.accepts key = true := by
      rw [he]
      rfl
    rw [List.find?_cons_of_pos haccepts]
    dsimp only
    refine ⟨?_, fun d' hne => setQueue_other hne, fun t => ?_⟩
    · have hl : e :: l = [e] := by
        rw [← hlist, hqueue, ← he]
      rw [setQueue_self, RtWqueue.remove, hl]
      simp
    · show Function.update s.suspended e.pollingThread false t = true ↔ _
      by_cases ht : t = e.pollingThread
      · rw [ht, Function.update_self]
        exact iff_of_false Bool.false_ne_true fun hs => hs.2 hw
      · rw [Function.update_of_ne ht]
        exact ⟨fun hs => ⟨hs, fun hw' => ht (hq.single _ _ _ hw' hw)⟩, fun hs => hs.1⟩

theorem Queues.wakeup (hq : Queues s) (d : Side) (key : UInt32) : Queues (s.wakeup d key) := by
  obtain ⟨hself, hother, hsus⟩ := wakeup_spec hq d key
  refine ⟨?_, fun d' e he => ?_, fun t hs => ?_⟩
  · rw [wakeup_pc]
    exact hq.single
  · by_cases hd : d' = d
    · rw [hd, hself] at he
      contradiction
    · rw [hother d' hd] at he
      obtain ⟨hs, hw⟩ := hq.listed d' e he
      rw [hsus, wakeup_pc]
      exact ⟨⟨hs, fun hw' => hd (Option.some.inj (hw.symm.trans hw'))⟩, hw⟩
  · obtain ⟨hs, hw⟩ := (hsus t).mp hs
    obtain ⟨c, hc, hqueue⟩ := hq.asleep t hs
    have hd : c.side ≠ d := by
      rintro rfl
      rw [hc] at hw
      exact hw rfl
    rw [wakeup_pc]
    exact ⟨c, hc, (hother c.side hd).trans hqueue⟩

/-! ### The wake-ups to come -/

omit [DecidableEq τ] in
theorem stays_waits (hstays : Stays s t d) : (s.pc t).waits = some d := by
  unfold Stays at hstays
  cases hpc : s.pc t with
  | wakeOther c | wait c | waiting c =>
    rw [hpc] at hstays
    exact congrArg some hstays.1
  | _ =>
    rw [hpc] at hstays
    exact hstays.elim

omit [DecidableEq τ] in
theorem stays_congr (hpc : s'.pc t = s.pc t) (hflag : (s'.queue d).flag = false → (s.queue d).flag = false)
    (hsus : s'.suspended t = true → s.suspended t = true) (hstays : Stays s' t d) : Stays s t d := by
  unfold Stays at hstays ⊢
  rw [hpc] at hstays
  cases hp : s.pc t with
  | wakeOther c | wait c =>
    rw [hp] at hstays
    exact ⟨hstays.1, hflag hstays.2⟩
  | waiting c =>
    rw [hp] at hstays
    exact ⟨hstays.1, hsus hstays.2⟩
  | _ =>
    rw [hp] at hstays
    exact hstays

omit [DecidableEq τ] in
theorem not_pending (hpc : s.pc t = pc) (hwakes : pc.wakes = false) : ¬ Pending s t d := by
  unfold Pending
  rw [hpc]
  cases pc with
  | getWake _ | putWake _ _ | wakeOther _ | closeReaders | closeWriters => contradiction
  | _ => exact id

omit [DecidableEq τ] in
theorem pending_congr (hpc : s'.pc v = s.pc v) (hothers : (s.pc v).holds = true → s'.others = s.others)
    (hpending : Pending s v d) : Pending s' v d := by
  unfold Pending at hpending ⊢
  rw [hpc]
  cases hp : s.pc v with
  | closeReaders | closeWriters =>
    rw [hp] at hpending hothers
    rw [hothers rfl]
    exact hpending
  | _ =>
    rw [hp] at hpending
    exact hpending

omit [DecidableEq τ] in
/-- A step of a thread: the others stay as they are, a side that becomes ready is one that the thread wakes up, and the
thread itself goes to sleep only on a side that is not ready. -/
theorem Awaited.step (ha : Awaited cap s) (u : τ) (hpc : ∀ t, t ≠ u → s'.pc t = s.pc t)
    (hflag : ∀ d, (s'.queue d).flag = false → (s.queue d).flag = false ∨ ∀ t, t ≠ u → (s.pc t).waits ≠ some d)
    (hsus : ∀ t, t ≠ u → s'.suspended t = true → s.suspended t = true)
    (hothers : s'.others = s.others ∨ ∀ t, t ≠ u → (s.pc t).holds = false)
    (hready : ∀ d, s'.Ready cap d → s.Ready cap d ∨ Pending s' u d)
    (hu : ∀ d, Stays s' u d → Stays s u d ∨ ¬ s'.Ready cap d)
    (hpending : ∀ d, Pending s u d → Pending s' u d ∨ ∀ t, ¬ Stays s' t d) : Awaited cap s' := by
  intro t d hstays hr
  have hold : Stays s t d := by
    by_cases ht : t = u
    · subst ht
      exact (hu d hstays).resolve_right fun hn => hn hr
    · have hw := stays_waits hstays
      rw [hpc t ht] at hw
      refine stays_congr (hpc t ht) (fun hf => ?_) (hsus t ht) hstays
      exact (hflag d hf).resolve_right fun hnone => hnone t ht hw
  rcases hready d hr with hr | hp
  · obtain ⟨v, hv⟩ := ha t d hold hr
    by_cases hvu : v = u
    · rw [hvu] at hv
      exact ⟨u, (hpending d hv).resolve_right fun hnone => hnone t hstays⟩
    · refine ⟨v, pending_congr (hpc v hvu) (fun hh => ?_) hv⟩
      refine hothers.resolve_right fun hnone => ?_
      rw [hnone v hvu] at hh
      contradiction
  · exact ⟨u, hp⟩

theorem Awaited.move (ha : Awaited cap s) (hu : ∀ d, Stays (s.setPc u pc) u d → Stays s u d ∨ ¬ s.Ready cap d)
    (hpending : ∀ d, Pending s u d → Pending (s.setPc u pc) u d) : Awaited cap (s.setPc u pc) := by
  refine ha.step u (fun t ht => setPc_other ht) (fun d hf => .inl hf) (fun t _ hs => hs) (.inl rfl) ?_ ?_ ?_
  · intro d hr
    left
    cases d
    all_goals exact hr
  · intro d hstays
    refine (hu d hstays).imp_right fun hn hr => hn ?_
    cases d
    all_goals exact hr
  · exact fun d hp => .inl (hpending d hp)

omit [DecidableEq τ] in
theorem not_stays_of_waits (hwaits : (s.pc t).waits = none) : ¬ Stays s t d := by
  intro hstays
  rw [stays_waits hstays] at hwaits
  contradiction

/-- A thread that waits on no side goes to a place where it does not, either. -/
theorem Ok.move (hok : Ok cap s) (hawake : s.suspended u = false) (hholds : pc.holds = (s.pc u).holds)
    (hclosing : pc.closing = (s.pc u).closing) (hwaits : pc.waits = none)
    (hpending : ∀ d, Pending s u d → Pending (s.setPc u pc) u d) : Ok cap (s.setPc u pc) := by
  refine ⟨hok.counts.setPc hholds hclosing, hok.queues.move hawake (.inl hwaits), hok.awaited.move ?_ hpending⟩
  intro d hstays
  exact absurd hstays (not_stays_of_waits (by rw [setPc_self]; exact hwaits))

theorem Awaited.wake (ha : Awaited cap s) (hq : Queues s) (hne : pc.waits ≠ some d)
    (hu : ∀ d', Stays ((s.wakeup d key).setPc u pc) u d' → Stays s u d')
    (hpending : ∀ d', d' ≠ d → Pending s u d' → Pending ((s.wakeup d key).setPc u pc) u d') :
    Awaited cap ((s.wakeup d key).setPc u pc) := by
  obtain ⟨hself, hother, hsus⟩ := wakeup_spec hq d key
  have hpc : ∀ t, t ≠ u → ((s.wakeup d key).setPc u pc).pc t = s.pc t := by
    intro t ht
    rw [setPc_other ht, wakeup_pc]
  have hnone : ∀ t, ¬ Stays ((s.wakeup d key).setPc u pc) t d := by
    intro t hstays
    have hw := stays_waits hstays
    by_cases ht : t = u
    · rw [ht, setPc_self] at hw
      exact hne hw
    · rw [hpc t ht] at hw
      unfold Stays at hstays
      rw [hpc t ht] at hstays
      cases hp : s.pc t with
      | wakeOther c | wait c =>
        rw [hp] at hstays
        have hf : ((s.wakeup d key).queue d).flag = false := hstays.2
        rw [hself] at hf
        contradiction
      | waiting c =>
        rw [hp] at hstays
        exact ((hsus t).mp hstays.2).2 hw
      | _ =>
        rw [hp] at hstays
        exact hstays
  refine ha.step u hpc (fun d' hf => ?_) (fun t _ hs => ((hsus t).mp hs).1) (.inl ?_) (fun d' hr => .inl ?_)
    (fun d' hs => .inl (hu d' hs)) fun d' hp => ?_
  · by_cases hd : d' = d
    · have hf' : ((s.wakeup d key).queue d').flag = false := hf
      rw [hd, hself] at hf'
      contradiction
    · have hf' : ((s.wakeup d key).queue d').flag = false := hf
      rw [hother d' hd] at hf'
      exact .inl hf'
  · rw [wakeup_frame]
    rfl
  · refine wakeup_ready.mp (?_ : (s.wakeup d key).Ready cap d')
    cases d'
    all_goals exact hr
  · by_cases hd : d' = d
    · rw [hd]
      exact .inr hnone
    · exact .inl (hpending d' hd hp)

theorem Ok.wake (hok : Ok cap s) (hawake : s.suspended u = false) (hholds : pc.holds = (s.pc u).holds)
    (hclosing : pc.closing = (s.pc u).closing) (hwaits : pc.waits = none ∨ pc.waits = (s.pc u).waits)
    (hne : pc.waits ≠ some d) (hu : ∀ d', Stays ((s.wakeup d key).setPc u pc) u d' → Stays s u d')
    (hpending : ∀ d', d' ≠ d → Pending s u d' → Pending ((s.wakeup d key).setPc u pc) u d') :
    Ok cap ((s.wakeup d key).setPc u pc) := by
  refine ⟨?_, ?_, hok.awaited.wake hok.queues hne hu hpending⟩
  · apply (wakeup_counts hok.counts).setPc
    · rw [wakeup_pc]
      exact hholds
    · rw [wakeup_pc]
      exact hclosing
  · apply (hok.queues.wakeup d key).move
    · rw [Bool.eq_false_iff]
      intro hs
      rw [((wakeup_spec hok.queues d key).2.2 u).mp hs |>.1] at hawake
      contradiction
    · rw [wakeup_pc]
      exact hwaits

/-! ### The steps -/

omit [DecidableEq τ] in
theorem not_pending_finished (hfin : (s.pc t).isFinished = true) : ¬ Pending s t d := by
  cases hp : s.pc t with
  | finished ret => exact not_pending hp rfl
  | _ =>
    rw [hp] at hfin
    contradiction

omit [DecidableEq τ] in
theorem finished_awake (hq : Queues s) (hfin : (s.pc t).isFinished = true) :
    s.suspended t = false ∧ (s.pc t).holds = false ∧ (s.pc t).closing = false ∧ (s.pc t).waits = none := by
  cases hp : s.pc t with
  | finished ret =>
    exact ⟨awake_of_pc hq hp rfl, rfl, rfl, rfl⟩
  | _ =>
    rw [hp] at hfin
    contradiction

theorem Ok.start (hok : Ok cap s) (hfin : (s.pc u).isFinished = true) : Ok cap (s.setPc u (.test c)) := by
  obtain ⟨hawake, hholds, hclosing, -⟩ := finished_awake hok.queues hfin
  exact hok.move hawake hholds.symm hclosing.symm rfl fun d hp => absurd hp (not_pending_finished hfin)

omit [DecidableEq τ] in
theorem Queues.congr (hq : Queues s) (hpc : s'.pc = s.pc) (hqueue : s'.queue = s.queue)
    (hsus : s'.suspended = s.suspended) : Queues s' := by
  constructor
  · rw [hpc]
    exact hq.single
  · rw [hpc, hqueue, hsus]
    exact hq.listed
  · rw [hpc, hqueue, hsus]
    exact hq.asleep

/-- The counters change while no thread has the lock, and no side becomes ready. -/
theorem Ok.recount {ret : Int} (hok : Ok cap s) (hfin : (s.pc u).isFinished = true) (hlock : s.lock = none)
    (hpc : s'.pc = s.pc) (hqueue : s'.queue = s.queue) (hsus : s'.suspended = s.suspended) (hcounts : Counts s')
    (hready : ∀ d, s'.Ready cap d → s.Ready cap d) : Ok cap (s'.setPc u (.finished ret)) := by
  obtain ⟨hawake, hholds, hclosing, -⟩ := finished_awake hok.queues hfin
  rw [← hsus] at hawake
  rw [← hpc] at hholds hclosing
  refine ⟨hcounts.setPc hholds.symm hclosing.symm, (hok.queues.congr hpc hqueue hsus).move hawake (.inl rfl), ?_⟩
  refine hok.awaited.step u (fun t ht => ?_) (fun d hf => .inl ?_) (fun t _ hs => ?_)
    (.inr fun t _ => hok.counts.unlocked hlock t) (fun d hr => .inl (hready d ?_)) ?_ ?_
  · rw [setPc_other ht, hpc]
  · rw [← hqueue]
    exact hf
  · rw [← hsus]
    exact hs
  · cases d
    all_goals exact hr
  · intro d hstays
    exact absurd hstays (not_stays_of_waits (by rw [setPc_self]; rfl))
  · intro d hp
    exact absurd hp (not_pending_finished hfin)

theorem Ok.open' (hok : Ok cap s) (hfin : (s.pc u).isFinished = true) (hlock : s.lock = none) (ok : Bool) :
    Ok cap (s.open' u mode ok) := by
  have hcount := hok.counts.refCount
  rw [closer_unlocked hlock, Nat.add_zero] at hcount
  have hempty : s.refCount = 0 → s.fds = [] := by
    intro h0
    rwa [hcount, List.length_eq_zero_iff] at h0
  have hzero : s.refCount = 0 → s.readers = 0 := by
    intro h0
    rw [hok.counts.readers, hempty h0]
    rfl
  unfold PipeState.open'
  by_cases hfail : s.refCount = 0 ∧ ok = false
  · rw [if_pos hfail]
    apply hok.recount hfin hlock
    · rfl
    · rfl
    · rfl
    · exact ⟨hok.counts.lock, hok.counts.readers, hok.counts.writers, hok.counts.refCount, fun _ => hempty hfail.1⟩
    · intro d hr
      cases d with
      | reader => exact .inr (hr.resolve_left fun hn => hn rfl)
      | writer => exact .inr (hzero hfail.1)
  · rw [if_neg hfail]
    apply hok.recount hfin hlock
    · rfl
    · rfl
    · rfl
    · refine ⟨hok.counts.lock, ?_, ?_, ?_, fun hn => ?_⟩
      · show (if mode.reads then s.readers + 1 else s.readers) = _
        rw [List.countP_cons, ← hok.counts.readers]
        split_ifs
        · rfl
        · rfl
      · show (if mode.writes then s.writers + 1 else s.writers) = _
        rw [List.countP_cons, ← hok.counts.writers]
        split_ifs
        · rfl
        · rfl
      · show s.refCount + 1 = s.fds.length + 1 + closer s
        rw [hcount, closer_unlocked hlock]
      · exfalso
        have hn' : (if s.refCount = 0 then some [] else s.fifo) = none := hn
        split_ifs at hn' with h0
        rw [hcount, hok.counts.present hn'] at h0
        exact h0 rfl
    · intro d hr
      cases d with
      | reader =>
        have hr' : (if s.refCount = 0 then some [] else s.fifo).getD [] ≠ [] ∨
            (if mode.writes then s.writers + 1 else s.writers) = 0 := hr
        rcases hr' with hd | hw
        · split_ifs at hd
          · exact absurd rfl hd
          · exact .inl hd
        · split_ifs at hw
          exact .inr hw
      | writer =>
        have hr' : ((if s.refCount = 0 then some [] else s.fifo) ≠ none ∧
            ((if s.refCount = 0 then some [] else s.fifo).getD []).length < cap) ∨
            (if mode.reads then s.readers + 1 else s.readers) = 0 := hr
        rcases hr' with hd | hw
        · split_ifs at hd with h0
          · exact .inr (hzero h0)
          · exact .inl hd
        · split_ifs at hw
          exact .inr hw

theorem Ok.close (hok : Ok cap s) (hfin : (s.pc u).isFinished = true) (hlock : s.lock = none) (hmode : mode ∈ s.fds) :
    Ok cap (s.close u mode) := by
  obtain ⟨hawake, hholds, hclosing, -⟩ := finished_awake hok.queues hfin
  have hmoved : Queues (s.setPc u .closeReaders) := hok.queues.move hawake (.inl rfl)
  refine ⟨⟨fun t => ?_, ?_, ?_, ?_, fun hn => ?_⟩, hmoved.congr rfl rfl rfl, ?_⟩
  · show _ ↔ some u = some t
    by_cases ht : t = u
    · subst ht
      exact iff_of_true (by rw [PipeState.close, setPc_self]; rfl) rfl
    · rw [PipeState.close, setPc_other ht]
      exact iff_of_false (by simp [hok.counts.unlocked hlock t]) fun he => ht (Option.some.inj he).symm
  · show (if mode.reads then s.readers - 1 else s.readers) = (s.fds.erase mode).countP _
    rw [List.countP_erase, hok.counts.readers]
    cases mode.reads <;> simp [hmode]
  · show (if mode.writes then s.writers - 1 else s.writers) = (s.fds.erase mode).countP _
    rw [List.countP_erase, hok.counts.writers]
    cases mode.writes <;> simp [hmode]
  · have hone : closer (s.close u mode) = 1 := by
      show (if (Function.update s.pc u .closeReaders u).closing then 1 else 0) = 1
      rw [Function.update_self]
      rfl
    have hpos : 0 < s.fds.length := List.length_pos_of_mem hmode
    have hcount := hok.counts.refCount
    rw [closer_unlocked hlock] at hcount
    rw [hone]
    show s.refCount = (s.fds.erase mode).length + 1
    rw [List.length_erase_of_mem hmode]
    omega
  · rw [hok.counts.present hn] at hmode
    contradiction
  · refine hok.awaited.step u (fun t ht => setPc_other ht) (fun d hf => .inl hf) (fun t _ hs => hs)
      (.inr fun t _ => hok.counts.unlocked hlock t) (fun d hr => ?_) ?_ ?_
    · have hpending : (s.close u mode).others d = 0 → Pending (s.close u mode) u d := by
        intro h0
        unfold Pending
        rw [PipeState.close, setPc_self]
        exact h0
      cases d with
      | reader => exact hr.imp (fun hd => .inl hd) hpending
      | writer => exact hr.imp (fun hd => .inl hd) hpending
    · intro d hstays
      exact absurd hstays (not_stays_of_waits (by rw [PipeState.close, setPc_self]; rfl))
    · intro d hp
      exact absurd hp (not_pending_finished hfin)

theorem Ok.test (hok : Ok cap s) (hpc : s.pc u = .test c) : Ok cap (s.test u c) := by
  have hawake := awake_of_pc hok.queues hpc rfl
  have hnone : ∀ d, ¬ Pending s u d := fun _ => not_pending hpc rfl
  have hmove : ∀ pc : PipePc, pc.holds = false → pc.closing = false → pc.waits = none → Ok cap (s.setPc u pc) := by
    intro pc hholds hclosing hwaits
    refine hok.move hawake ?_ ?_ hwaits fun d hp => absurd hp (hnone d)
    · rw [hpc]
      exact hholds
    · rw [hpc]
      exact hclosing
  cases c with
  | read count nonblock =>
    unfold PipeState.test
    dsimp only
    split_ifs
    · exact hmove _ rfl rfl rfl
    · exact hmove _ rfl rfl rfl
  | write pbuf ret wakeup nonblock =>
    unfold PipeState.test
    dsimp only
    split_ifs
    · exact hmove _ rfl rfl rfl
    · exact hmove _ rfl rfl rfl
    · exact hmove _ rfl rfl rfl

/-- A look that leaves the lock free: what becomes ready is to be woken up, and the thread waits for nothing that is
there. -/
theorem Ok.looked {q : List UInt8} (hok : Ok cap s) (hpc : s.pc u = .look c) (hholds : pc.holds = false)
    (hclosing : pc.closing = false)
    (halone : ∀ d, pc.waits = some d → ∀ t, t ≠ u → (s.pc t).waits ≠ some d)
    (hready : ∀ d, PipeState.Ready cap { s with fifo := some q } d → s.Ready cap d ∨ Pending (s.setPc u pc) u d)
    (hwait : ∀ d, pc.waits = some d → ¬ PipeState.Ready cap { s with fifo := some q } d) :
    Ok cap ({ s with fifo := some q }.setPc u pc) := by
  have hawake := awake_of_pc hok.queues hpc rfl
  have hsame : ∀ d, ({ s with fifo := some q }.setPc u pc).Ready cap d ↔
      PipeState.Ready cap { s with fifo := some q } d := by
    intro d
    cases d
    all_goals exact Iff.rfl
  refine ⟨hok.counts.setFifo.setPc ?_ ?_, (hok.queues.setPc hawake halone).congr rfl rfl rfl, ?_⟩
  · rw [hpc]
    exact hholds
  · rw [hpc]
    exact hclosing
  · refine hok.awaited.step u (fun t ht => setPc_other ht) (fun d hf => .inl hf) (fun t _ hs => hs) (.inl rfl) ?_ ?_ ?_
    · intro d hr
      exact hready d ((hsame d).mp hr)
    · intro d hstays
      right
      have hw := stays_waits hstays
      rw [setPc_self] at hw
      exact fun hr => hwait d hw ((hsame d).mp hr)
    · intro d hp
      exact absurd hp (not_pending hpc rfl)

theorem Ok.returned (hok : Ok cap s) (hpc : s.pc u = .look c) (hholds : pc.holds = false)
    (hclosing : pc.closing = false) (hwaits : pc.waits = none) : Ok cap (s.setPc u pc) := by
  refine hok.move (awake_of_pc hok.queues hpc rfl) ?_ ?_ hwaits fun d hp => absurd hp (not_pending hpc rfl)
  · rw [hpc]
    exact hholds
  · rw [hpc]
    exact hclosing

omit [DecidableEq τ] in
theorem data_of_fifo {q : List UInt8} (hfifo : s.fifo = some q) : s.data = q := by
  rw [PipeState.data, hfifo]
  rfl

omit [DecidableEq τ] in
theorem ready_reader {q : List UInt8} (hfifo : s.fifo = some q) {count : Nat}
    (hr : PipeState.Ready cap { s with fifo := some (q.drop count) } .reader) : s.Ready cap .reader := by
  refine Or.imp_left (fun hd hq => ?_) hr
  rw [data_of_fifo hfifo] at hq
  have hnil : q = [] := hq
  exact hd (by rw [PipeState.data, hnil, List.drop_nil]; rfl)

theorem Ok.read {count : Nat} {nonblock : Bool} (hok : Ok cap s) (hpc : s.pc u = .look (.read count nonblock))
    (hlock : s.lock = none) (hP : Proper cap s (.goOn u)) (hs : s.look cap u (.read count nonblock) = some s') :
    Ok cap s' := by
  have hproper : s.Blocks cap (.read count nonblock) →
      s.data = [] ∧ ∀ t, t ≠ u → (s.pc t).waits ≠ some Side.reader := by
    have hP' : ProperLook cap s u (s.pc u) := hP
    rw [hpc] at hP'
    exact hP'
  unfold PipeState.look at hs
  dsimp only at hs
  by_cases hw : s.writers = 0
  · rw [if_pos hw] at hs
    obtain rfl := Option.some.inj hs
    exact hok.returned hpc rfl rfl rfl
  rw [if_neg hw] at hs
  obtain ⟨q, hfifo, hs⟩ := Option.map_eq_some_iff.mp hs
  by_cases hlen : 0 < (get q (length16 count)).2.length
  · rw [if_pos hlen] at hs
    obtain rfl := hs
    have hawake := awake_of_pc hok.queues hpc rfl
    have hmoved : Queues (s.setPc u (.getWake (get q (length16 count)).2.length)) := hok.queues.move hawake (.inl rfl)
    refine ⟨hok.counts.setFifo.acquire hlock rfl rfl, hmoved.congr rfl rfl rfl, ?_⟩
    refine hok.awaited.step u (fun t ht => setPc_other ht) (fun d hf => .inl hf) (fun t _ hs => hs) (.inl rfl) ?_ ?_ ?_
    · intro d hr
      cases d with
      | reader => exact .inl (ready_reader hfifo hr)
      | writer =>
        right
        unfold Pending
        rw [setPc_self]
    · intro d hstays
      exact absurd hstays (not_stays_of_waits (by rw [setPc_self]; rfl))
    · intro d hp
      exact absurd hp (not_pending hpc rfl)
  rw [if_neg hlen] at hs
  cases hnb : nonblock with
  | true =>
    rw [hnb] at hs
    obtain rfl := hs
    exact hok.returned hpc rfl rfl rfl
  | false =>
    rw [hnb] at hs
    obtain rfl := hs
    have hdata : s.data = q := data_of_fifo hfifo
    have hblocks : s.Blocks cap (.read count nonblock) := by
      refine ⟨hw, ?_, hnb⟩
      rw [hdata]
      exact List.length_eq_zero_iff.mp (Nat.eq_zero_of_not_pos hlen)
    obtain ⟨hempty, halone⟩ := hproper hblocks
    have hstate : s = { s with fifo := some q } := by
      rw [← hfifo]
    rw [hstate]
    refine hok.looked hpc rfl rfl ?_ ?_ ?_
    · rintro d hd t ht
      obtain rfl : Side.reader = d := Option.some.inj hd
      exact halone t ht
    · intro d hr
      left
      rw [hstate]
      exact hr
    · rintro d hd
      obtain rfl : Side.reader = d := Option.some.inj hd
      rw [← hstate]
      intro hr
      exact hr.elim (fun hd => hd hempty) hw

theorem Ok.write {pbuf : List UInt8} {ret : Nat} {wakeup nonblock : Bool} (hok : Ok cap s)
    (hpc : s.pc u = .look (.write pbuf ret wakeup nonblock)) (hP : Proper cap s (.goOn u))
    (hs : s.look cap u (.write pbuf ret wakeup nonblock) = some s') : Ok cap s' := by
  have hproper : s.Blocks cap (.write pbuf ret wakeup nonblock) →
      s.Exhausts cap (.write pbuf ret wakeup nonblock) ∧ ∀ t, t ≠ u → (s.pc t).waits ≠ some Side.writer := by
    have hP' : ProperLook cap s u (s.pc u) := hP
    rw [hpc] at hP'
    exact hP'
  unfold PipeState.look at hs
  dsimp only at hs
  by_cases hr0 : s.readers = 0
  · rw [if_pos hr0] at hs
    obtain rfl := Option.some.inj hs
    exact hok.returned hpc rfl rfl rfl
  rw [if_neg hr0] at hs
  obtain ⟨q, hfifo, hs⟩ := Option.map_eq_some_iff.mp hs
  obtain rfl := hs
  have hdata : s.data = q := data_of_fifo hfifo
  -- Only the reader's side becomes ready, and the thread is going to wake it up.
  have hwriter : PipeState.Ready cap { s with fifo := some (put cap q (pbuf.take (length16 pbuf.length))).1 } .writer →
      s.Ready cap .writer := by
    refine Or.imp_left ?_
    rintro ⟨-, hlen⟩
    have hlen' : (q ++ (pbuf.take (length16 pbuf.length)).take (cap - q.length)).length < cap := hlen
    rw [List.length_append] at hlen'
    refine ⟨?_, ?_⟩
    · rw [hfifo]
      exact Option.some_ne_none q
    · rw [hdata]
      omega
  have hputWake : ∀ n : Int,
      Ok cap (PipeState.setPc { s with fifo := some (put cap q (pbuf.take (length16 pbuf.length))).1 } u
        (.putWake n true)) := by
    intro n
    refine hok.looked hpc rfl rfl (fun d hd => ?_) (fun d hr => ?_) fun d hd => ?_
    · contradiction
    · cases d with
      | writer => exact .inl (hwriter hr)
      | reader =>
        right
        unfold Pending
        rw [setPc_self]
        exact ⟨rfl, rfl⟩
    · contradiction
  by_cases hall : pbuf.length = (put cap q (pbuf.take (length16 pbuf.length))).2
  · rw [if_pos hall]
    exact hputWake _
  rw [if_neg hall]
  cases hnb : nonblock with
  | true => exact hputWake _
  | false =>
    obtain ⟨hfull, halone⟩ := hproper ⟨hr0, by rw [hdata]; exact hall, hnb⟩
    refine hok.looked hpc rfl rfl (fun d hd => ?_) (fun d hr => ?_) fun d hd => ?_
    · obtain rfl : Side.writer = d := Option.some.inj hd
      exact halone
    · cases d with
      | writer => exact .inl (hwriter hr)
      | reader =>
        right
        unfold Pending
        rw [if_neg Bool.false_ne_true, setPc_self]
        rfl
    · obtain rfl : Side.writer = d := Option.some.inj hd
      rintro (⟨-, hlen⟩ | hr)
      · rw [PipeState.Exhausts, hdata] at hfull
        exact absurd hlen (Nat.not_lt_of_le hfull)
      · exact hr0 hr

theorem Ok.getWake {len : Nat} (hok : Ok cap s) (hawake : s.suspended u = false) (hpc : s.pc u = .getWake len) :
    Ok cap ({ s.wakeup .writer pollout with lock := none }.setPc u (.finished len)) := by
  have hawakeup : (s.wakeup .writer pollout).suspended u = false := by
    rw [Bool.eq_false_iff]
    intro hs
    rw [((wakeup_spec hok.queues _ _).2.2 u).mp hs |>.1] at hawake
    contradiction
  have hmoved : Queues ((s.wakeup .writer pollout).setPc u (.finished len)) :=
    (hok.queues.wakeup _ _).move hawakeup (.inl rfl)
  refine ⟨(wakeup_counts hok.counts).release ?_ ?_ rfl, hmoved.congr rfl rfl rfl, ?_⟩
  · rw [wakeup_pc, hpc]
    rfl
  · rw [wakeup_pc, hpc]
    rfl
  have hwoken : Awaited cap ((s.wakeup .writer pollout).setPc u (.finished len)) := by
    refine hok.awaited.wake hok.queues (fun hw => by contradiction) (fun d hstays => ?_) fun d hd hp => ?_
    · exact absurd hstays (not_stays_of_waits (by rw [setPc_self]; rfl))
    · unfold Pending at hp
      rw [hpc] at hp
      exact absurd hp hd
  intro t d hstays hr
  refine hwoken t d hstays ?_
  cases d
  all_goals exact hr

theorem Ok.putWake {ret : Int} {wakeup : Bool} (hok : Ok cap s) (hawake : s.suspended u = false)
    (hpc : s.pc u = .putWake ret wakeup) :
    Ok cap ((if wakeup then s.wakeup .reader pollin else s).setPc u (.finished ret)) := by
  cases wakeup with
  | false =>
    apply hok.move hawake
    · rw [hpc]
      rfl
    · rw [hpc]
      rfl
    · rfl
    · intro d hp
      unfold Pending at hp
      rw [hpc] at hp
      exact absurd hp.1 Bool.false_ne_true
  | true =>
    refine hok.wake hawake ?_ ?_ (.inl rfl) (fun hw => by contradiction) (fun d hstays => ?_) fun d hd hp => ?_
    · rw [hpc]
      rfl
    · rw [hpc]
      rfl
    · exact absurd hstays (not_stays_of_waits (by rw [setPc_self]; rfl))
    · unfold Pending at hp
      rw [hpc] at hp
      exact absurd hp.2 hd

theorem Ok.wakeOther (hok : Ok cap s) (hawake : s.suspended u = false) (hpc : s.pc u = .wakeOther c) :
    Ok cap ((s.wakeup c.side.other key).setPc u (.wait c)) := by
  have hside : c.side ≠ c.side.other := (other_ne c.side).symm
  refine hok.wake hawake ?_ ?_ (.inr ?_) (fun hw => hside (Option.some.inj hw)) (fun d hstays => ?_) fun d hd hp => ?_
  · rw [hpc]
    rfl
  · rw [hpc]
    rfl
  · rw [hpc]
    rfl
  · unfold Stays at hstays ⊢
    rw [setPc_self] at hstays
    rw [hpc]
    obtain ⟨rfl, hf⟩ := hstays
    refine ⟨rfl, ?_⟩
    have hf' : ((s.wakeup c.side.other key).queue c.side).flag = false := hf
    rwa [(wakeup_spec hok.queues _ _).2.1 _ hside] at hf'
  · unfold Pending at hp
    rw [hpc] at hp
    exact absurd hp hd

/-- A thread in the part of the loop that waits goes on there, and does nothing to the other side's queue. -/
theorem Ok.inside {q : RtWqueue τ} {sus : τ → Bool} (hok : Ok cap s) (hsus : ∀ t, t ≠ u → sus t = s.suspended t)
    (hwaits : (s.pc u).waits = some c.side) (hholds : (s.pc u).holds = false) (hclosing : (s.pc u).closing = false)
    (hnone : ∀ d, ¬ Pending s u d) (hholds' : pc.holds = false) (hclosing' : pc.closing = false)
    (hq : Queues ({ s with suspended := sus }.setQueue c.side q |>.setPc u pc))
    (hu : ∀ d, Stays ({ s with suspended := sus }.setQueue c.side q |>.setPc u pc) u d → Stays s u d) :
    Ok cap ({ s with suspended := sus }.setQueue c.side q |>.setPc u pc) := by
  have hcounts : Counts ({ s with suspended := sus }.setQueue c.side q) :=
    ⟨hok.counts.lock, hok.counts.readers, hok.counts.writers, hok.counts.refCount, hok.counts.present⟩
  refine ⟨hcounts.setPc (hholds'.trans hholds.symm) (hclosing'.trans hclosing.symm), hq, ?_⟩
  refine hok.awaited.step u (fun t ht => setPc_other ht) (fun d hf => ?_) (fun t ht hs => ?_) (.inl rfl)
    (fun d hr => .inl ?_) (fun d hstays => .inl (hu d hstays)) fun d hp => absurd hp (hnone d)
  · by_cases hd : d = c.side
    · right
      intro t ht hw
      rw [hd] at hw
      exact ht (hok.queues.single t u _ hw hwaits)
    · left
      have hf' : (Function.update s.queue c.side q d).flag = false := hf
      rwa [Function.update_of_ne hd] at hf'
  · rw [← hsus t ht]
    exact hs
  · cases d
    all_goals exact hr

omit [DecidableEq τ] in
/-- No thread sleeps on the side of a thread that is awake in the part that waits. -/
theorem Queues.alone (hq : Queues s) (hawake : s.suspended u = false) (hwaits : (s.pc u).waits = some d) :
    (s.queue d).waitingList = [] := by
  rw [List.eq_nil_iff_forall_not_mem]
  intro e he
  obtain ⟨hsus, hw⟩ := hq.listed d e he
  rw [hq.single _ _ d hw hwaits, hawake] at hsus
  contradiction

omit [DecidableEq τ] in
theorem Queues.setQueue (hq : Queues s) (hawake : s.suspended u = false) (hwaits : (s.pc u).waits = some d)
    {q : RtWqueue τ} (hnil : q.waitingList = []) : Queues (s.setQueue d q) := by
  refine ⟨hq.single, fun d' e he => ?_, fun t hs => ?_⟩
  · by_cases hd : d' = d
    · rw [hd, setQueue_self, hnil] at he
      contradiction
    · rw [setQueue_other hd] at he
      exact hq.listed d' e he
  · obtain ⟨c, hc, hqueue⟩ := hq.asleep t hs
    have hd : c.side ≠ d := by
      rintro rfl
      have he : t = u := hq.single t u _ (by rw [hc]; rfl) hwaits
      have hs' : s.suspended t = true := hs
      rw [he, hawake] at hs'
      contradiction
    exact ⟨c, hc, (setQueue_other hd).trans hqueue⟩

theorem Ok.leave {q : RtWqueue τ} (hok : Ok cap s) (hawake : s.suspended u = false)
    (hwaits : (s.pc u).waits = some c.side) (hholds : (s.pc u).holds = false) (hclosing : (s.pc u).closing = false)
    (hnone : ∀ d, ¬ Pending s u d) (hholds' : pc.holds = false) (hclosing' : pc.closing = false)
    (hwaits' : pc.waits = none ∨ pc.waits = some c.side) (hu : ∀ d, ¬ Stays ((s.setQueue c.side q).setPc u pc) u d)
    (hnil : q.waitingList = []) : Ok cap ((s.setQueue c.side q).setPc u pc) := by
  refine hok.inside (fun _ _ => rfl) hwaits hholds hclosing hnone hholds' hclosing' ?_ fun d hstays => ?_
  swap
  · exact absurd hstays (hu d)
  exact (hok.queues.setQueue hawake hwaits hnil).move hawake (hwaits'.imp_right fun hw => hw.trans hwaits.symm)

theorem Queues.sleep (hq : Queues s) (hawake : s.suspended u = false) (hwaits : (s.pc u).waits = some c.side)
    (hclear : (s.queue c.side).flag = false) :
    Queues ({ s with suspended := Function.update s.suspended u true }.setQueue c.side
      ((s.queue c.side).add (waitNode u)) |>.setPc u (.waiting c)) := by
  have hmoved : Queues (s.setPc u (.waiting c)) := hq.move hawake (.inr hwaits.symm)
  have hadd : (s.queue c.side).add (waitNode u) = ⟨false, [waitNode u]⟩ := by
    rw [RtWqueue.add, hq.alone hawake hwaits, hclear]
    rfl
  have hcases : ∀ t, Function.update s.suspended u true t = true → t = u ∨ t ≠ u ∧ s.suspended t = true := by
    intro t hs
    by_cases ht : t = u
    · exact .inl ht
    · rw [Function.update_of_ne ht] at hs
      exact .inr ⟨ht, hs⟩
  refine ⟨hmoved.single, fun d e he => ?_, fun t hs => ?_⟩
  · by_cases hd : d = c.side
    · rw [hd] at he
      have he' : e ∈ (Function.update s.queue c.side ((s.queue c.side).add (waitNode u)) c.side).waitingList := he
      rw [Function.update_self, hadd] at he'
      obtain rfl := List.mem_singleton.mp he'
      refine ⟨Function.update_self _ _ _, ?_⟩
      rw [hd]
      exact congrArg PipePc.waits (Function.update_self u _ s.pc)
    · have he' : e ∈ (Function.update s.queue c.side ((s.queue c.side).add (waitNode u)) d).waitingList := he
      rw [Function.update_of_ne hd] at he'
      obtain ⟨hs, hw⟩ := hmoved.listed d e he'
      refine ⟨?_, hw⟩
      have hne : e.pollingThread ≠ u := by
        intro hu
        have hs' : s.suspended e.pollingThread = true := hs
        rw [hu, hawake] at hs'
        contradiction
      exact (Function.update_of_ne hne _ _).trans hs
  · rcases hcases t hs with rfl | ⟨ht, hs⟩
    · refine ⟨c, Function.update_self _ _ _, ?_⟩
      rw [← hadd]
      exact Function.update_self _ _ _
    · obtain ⟨c', hc, hqueue⟩ := hq.asleep t hs
      have hd : c'.side ≠ c.side := by
        intro hd
        have hw : (s.pc t).waits = some c.side := by
          rw [hc, ← hd]
          rfl
        exact ht (hq.single t u _ hw hwaits)
      exact ⟨c', (Function.update_of_ne ht _ _).trans hc, (Function.update_of_ne hd _ _).trans hqueue⟩

theorem Ok.wait (hok : Ok cap s) (hawake : s.suspended u = false) (hpc : s.pc u = .wait c) : Ok cap (s.wait u c) := by
  have hwaits : (s.pc u).waits = some c.side := by
    rw [hpc]
    rfl
  have hholds : (s.pc u).holds = false := by
    rw [hpc]
    rfl
  have hclosing : (s.pc u).closing = false := by
    rw [hpc]
    rfl
  have hnone : ∀ d, ¬ Pending s u d := fun _ => not_pending hpc rfl
  have hnil := hok.queues.alone hawake hwaits
  unfold PipeState.wait
  dsimp only
  by_cases hflag : (s.queue c.side).flag = true
  · rw [if_pos hflag]
    refine hok.leave hawake hwaits hholds hclosing hnone rfl rfl (.inr rfl) (fun d hstays => ?_) hnil
    unfold Stays at hstays
    rw [setPc_self] at hstays
    exact hstays
  · rw [if_neg hflag]
    have hclear : (s.queue c.side).flag = false := Bool.eq_false_iff.mpr hflag
    refine hok.inside (fun t ht => Function.update_of_ne ht _ _) hwaits hholds hclosing hnone rfl rfl ?_ ?_
    · exact hok.queues.sleep hawake hwaits hclear
    · intro d hstays
      unfold Stays at hstays ⊢
      rw [setPc_self] at hstays
      rw [hpc]
      obtain ⟨rfl, -⟩ := hstays
      exact ⟨rfl, hclear⟩

theorem Ok.waiting (hok : Ok cap s) (hawake : s.suspended u = false) (hpc : s.pc u = .waiting c) :
    Ok cap ((s.setQueue c.side { s.queue c.side with flag := false }).setPc u (.waited c)) := by
  have hwaits : (s.pc u).waits = some c.side := by
    rw [hpc]
    rfl
  refine hok.leave hawake hwaits ?_ ?_ (fun d => not_pending hpc rfl) rfl rfl (.inr rfl) (fun d hstays => ?_)
    (hok.queues.alone hawake hwaits)
  · rw [hpc]
    rfl
  · rw [hpc]
    rfl
  · unfold Stays at hstays
    rw [setPc_self] at hstays
    exact hstays

theorem Ok.waited (hok : Ok cap s) (hawake : s.suspended u = false) (hpc : s.pc u = .waited c) :
    Ok cap ((s.setQueue c.side ((s.queue c.side).remove (waitNode u))).setPc u (.look c)) := by
  have hwaits : (s.pc u).waits = some c.side := by
    rw [hpc]
    rfl
  refine hok.leave hawake hwaits ?_ ?_ (fun d => not_pending hpc rfl) rfl rfl (.inl rfl) (fun d hstays => ?_) ?_
  · rw [hpc]
    rfl
  · rw [hpc]
    rfl
  · exact not_stays_of_waits (by rw [setPc_self]; rfl) hstays
  · rw [RtWqueue.remove, hok.queues.alone hawake hwaits]
    rfl

/-- A step of `pipe_fops_close` that wakes a queue up if the other end has no descriptor. -/
theorem Ok.closeWake (hok : Ok cap s) (hawake : s.suspended u = false) (hholds : pc.holds = (s.pc u).holds)
    (hclosing : pc.closing = (s.pc u).closing) (hwaits : pc.waits = none)
    (hsame : ∀ d', Pending s u d' → s.others d' = 0)
    (hlater : ∀ d', d' ≠ d → Pending s u d' → ∀ s' : PipeState τ, s'.others = s.others → s'.pc u = pc →
      Pending s' u d') :
    Ok cap ((if s.others d = 0 then s.wakeup d key else s).setPc u pc) := by
  by_cases hzero : s.others d = 0
  · rw [if_pos hzero]
    refine hok.wake hawake hholds hclosing (.inl hwaits) ?_ (fun d' hstays => ?_) fun d' hd hp => ?_
    · rw [hwaits]
      exact fun hn => by contradiction
    · exact absurd hstays (not_stays_of_waits (by rw [setPc_self]; exact hwaits))
    · refine hlater d' hd hp _ ?_ setPc_self
      rw [wakeup_frame]
      rfl
  · rw [if_neg hzero]
    refine hok.move hawake hholds hclosing hwaits fun d' hp => ?_
    refine hlater d' ?_ hp _ rfl setPc_self
    rintro rfl
    exact hzero (hsame d' hp)

theorem Ok.closeReaders (hok : Ok cap s) (hawake : s.suspended u = false) (hpc : s.pc u = .closeReaders) :
    Ok cap ((if s.writers = 0 then s.wakeup .reader (pollin ||| pollerr ||| pollhup) else s).setPc u
      .closeWriters) := by
  refine hok.closeWake (d := .reader) hawake ?_ ?_ rfl (fun d hp => ?_) fun d hd hp s' hothers hs' => ?_
  · rw [hpc]
    rfl
  · rw [hpc]
    rfl
  · unfold Pending at hp
    rw [hpc] at hp
    exact hp
  · unfold Pending at hp ⊢
    rw [hpc] at hp
    rw [hs', hothers]
    cases d with
    | reader => exact absurd rfl hd
    | writer => exact ⟨rfl, hp⟩

theorem Ok.closeWriters (hok : Ok cap s) (hawake : s.suspended u = false) (hpc : s.pc u = .closeWriters) :
    Ok cap ((if s.readers = 0 then s.wakeup .writer (pollout ||| pollerr ||| pollhup) else s).setPc u .closeLast) := by
  refine hok.closeWake (d := .writer) hawake ?_ ?_ rfl (fun d hp => ?_) fun d hd hp s' hothers hs' => ?_
  · rw [hpc]
    rfl
  · rw [hpc]
    rfl
  · unfold Pending at hp
    rw [hpc] at hp
    exact hp.2
  · unfold Pending at hp
    rw [hpc] at hp
    exact absurd hp.1 hd

theorem Ok.closeLast (hok : Ok cap s) (hawake : s.suspended u = false) (hpc : s.pc u = .closeLast) :
    Ok cap ({ s with
      lock := none
      fifo := if s.refCount = 1 then none else s.fifo
      refCount := s.refCount - 1 }.setPc u (.finished 0)) := by
  have hlock : s.lock = some u := (hok.counts.lock u).mp (by rw [hpc]; rfl)
  have hcloser : closer s = 1 := by
    rw [closer, hlock]
    dsimp only
    rw [hpc]
    rfl
  have hcount := hok.counts.refCount
  rw [hcloser] at hcount
  have hmoved : Queues (s.setPc u (.finished 0)) := hok.queues.move hawake (.inl rfl)
  refine ⟨⟨fun t => ?_, hok.counts.readers, hok.counts.writers, ?_, fun hn => ?_⟩, hmoved.congr rfl rfl rfl, ?_⟩
  · refine iff_of_false ?_ fun he => by contradiction
    by_cases ht : t = u
    · subst ht
      rw [setPc_self]
      exact Bool.false_ne_true
    · rw [setPc_other ht]
      intro hh
      have hl := (hok.counts.lock t).mp hh
      rw [hlock] at hl
      exact ht (Option.some.inj hl).symm
  · show s.refCount - 1 = s.fds.length + 0
    omega
  · have hn' : (if s.refCount = 1 then none else s.fifo) = none := hn
    show s.fds = []
    split_ifs at hn' with h1
    · exact List.length_eq_zero_iff.mp (by omega)
    · exact hok.counts.present hn'
  · refine hok.awaited.step u (fun t ht => setPc_other ht) (fun d hf => .inl hf) (fun t _ hs => hs) (.inl rfl)
      (fun d hr => .inl ?_) (fun d hstays => ?_) fun d hp => ?_
    · have hsame : ∀ q, (if s.refCount = 1 then none else s.fifo) = q → q ≠ none → s.fifo = q := by
        intro q hq hne
        split_ifs at hq
        · exact absurd hq.symm hne
        · exact hq
      cases d with
      | reader =>
        refine Or.imp_left (fun hd => ?_) hr
        have hd' : (if s.refCount = 1 then none else s.fifo).getD [] ≠ [] := hd
        rw [PipeState.data, hsame _ rfl fun hn => hd' (by rw [hn]; rfl)]
        exact hd'
      | writer =>
        refine Or.imp_left (fun hd => ?_) hr
        obtain ⟨hsome, hlen⟩ : (if s.refCount = 1 then none else s.fifo) ≠ none ∧
          ((if s.refCount = 1 then none else s.fifo).getD []).length < cap := hd
        rw [PipeState.data, hsame _ rfl hsome]
        exact ⟨hsome, hlen⟩
    · exact absurd hstays (not_stays_of_waits (by rw [setPc_self]; rfl))
    · exact absurd hp (not_pending hpc rfl)

theorem Ok.goOn (hok : Ok cap s) (hP : Proper cap s (.goOn u)) (hs : s.goOn cap u = some s') : Ok cap s' := by
  unfold PipeState.goOn at hs
  obtain ⟨hsus, hs⟩ := Option.ite_none_left_eq_some.mp hs
  have hawake : s.suspended u = false := Bool.eq_false_iff.mpr hsus
  cases hpc : s.pc u with
  | finished ret =>
    rw [hpc] at hs
    contradiction
  | look c =>
    rw [hpc] at hs
    obtain ⟨hlock, hs⟩ := Option.ite_none_right_eq_some.mp hs
    cases c with
    | read count nonblock => exact hok.read hpc hlock hP hs
    | write pbuf ret wakeup nonblock => exact hok.write hpc hP hs
  | test c =>
    rw [hpc] at hs
    obtain rfl := Option.some.inj hs
    exact hok.test hpc
  | getWake len =>
    rw [hpc] at hs
    obtain rfl := Option.some.inj hs
    exact hok.getWake hawake hpc
  | putWake ret wakeup =>
    rw [hpc] at hs
    obtain rfl := Option.some.inj hs
    exact hok.putWake hawake hpc
  | wakeOther c =>
    rw [hpc] at hs
    obtain rfl := Option.some.inj hs
    exact hok.wakeOther hawake hpc
  | wait c =>
    rw [hpc] at hs
    obtain rfl := Option.some.inj hs
    exact hok.wait hawake hpc
  | waiting c =>
    rw [hpc] at hs
    obtain rfl := Option.some.inj hs
    exact hok.waiting hawake hpc
  | waited c =>
    rw [hpc] at hs
    obtain rfl := Option.some.inj hs
    exact hok.waited hawake hpc
  | closeReaders =>
    rw [hpc] at hs
    obtain rfl := Option.some.inj hs
    exact hok.closeReaders hawake hpc
  | closeWriters =>
    rw [hpc] at hs
    obtain rfl := Option.some.inj hs
    exact hok.closeWriters hawake hpc
  | closeLast =>
    rw [hpc] at hs
    obtain rfl := Option.some.inj hs
    exact hok.closeLast hawake hpc

theorem step_ok {a : PipeAction τ} (hok : Ok cap s) (hP : Proper cap s a) (hs : pipeStep cap s a = some s') :
    Ok cap s' := by
  cases a with
  | open' t mode ok =>
    obtain ⟨⟨hfin, hlock, -⟩, hs⟩ := Option.ite_none_right_eq_some.mp hs
    obtain rfl := Option.some.inj hs
    exact hok.open' hfin hlock ok
  | close t mode =>
    obtain ⟨⟨hfin, hlock, hmode⟩, hs⟩ := Option.ite_none_right_eq_some.mp hs
    obtain rfl := Option.some.inj hs
    exact hok.close hfin hlock hmode
  | read t count nonblock =>
    obtain ⟨hfin, hs⟩ := Option.ite_none_right_eq_some.mp hs
    obtain rfl := Option.some.inj hs
    exact hok.start hfin
  | write t buf nonblock =>
    obtain ⟨hfin, hs⟩ := Option.ite_none_right_eq_some.mp hs
    obtain rfl := Option.some.inj hs
    exact hok.start hfin
  | goOn t => exact hok.goOn hP hs

theorem ok_run {h : History (PipeState τ) (PipeAction τ)} (hrun : (pipes τ cap).Run h s)
    (hP : Throughout (fun _ s a => Proper cap s a) h) : Ok cap s := by
  refine hrun.invariant (I := fun _ s => Ok cap s) ?_ (fun _ _ _ _ _ hok hP hs => step_ok hok hP hs) hP
  rintro s ⟨hlock, hfifo, hreaders, hwriters, href, hfds, hqueue, hthreads⟩
  have hfinished : ∀ t, ∃ ret, s.pc t = .finished ret := by
    intro t
    have hfin := (hthreads t).2
    cases hp : s.pc t with
    | finished ret => exact ⟨ret, rfl⟩
    | _ =>
      rw [hp] at hfin
      contradiction
  have hnone : ∀ t d, (s.pc t).waits ≠ some d := by
    intro t d
    obtain ⟨ret, hret⟩ := hfinished t
    rw [hret]
    exact fun hn => by contradiction
  refine ⟨⟨fun t => ?_, ?_, ?_, ?_, fun _ => hfds⟩, ⟨fun t _ d ht => ?_, fun d e he => ?_, fun t hs => ?_⟩,
    fun t d hstays => ?_⟩
  · obtain ⟨ret, hret⟩ := hfinished t
    rw [hret, hlock]
    exact iff_of_false Bool.false_ne_true fun hn => by contradiction
  · rw [hreaders, hfds]
    rfl
  · rw [hwriters, hfds]
    rfl
  · rw [href, hfds, closer_unlocked hlock]
    rfl
  · exact absurd ht (hnone t d)
  · rw [hqueue d] at he
    contradiction
  · rw [(hthreads t).1] at hs
    contradiction
  · exact absurd (stays_waits hstays) (hnone t d)

omit [DecidableEq τ] in
/-- A thread that is going to wake a queue up is neither out of the calls nor asleep. -/
theorem not_pending_still (hq : Queues s) (hstill : s.Still t) : ¬ Pending s t d := by
  rcases hstill with hfin | hsus
  · exact not_pending_finished hfin
  · obtain ⟨c, hc, -⟩ := hq.asleep t hsus
    exact not_pending hc rfl

/-! ### Runs -/

instance (s : PipeState τ) (d : Side) : Decidable (s.Ready cap d) := by
  cases d
  all_goals
    unfold PipeState.Ready
    infer_instance

instance (s : PipeState τ) (c : Call) : Decidable (s.Blocks cap c) := by
  cases c
  all_goals
    unfold PipeState.Blocks
    infer_instance

omit [DecidableEq τ] in
instance (s : PipeState τ) (c : Call) : Decidable (s.Exhausts cap c) := by
  cases c
  all_goals
    unfold PipeState.Exhausts
    infer_instance

omit [DecidableEq τ] in
instance (s : PipeState τ) (t : τ) (d : Side) : Decidable (s.Sleeps t d) := by
  unfold PipeState.Sleeps
  infer_instance

omit [DecidableEq τ] in
instance (s : PipeState τ) (t : τ) : Decidable (s.Still t) := by
  unfold PipeState.Still
  infer_instance

instance [Fintype τ] (s : PipeState τ) (t : τ) (pc : PipePc) : Decidable (ProperLook cap s t pc) := by
  cases pc
  all_goals
    unfold ProperLook
    infer_instance

instance [Fintype τ] (s : PipeState τ) (a : PipeAction τ) : Decidable (Proper cap s a) := by
  cases a
  all_goals
    unfold Proper
    infer_instance

/-- A pipe that no thread has opened. -/
def created (n : Nat) : PipeState (Fin n) :=
  ⟨none, none, 0, 0, 0, [], fun _ => rtWqueueInit, fun _ => false, fun _ => .finished 0⟩

theorem init_created (n : Nat) : (pipes (Fin n) cap).init (created n) :=
  ⟨rfl, rfl, rfl, rfl, rfl, rfl, fun _ => rfl, fun _ => ⟨rfl, rfl⟩⟩

/-- Threads 0 and 1 read one byte each, and wait. -/
def twoReaders : List (PipeAction (Fin 3)) :=
  [.open' 0 .rdonly true, .open' 2 .wronly true, .read 0 1 false, .goOn 0, .goOn 0, .goOn 0, .goOn 0,
    .read 1 1 false, .goOn 1, .goOn 1, .goOn 1, .goOn 1]

/-- The one wake-up of a write of two bytes, or of the last writer's close, resumes one of two readers; and a read of no
bytes sleeps while there are some. -/
theorem sleeps_when_ready :
    (∃ h s, (pipes (Fin 3) 4).Run h s ∧ (∀ t, s.Still t) ∧ s.Sleeps 1 .reader ∧ s.data = [2]) ∧
    (∃ h s, (pipes (Fin 3) 4).Run h s ∧ (∀ t, s.Still t) ∧ s.Sleeps 1 .reader ∧ s.writers = 0) ∧
    ∃ h s, (pipes (Fin 2) 4).Run h s ∧ (∀ t, s.Still t) ∧ s.Sleeps 0 .reader ∧ s.data = [1] := by
  refine ⟨?_, ?_, ?_⟩
  · exact System.exists_run (init_created 3) (twoReaders ++ [.write 2 [1, 2] false, .goOn 2, .goOn 2, .goOn 2, .goOn 0,
      .goOn 0, .goOn 0, .goOn 0]) (fun _ s => (∀ t, s.Still t) ∧ s.Sleeps 1 .reader ∧ s.data = [2]) (by decide +kernel)
  · exact System.exists_run (init_created 3) (twoReaders ++ [.close 2 .wronly, .goOn 2, .goOn 2, .goOn 2, .goOn 0,
      .goOn 0, .goOn 0]) (fun _ s => (∀ t, s.Still t) ∧ s.Sleeps 1 .reader ∧ s.writers = 0) (by decide +kernel)
  · exact System.exists_run (init_created 2) [.open' 0 .rdonly true, .open' 1 .wronly true, .write 1 [1] false, .goOn 1,
      .goOn 1, .goOn 1, .read 0 0 false, .goOn 0, .goOn 0, .goOn 0, .goOn 0, .goOn 0, .goOn 0, .goOn 0, .goOn 0]
      (fun _ s => (∀ t, s.Still t) ∧ s.Sleeps 0 .reader ∧ s.data = [1]) (by decide +kernel)

/-- If each thread that goes to wait is alone on its side, for a byte or for space that is not there, then in every
state in which all threads are out of the calls or asleep no thread sleeps on a side that is ready. -/
theorem no_sleepers {h : History (PipeState τ) (PipeAction τ)} (hrun : (pipes τ cap).Run h s)
    (hP : Throughout (fun _ s a => Proper cap s a) h) (hstill : ∀ t, s.Still t) (t : τ) (d : Side)
    (hsleeps : s.Sleeps t d) : ¬ s.Ready cap d := by
  intro hready
  have hok := ok_run hrun hP
  obtain ⟨c, hc, -⟩ := hok.queues.asleep t hsleeps.1
  have hside : c.side = d := by
    have hw := hsleeps.2
    rw [hc] at hw
    exact Option.some.inj hw
  have hstays : Stays s t d := by
    unfold Stays
    rw [hc]
    exact ⟨hside, hsleeps.1⟩
  obtain ⟨u, hu⟩ := hok.awaited t d hstays hready
  exact not_pending_still hok.queues (hstill u) hu

/-- A reader reads a byte, and sleeps on the empty buffer. -/
theorem no_sleepers_run : ∃ h s, (pipes (Fin 2) 4).Run h s ∧ s.Sleeps 0 .reader ∧ ¬ s.Ready 4 .reader := by
  obtain ⟨h, s, hrun, hP, hstill, hsleeps⟩ := System.exists_run (S := pipes (Fin 2) 4) (init_created 2)
    [.open' 0 .rdonly true, .open' 1 .wronly true, .read 0 1 false, .goOn 0, .goOn 0, .goOn 0, .goOn 0,
      .write 1 [1] false, .goOn 1, .goOn 1, .goOn 1, .goOn 0, .goOn 0, .goOn 0, .goOn 0, .read 0 1 false, .goOn 0,
      .goOn 0, .goOn 0, .goOn 0]
    (fun h s => Throughout (fun _ s a => Proper 4 s a) h ∧ (∀ t, s.Still t) ∧ s.Sleeps 0 .reader) (by decide +kernel)
  exact ⟨h, s, hrun, hsleeps, no_sleepers hrun hP hstill 0 .reader hsleeps⟩

end steps

/-! ## End of file -/

/-- The step makes a new ring buffer. -/
def creates (s : PipeState τ) : PipeAction τ → Bool
  | .open' _ _ ok => s.refCount = 0 && ok
  | _ => false

/-- The bytes that the step of a thread at `pc` puts into the buffer. -/
def accepts (cap : Nat) (s : PipeState τ) : PipePc → List UInt8
  | .look (.write pbuf _ _ _) =>
    if s.readers = 0 then [] else (pbuf.take (length16 pbuf.length)).take (cap - s.data.length)
  | _ => []

/-- The bytes that the step of a thread at `pc` gets from it. -/
def returns (s : PipeState τ) : PipePc → List UInt8
  | .look (.read count _) => if s.writers = 0 then [] else (get s.data (length16 count)).2
  | _ => []

/-- The step closes the last descriptor for writing. -/
def closesWriters (s : PipeState τ) : PipeAction τ → Bool
  | .close _ mode => mode.writes && s.writers = 1
  | _ => false

/-- The step of a thread at `pc` returns 0 from a read because there is no writer. -/
def EndsFile (s : PipeState τ) : PipePc → Prop
  | .test (.read _ _) | .look (.read _ _) => s.writers = 0
  | _ => False

def acceptedBy (cap : Nat) (s : PipeState τ) : PipeAction τ → List UInt8
  | .goOn t => accepts cap s (s.pc t)
  | _ => []

def returnedBy (s : PipeState τ) : PipeAction τ → List UInt8
  | .goOn t => returns s (s.pc t)
  | _ => []

def EndOfFile (s : PipeState τ) : PipeAction τ → Prop
  | .goOn t => EndsFile s (s.pc t)
  | _ => False

/-- The bytes that writes have put into the present buffer, oldest first. -/
def accepted (cap : Nat) : History (PipeState τ) (PipeAction τ) → List UInt8
  | [] => []
  | (s, a) :: h => if creates s a then [] else accepted cap h ++ acceptedBy cap s a

/-- The bytes that reads have returned from the present buffer, oldest first. -/
def returned : History (PipeState τ) (PipeAction τ) → List UInt8
  | [] => []
  | (s, a) :: h => if creates s a then [] else returned h ++ returnedBy s a

/-- The bytes that had been accepted when the last writer closed. -/
def due (cap : Nat) : History (PipeState τ) (PipeAction τ) → List UInt8
  | [] => []
  | (s, a) :: h => if creates s a then [] else if closesWriters s a then accepted cap h else due cap h

/-- A read that returns 0 because there is no writer finds the buffer empty. -/
def Drained (s : PipeState τ) (a : PipeAction τ) : Prop := EndOfFile s a → s.fifo = some []

section endOfFile

variable {cap : Nat} {s s' : PipeState τ} {t : τ} {a : PipeAction τ} {h : History (PipeState τ) (PipeAction τ)}

omit [DecidableEq τ] in
theorem due_prefix (cap : Nat) (h : History (PipeState τ) (PipeAction τ)) : due cap h <+: accepted cap h := by
  induction h with
  | nil => exact List.prefix_refl _
  | cons e h ih =>
    obtain ⟨s, a⟩ := e
    show (if creates s a then [] else if closesWriters s a then accepted cap h else due cap h) <+:
      if creates s a then [] else accepted cap h ++ acceptedBy cap s a
    by_cases hc : creates s a = true
    · rw [if_pos hc, if_pos hc]
    · rw [if_neg hc, if_neg hc]
      by_cases hw : closesWriters s a = true
      · rw [if_pos hw]
        exact List.prefix_append _ _
      · rw [if_neg hw]
        exact ih.trans (List.prefix_append _ _)

/-- The bytes that have been accepted are those that have been returned, and then those in the buffer. -/
def Balanced (cap : Nat) (h : History (PipeState τ) (PipeAction τ)) (s : PipeState τ) : Prop :=
  returned h <+: accepted cap h ∧ ∀ q, s.fifo = some q → accepted cap h = returned h ++ q

omit [DecidableEq τ] in
theorem Balanced.keep (hb : Balanced cap h s) (hcreates : creates s a = false) (hput : acceptedBy cap s a = [])
    (hget : returnedBy s a = []) (hfifo : ∀ q, s'.fifo = some q → s.fifo = some q) : Balanced cap ((s, a) :: h) s' := by
  have haccepted : accepted cap ((s, a) :: h) = accepted cap h := by
    rw [accepted, hcreates, hput, List.append_nil]
    rfl
  have hreturned : returned ((s, a) :: h) = returned h := by
    rw [returned, hcreates, hget, List.append_nil]
    rfl
  unfold Balanced
  rw [haccepted, hreturned]
  exact ⟨hb.1, fun q hq => hb.2 q (hfifo q hq)⟩

theorem Balanced.look {c : Call} (hb : Balanced cap h s) (hpc : s.pc t = .look c) (hs : s.look cap t c = some s') :
    Balanced cap ((s, .goOn t) :: h) s' := by
  have haccepted : accepted cap ((s, .goOn t) :: h) = accepted cap h ++ accepts cap s (.look c) := by
    rw [← hpc]
    rfl
  have hreturned : returned ((s, .goOn t) :: h) = returned h ++ returns s (.look c) := by
    rw [← hpc]
    rfl
  have hget : ∀ buf q, s.fifo = some (buf ++ q) → accepts cap s (.look c) = [] → returns s (.look c) = buf →
      s'.fifo = some q → Balanced cap ((s, .goOn t) :: h) s' := by
    intro buf q hfifo hput hget hfifo'
    have hall := hb.2 _ hfifo
    unfold Balanced
    rw [haccepted, hreturned, hput, hget, List.append_nil, hall, ← List.append_assoc]
    refine ⟨List.prefix_append _ _, fun q' hq' => ?_⟩
    rw [hfifo'] at hq'
    rw [Option.some.inj hq']
  cases c with
  | read count nonblock =>
    unfold PipeState.look at hs
    dsimp only at hs
    by_cases hw : s.writers = 0
    · rw [if_pos hw] at hs
      obtain rfl := Option.some.inj hs
      refine hb.keep rfl ?_ ?_ fun q hq => hq
      · rw [acceptedBy, hpc]
        rfl
      · rw [returnedBy, hpc, returns, if_pos hw]
    rw [if_neg hw] at hs
    obtain ⟨q, hfifo, hs⟩ := Option.map_eq_some_iff.mp hs
    have hbytes : returns s (.look (.read count nonblock)) = q.take (length16 count) := by
      rw [returns, if_neg hw, data_of_fifo hfifo]
      rfl
    by_cases hlen : 0 < (get q (length16 count)).2.length
    · rw [if_pos hlen] at hs
      obtain rfl := hs
      refine hget (q.take (length16 count)) (q.drop (length16 count)) ?_ rfl hbytes rfl
      rw [List.take_append_drop]
      exact hfifo
    · rw [if_neg hlen] at hs
      have hnil : q.take (length16 count) = [] := List.length_eq_zero_iff.mp (Nat.eq_zero_of_not_pos hlen)
      have hsame : s'.fifo = s.fifo := by
        rw [← hs]
        cases nonblock
        all_goals rfl
      exact hget [] q hfifo rfl (hbytes.trans hnil) (hsame.trans hfifo)
  | write pbuf ret wakeup nonblock =>
    unfold PipeState.look at hs
    dsimp only at hs
    by_cases hr : s.readers = 0
    · rw [if_pos hr] at hs
      obtain rfl := Option.some.inj hs
      refine hb.keep rfl ?_ ?_ fun q hq => hq
      · rw [acceptedBy, hpc, accepts, if_pos hr]
      · rw [returnedBy, hpc]
        rfl
    rw [if_neg hr] at hs
    obtain ⟨q, hfifo, rfl⟩ := Option.map_eq_some_iff.mp hs
    have hbytes : accepts cap s (.look (.write pbuf ret wakeup nonblock)) =
        (pbuf.take (length16 pbuf.length)).take (cap - q.length) := by
      rw [accepts, if_neg hr, data_of_fifo hfifo]
    have hall := hb.2 q hfifo
    unfold Balanced
    rw [haccepted, hreturned, hbytes, show returns s (.look (.write pbuf ret wakeup nonblock)) = [] from rfl,
      List.append_nil, hall, List.append_assoc]
    refine ⟨List.prefix_append _ _, fun q' hq' => ?_⟩
    obtain rfl := Option.some.inj hq'
    rfl

theorem wakeupIf_contents (b : Prop) [Decidable b] (s : PipeState τ) (d : Side) (key : UInt32) :
    (if b then s.wakeup d key else s).writers = s.writers ∧ (if b then s.wakeup d key else s).fifo = s.fifo ∧
      (if b then s.wakeup d key else s).refCount = s.refCount := by
  split_ifs
  · rw [wakeup_frame]
    exact ⟨rfl, rfl, rfl⟩
  · exact ⟨rfl, rfl, rfl⟩

/-- What a step of a thread in a call does to the buffer and to the counters. -/
theorem goOn_cases (hs : s.goOn cap t = some s') :
    (∃ c, s.pc t = .look c ∧ s.look cap t c = some s') ∨
    (∀ c, s.pc t ≠ .look c) ∧ s'.writers = s.writers ∧
      (s'.fifo = s.fifo ∧ s'.refCount = s.refCount ∨
        s'.fifo = (if s.refCount = 1 then none else s.fifo) ∧ s'.refCount = s.refCount - 1) := by
  unfold PipeState.goOn at hs
  obtain ⟨-, hs⟩ := Option.ite_none_left_eq_some.mp hs
  cases hpc : s.pc t with
  | look c =>
    rw [hpc] at hs
    obtain ⟨-, hs⟩ := Option.ite_none_right_eq_some.mp hs
    exact .inl ⟨c, rfl, hs⟩
  | finished ret =>
    rw [hpc] at hs
    contradiction
  | closeLast =>
    rw [hpc] at hs
    obtain rfl := Option.some.inj hs
    exact .inr ⟨fun c hc => by contradiction, rfl, .inr ⟨rfl, rfl⟩⟩
  | test c =>
    rw [hpc] at hs
    obtain rfl := Option.some.inj hs
    refine .inr ⟨fun c hc => by contradiction, ?_⟩
    cases c
    all_goals exact ⟨rfl, .inl ⟨rfl, rfl⟩⟩
  | wait c =>
    rw [hpc] at hs
    obtain rfl := Option.some.inj hs
    refine .inr ⟨fun c hc => by contradiction, ?_⟩
    unfold PipeState.wait
    dsimp only
    by_cases hflag : (s.queue c.side).flag = true
    · rw [if_pos hflag]
      exact ⟨rfl, .inl ⟨rfl, rfl⟩⟩
    · rw [if_neg hflag]
      exact ⟨rfl, .inl ⟨rfl, rfl⟩⟩
  | waiting c | waited c =>
    rw [hpc] at hs
    obtain rfl := Option.some.inj hs
    exact .inr ⟨fun c hc => by contradiction, rfl, .inl ⟨rfl, rfl⟩⟩
  | getWake len | wakeOther c =>
    rw [hpc] at hs
    obtain rfl := Option.some.inj hs
    rw [wakeup_frame]
    exact .inr ⟨fun c hc => by contradiction, rfl, .inl ⟨rfl, rfl⟩⟩
  | putWake ret wakeup =>
    rw [hpc] at hs
    obtain rfl := Option.some.inj hs
    obtain ⟨hwriters, hfifo, href⟩ := wakeupIf_contents (wakeup = true) s .reader pollin
    exact .inr ⟨fun c hc => by contradiction, hwriters, .inl ⟨hfifo, href⟩⟩
  | closeReaders =>
    rw [hpc] at hs
    obtain rfl := Option.some.inj hs
    obtain ⟨hwriters, hfifo, href⟩ := wakeupIf_contents (s.writers = 0) s .reader (pollin ||| pollerr ||| pollhup)
    exact .inr ⟨fun c hc => by contradiction, hwriters, .inl ⟨hfifo, href⟩⟩
  | closeWriters =>
    rw [hpc] at hs
    obtain rfl := Option.some.inj hs
    obtain ⟨hwriters, hfifo, href⟩ := wakeupIf_contents (s.readers = 0) s .writer (pollout ||| pollerr ||| pollhup)
    exact .inr ⟨fun c hc => by contradiction, hwriters, .inl ⟨hfifo, href⟩⟩

theorem Balanced.goOn (hb : Balanced cap h s) (hs : s.goOn cap t = some s') : Balanced cap ((s, .goOn t) :: h) s' := by
  obtain ⟨c, hpc, hs⟩ | ⟨hpc, -, hcontents⟩ := goOn_cases hs
  · exact hb.look hpc hs
  · have hput : accepts cap s (s.pc t) = [] := by
      cases hp : s.pc t with
      | look c => exact absurd hp (hpc c)
      | _ => rfl
    have hget : returns s (s.pc t) = [] := by
      cases hp : s.pc t with
      | look c => exact absurd hp (hpc c)
      | _ => rfl
    refine hb.keep rfl hput hget fun q hq => ?_
    rcases hcontents with ⟨hfifo, -⟩ | ⟨hfifo, -⟩
    · rwa [hfifo] at hq
    · rw [hfifo] at hq
      split_ifs at hq
      exact hq

theorem step_balanced (hb : Balanced cap h s) (hs : pipeStep cap s a = some s') : Balanced cap ((s, a) :: h) s' := by
  cases a with
  | open' t mode ok =>
    obtain ⟨-, hs⟩ := Option.ite_none_right_eq_some.mp hs
    obtain rfl := Option.some.inj hs
    unfold PipeState.open'
    by_cases hzero : s.refCount = 0
    · cases hmem : ok with
      | true =>
        have hcreates : creates s (.open' t mode true) = true := by
          simp [creates, hzero]
        rw [if_neg fun hn => by have := hn.2; contradiction]
        unfold Balanced
        rw [accepted, returned, if_pos hcreates, if_pos hcreates]
        refine ⟨List.prefix_refl _, fun q hq => ?_⟩
        have hq' : (if s.refCount = 0 then some [] else s.fifo) = some q := hq
        rw [if_pos hzero] at hq'
        exact Option.some.inj hq'
      | false =>
        rw [if_pos ⟨hzero, rfl⟩]
        refine hb.keep ?_ rfl rfl fun q hq => by contradiction
        simp [creates]
    · rw [if_neg fun hn => hzero hn.1]
      refine hb.keep ?_ rfl rfl fun q hq => ?_
      · simp [creates, hzero]
      · have hq' : (if s.refCount = 0 then some [] else s.fifo) = some q := hq
        rwa [if_neg hzero] at hq'
  | close t mode =>
    obtain ⟨-, hs⟩ := Option.ite_none_right_eq_some.mp hs
    obtain rfl := Option.some.inj hs
    exact hb.keep rfl rfl rfl fun q hq => hq
  | read t count nonblock =>
    obtain ⟨-, hs⟩ := Option.ite_none_right_eq_some.mp hs
    obtain rfl := Option.some.inj hs
    exact hb.keep rfl rfl rfl fun q hq => hq
  | write t buf nonblock =>
    obtain ⟨-, hs⟩ := Option.ite_none_right_eq_some.mp hs
    obtain rfl := Option.some.inj hs
    exact hb.keep rfl rfl rfl fun q hq => hq
  | goOn t => exact hb.goOn hs

theorem balanced_run (hrun : (pipes τ cap).Run h s) : Balanced cap h s := by
  refine hrun.always (I := fun h s => Balanced cap h s) ?_ fun _ _ _ _ _ hb hs => step_balanced hb hs
  rintro s ⟨-, hfifo, -⟩
  refine ⟨List.prefix_refl _, fun q hq => ?_⟩
  rw [hfifo] at hq
  contradiction

omit [DecidableEq τ] in
/-- What has been returned before a step, if a read that finds no writer finds the buffer empty. -/
theorem Balanced.ends (hb : Balanced cap h s) (hD : Drained s a) :
    returned h <+: accepted cap h ∧ (EndOfFile s a → due cap h <+: returned h) := by
  refine ⟨hb.1, fun heof => ?_⟩
  have hall := hb.2 [] (hD heof)
  rw [List.append_nil] at hall
  rw [← hall]
  exact due_prefix cap h

/-! ### A condition on the callers -/

/-- The last writer closes an empty buffer, no bytes are written without a writer, and a read returns only while the
pipe is open. -/
structure Orderly (cap : Nat) (s : PipeState τ) (a : PipeAction τ) : Prop where
  closes : closesWriters s a = true → s.data = []
  writes : acceptedBy cap s a ≠ [] → s.writers ≠ 0
  reads : EndOfFile s a → s.refCount ≠ 0

/-- Without a writer the buffer is empty, and there is one while the pipe is open. -/
structure Settled (s : PipeState τ) : Prop where
  empty : s.writers = 0 → s.data = []
  open' : s.fifo = none ↔ s.refCount = 0

omit [DecidableEq τ] in
theorem Settled.same (hset : Settled s) (hfifo : s'.fifo = s.fifo) (href : s'.refCount = s.refCount)
    (hwriters : s'.writers = s.writers) : Settled s' := by
  refine ⟨?_, ?_⟩
  · rw [PipeState.data, hfifo, hwriters]
    exact hset.empty
  · rw [hfifo, href]
    exact hset.open'

theorem Settled.look {c : Call} (hset : Settled s) (hO : Orderly cap s (.goOn t)) (hpc : s.pc t = .look c)
    (hs : s.look cap t c = some s') : Settled s' := by
  cases c with
  | read count nonblock =>
    unfold PipeState.look at hs
    dsimp only at hs
    by_cases hw : s.writers = 0
    · rw [if_pos hw] at hs
      obtain rfl := Option.some.inj hs
      exact hset.same rfl rfl rfl
    rw [if_neg hw] at hs
    obtain ⟨q, hfifo, rfl⟩ := Option.map_eq_some_iff.mp hs
    by_cases hlen : 0 < (get q (length16 count)).2.length
    · rw [if_pos hlen]
      refine ⟨fun hw' => absurd hw' hw, iff_of_false (fun hn => by contradiction) fun hzero => ?_⟩
      rw [hset.open'.mpr hzero] at hfifo
      contradiction
    · rw [if_neg hlen]
      cases nonblock
      all_goals exact hset.same rfl rfl rfl
  | write pbuf ret wakeup nonblock =>
    unfold PipeState.look at hs
    dsimp only at hs
    by_cases hr : s.readers = 0
    · rw [if_pos hr] at hs
      obtain rfl := Option.some.inj hs
      exact hset.same rfl rfl rfl
    rw [if_neg hr] at hs
    obtain ⟨q, hfifo, rfl⟩ := Option.map_eq_some_iff.mp hs
    refine ⟨fun hw => ?_, ?_⟩
    · have hnone : acceptedBy cap s (.goOn t) = [] := by
        by_contra hput
        exact hO.writes hput hw
      rw [acceptedBy, hpc, accepts, if_neg hr, data_of_fifo hfifo] at hnone
      have hq : q = [] := (data_of_fifo hfifo).symm.trans (hset.empty hw)
      show q ++ (pbuf.take (length16 pbuf.length)).take (cap - q.length) = []
      rw [hnone, hq]
      rfl
    · refine iff_of_false (fun hn => by contradiction) fun hzero => ?_
      rw [hset.open'.mpr hzero] at hfifo
      contradiction

theorem Settled.goOn (hset : Settled s) (hO : Orderly cap s (.goOn t)) (hs : s.goOn cap t = some s') : Settled s' := by
  obtain ⟨c, hpc, hs⟩ | ⟨-, hwriters, ⟨hfifo, href⟩ | ⟨hfifo, href⟩⟩ := goOn_cases hs
  · exact hset.look hO hpc hs
  · exact hset.same hfifo href hwriters
  · have hopen := hset.open'
    refine ⟨fun hw => ?_, ?_⟩
    · rw [PipeState.data, hfifo]
      split_ifs
      · rfl
      · exact hset.empty (hwriters.symm.trans hw)
    · rw [hfifo, href]
      split_ifs with hone
      · simp [hone]
      · rw [hopen]
        omega

theorem step_settled (hset : Settled s) (hO : Orderly cap s a) (hs : pipeStep cap s a = some s') : Settled s' := by
  cases a with
  | open' t mode ok =>
    obtain ⟨-, hs⟩ := Option.ite_none_right_eq_some.mp hs
    obtain rfl := Option.some.inj hs
    unfold PipeState.open'
    by_cases hfail : s.refCount = 0 ∧ ok = false
    · rw [if_pos hfail]
      exact ⟨fun _ => rfl, iff_of_true rfl hfail.1⟩
    rw [if_neg hfail]
    by_cases hzero : s.refCount = 0
    · rw [if_pos hzero]
      exact ⟨fun _ => rfl, iff_of_false (fun hn => by contradiction) (Nat.succ_ne_zero _)⟩
    · rw [if_neg hzero]
      refine ⟨fun hw => ?_, iff_of_false (fun hn => hzero (hset.open'.mp hn)) (Nat.succ_ne_zero _)⟩
      have hw' : (if mode.writes then s.writers + 1 else s.writers) = 0 := hw
      refine hset.empty ?_
      split_ifs at hw'
      exact hw'
  | close t mode =>
    obtain ⟨-, hs⟩ := Option.ite_none_right_eq_some.mp hs
    obtain rfl := Option.some.inj hs
    refine ⟨fun hw => ?_, hset.open'⟩
    have hw' : (if mode.writes then s.writers - 1 else s.writers) = 0 := hw
    by_cases hzero : s.writers = 0
    · exact hset.empty hzero
    · -- this descriptor is the last one for writing
      refine hO.closes ?_
      split_ifs at hw' with hmode
      · simp only [closesWriters, hmode, Bool.true_and, decide_eq_true_eq]
        omega
      · exact absurd hw' hzero
  | read t count nonblock =>
    obtain ⟨-, hs⟩ := Option.ite_none_right_eq_some.mp hs
    obtain rfl := Option.some.inj hs
    exact hset.same rfl rfl rfl
  | write t buf nonblock =>
    obtain ⟨-, hs⟩ := Option.ite_none_right_eq_some.mp hs
    obtain rfl := Option.some.inj hs
    exact hset.same rfl rfl rfl
  | goOn t => exact hset.goOn hO hs

omit [DecidableEq τ] in
theorem EndsFile.writers {pc : PipePc} (heof : EndsFile s pc) : s.writers = 0 := by
  cases pc with
  | test c | look c =>
    cases c with
    | read => exact heof
    | write => exact heof.elim
  | _ => exact heof.elim

/-- If the last writer always closes an empty buffer, a read that finds no writer finds the buffer empty: with
`Balanced.ends`, nothing is lost at the end of file. -/
theorem drained_of_orderly (hrun : (pipes τ cap).Run h s) (hO : Throughout (fun _ s a => Orderly cap s a) h) :
    Throughout (fun _ s a => Drained s a) h := by
  have hsettled : ∀ h s, (pipes τ cap).Run h s → Throughout (fun _ s a => Orderly cap s a) h → Settled s := by
    intro h s hr hall
    refine hr.invariant (I := fun _ s => Settled s) ?_ (fun _ _ _ _ _ hset hO hs => step_settled hset hO hs) hall
    rintro s ⟨-, hfifo, -, -, href, -⟩
    refine ⟨fun _ => ?_, iff_of_true hfifo href⟩
    rw [PipeState.data, hfifo]
    rfl
  refine hrun.throughout hsettled (fun h s a s' _ hset hO _ heof => ?_) hO
  cases a with
  | goOn t =>
    have hempty := hset.empty (EndsFile.writers heof)
    cases hfifo : s.fifo with
    | none => exact absurd (hset.open'.mp hfifo) (hO.reads heof)
    | some q => rw [← hempty, data_of_fifo hfifo]
  | _ => exact heof.elim

instance (s : PipeState τ) (pc : PipePc) : Decidable (EndsFile s pc) := by
  cases pc with
  | test c =>
    cases c
    all_goals
      unfold EndsFile
      infer_instance
  | look c =>
    cases c
    all_goals
      unfold EndsFile
      infer_instance
  | _ =>
    unfold EndsFile
    infer_instance

instance (s : PipeState τ) (a : PipeAction τ) : Decidable (EndOfFile s a) := by
  cases a
  all_goals
    unfold EndOfFile
    infer_instance

instance (s : PipeState τ) (a : PipeAction τ) : Decidable (Drained s a) := by
  unfold Drained
  infer_instance

/-- A writer writes a byte and closes the pipe, and the next read returns 0: before the lock is taken, or behind a wait
that has begun before. -/
theorem end_of_file_loses_bytes :
    (∃ h s, (pipes (Fin 2) 4).Run h s ∧ EndOfFile s (.goOn 0) ∧ s.pc 0 = .test (.read 1 false) ∧
      due 4 h = [7] ∧ returned h = []) ∧
    ∃ h s, (pipes (Fin 2) 4).Run h s ∧ EndOfFile s (.goOn 0) ∧ s.pc 0 = .look (.read 1 false) ∧
      due 4 h = [7] ∧ returned h = [] := by
  constructor
  · exact System.exists_run (init_created 2) [.open' 0 .rdonly true, .open' 1 .wronly true, .write 1 [7] false, .goOn 1,
      .goOn 1, .goOn 1, .close 1 .wronly, .goOn 1, .goOn 1, .goOn 1, .read 0 1 false] _ (by decide +kernel)
  · exact System.exists_run (init_created 2) [.open' 0 .rdonly true, .open' 1 .wronly true, .read 0 1 false, .goOn 0,
      .goOn 0, .goOn 0, .goOn 0, .write 1 [7] false, .goOn 1, .goOn 1, .goOn 1, .close 1 .wronly, .goOn 1, .goOn 1,
      .goOn 1, .goOn 0, .goOn 0] _ (by decide +kernel)

/-- In every run in which a read that finds no writer finds the buffer empty, the bytes are returned in the order in
which they were accepted, and at the end of file all bytes have been returned that had been accepted when the last
writer closed. -/
theorem end_of_file (hrun : (pipes τ cap).Run h s) (hP : Throughout (fun _ s a => Drained s a) h) :
    Throughout (fun h s a => returned h <+: accepted cap h ∧ (EndOfFile s a → due cap h <+: returned h)) h := by
  exact hrun.throughout (fun _ _ hr _ => balanced_run hr) (fun _ _ _ _ _ hb hD _ => hb.ends hD) hP

/-- Two bytes are read one at a time, the writer closes, and the end of file is reported. -/
theorem end_of_file_run : ∃ h s, (pipes (Fin 2) 4).Run h s ∧ due 4 h = [1, 2] ∧
    Throughout (fun h s a => returned h <+: accepted 4 h ∧ (EndOfFile s a → due 4 h <+: returned h)) h := by
  obtain ⟨h, s, hrun, hP, hdue⟩ := System.exists_run (S := pipes (Fin 2) 4) (init_created 2)
    [.open' 0 .rdonly true, .open' 1 .wronly true, .write 1 [1, 2] false, .goOn 1, .goOn 1, .goOn 1, .read 0 1 false,
      .goOn 0, .goOn 0, .goOn 0, .read 0 1 false, .goOn 0, .goOn 0, .goOn 0, .close 1 .wronly, .goOn 1, .goOn 1,
      .goOn 1, .read 0 1 false, .goOn 0]
    (fun h s => Throughout (fun _ s a => Drained s a) h ∧ due 4 h = [1, 2]) (by decide +kernel)
  exact ⟨h, s, hrun, hdue, end_of_file hrun hP⟩

end endOfFile

end ThyristorController.Pipes
