import Mathlib.Algebra.Group.Nat.Defs
import Mathlib.Data.List.Basic
import Mathlib.Tactic.Common
import ThyristorController.Kernel.IpcThreads
import ThyristorController.Lib.Ring
import ThyristorController.Lib.Run

/-!
# Data queues (`components/drivers/src/dataqueue.c`)

Any number of threads and interrupts call `rt_data_queue_push` and `rt_data_queue_pop`; a critical section is one step,
from the test of the loop to the end of the call or to `rt_schedule`.

The indices have 15 bits and the size has 16. A queue of more than 2^15 items goes on from its start behind 2^15 of them
and is then full: items come out as they went in, but `is_full` and the indices do not tell how many there are
(`queue_exact`).
-/

namespace ThyristorController.DataQueues

open Transition

/-! ## The queue -/

/-- The queue of `struct rt_data_queue`; a pointer and its size are one item. -/
structure DataRing (δ : Type) where
  getIndex : BitVec 15
  putIndex : BitVec 15
  isEmpty : Bool
  isFull : Bool
  queue : Nat → δ

variable {δ : Type}

/-- The index behind another one. -/
def nextIndex (size : Nat) (index : BitVec 15) : BitVec 15 := if (index + 1).toNat = size then 0 else index + 1

namespace DataRing

/-- `rt_data_queue_push`, behind its loop. -/
def put (size : Nat) (q : DataRing δ) (item : δ) : DataRing δ :=
  { q with
    queue := Function.update q.queue q.putIndex.toNat item
    putIndex := nextIndex size q.putIndex
    isEmpty := false
    isFull := if nextIndex size q.putIndex = q.getIndex then true else q.isFull }

/-- `rt_data_queue_pop`, behind its loop. -/
def get (size : Nat) (q : DataRing δ) : DataRing δ :=
  { q with
    getIndex := nextIndex size q.getIndex
    isFull := false
    isEmpty := if q.putIndex = nextIndex size q.getIndex then true else q.isEmpty }

/-- `rt_data_queue_peek`. -/
def peek (q : DataRing δ) : Option δ := if q.isEmpty then none else some (q.queue q.getIndex.toNat)

/-- `rt_data_queue_len`. -/
def len (size : Nat) (q : DataRing δ) : Nat :=
  if q.isEmpty then 0
  else if q.putIndex.toNat > q.getIndex.toNat then q.putIndex.toNat - q.getIndex.toNat
  else size + q.putIndex.toNat - q.getIndex.toNat

end DataRing

/-! ## The threads -/

/-- A thread that waits in `rt_data_queue_push` or `rt_data_queue_pop`, behind `rt_schedule`. -/
inductive QueuePc (δ : Type) where
  | out
  | push (item : δ) (timeout : Int)
  | pop (timeout : Int)

/-- `struct rt_data_queue`, and fields of the threads. `pushed` are the items of the pushes that return `RT_EOK`,
`popped` those that pops return. -/
structure DataQueue (τ δ : Type) where
  ring : DataRing δ
  suspendedPushList : List τ
  suspendedPopList : List τ
  error : τ → Int
  timer : τ → Bool
  pc : τ → QueuePc δ
  pushed : List δ
  popped : List δ

variable {τ : Type} [DecidableEq τ]

namespace DataQueue

/-- `rt_thread_resume`. -/
def resume (s : DataQueue τ δ) (t : τ) : DataQueue τ δ :=
  { s with
    suspendedPushList := s.suspendedPushList.erase t
    suspendedPopList := s.suspendedPopList.erase t
    timer := Function.update s.timer t false }

/-- `rt_thread_timeout`. -/
def timeout (s : DataQueue τ δ) (t : τ) : DataQueue τ δ :=
  { s.resume t with error := Function.update s.error t rtEtimeout }

/-- The thread is suspended in a call, and its timer is started. -/
def suspend (s : DataQueue τ δ) (t : τ) (pc : QueuePc δ) (timeout : Int) : DataQueue τ δ :=
  { s with
    error := Function.update s.error t rtEok
    timer := Function.update s.timer t (0 < timeout)
    pc := Function.update s.pc t pc }

/-- The call returns. -/
def leave (s : DataQueue τ δ) (t : τ) : DataQueue τ δ := { s with pc := Function.update s.pc t .out }

/-- `rt_data_queue_push`, from the test of the loop. -/
def push (size : Nat) (s : DataQueue τ δ) (t : τ) (item : δ) (timeout : Int) : DataQueue τ δ :=
  if s.ring.isFull then
    if timeout = 0 then s.leave t
    else { s.suspend t (.push item timeout) timeout with suspendedPushList := s.suspendedPushList ++ [t] }
  else
    let s := { s.leave t with ring := s.ring.put size item, pushed := s.pushed ++ [item] }
    match s.suspendedPopList with
    | u :: _ => s.resume u
    | [] => s

/-- `rt_data_queue_pop`, from the test of the loop. -/
def pop (size lwm : Nat) (s : DataQueue τ δ) (t : τ) (timeout : Int) : DataQueue τ δ :=
  if s.ring.isEmpty then
    if timeout = 0 then s.leave t
    else { s.suspend t (.pop timeout) timeout with suspendedPopList := s.suspendedPopList ++ [t] }
  else
    let s := { s.leave t with
      ring := s.ring.get size, popped := s.popped ++ [s.ring.queue s.ring.getIndex.toNat] }
    if s.ring.len size ≤ lwm then
      match s.suspendedPushList with
      | u :: _ => s.resume u
      | [] => s
    else s

/-- A thread that has been suspended runs again. -/
def goOn (size lwm : Nat) (s : DataQueue τ δ) (t : τ) : Option (DataQueue τ δ) :=
  if t ∈ s.suspendedPushList ∨ t ∈ s.suspendedPopList then none
  else
    match s.pc t with
    | .out => none
    | .push item timeout => some (if s.error t = rtEok then s.push size t item timeout else s.leave t)
    | .pop timeout => some (if s.error t = rtEok then s.pop size lwm t timeout else s.leave t)

def idle (s : DataQueue τ δ) (t : τ) : Bool :=
  match s.pc t with
  | .out => true
  | _ => false

end DataQueue

inductive QueueAction (τ δ : Type) where
  | push (t : τ) (item : δ) (timeout : Int)
  | pop (t : τ) (timeout : Int)
  | goOn (t : τ)
  | timeout (t : τ)
  deriving DecidableEq

/-- An interrupt is a caller whose timeout is 0. -/
def queueStep (size lwm : Nat) (s : DataQueue τ δ) : QueueAction τ δ → Option (DataQueue τ δ)
  | .push t item timeout => if s.idle t then some (s.push size t item timeout) else none
  | .pop t timeout => if s.idle t then some (s.pop size lwm t timeout) else none
  | .goOn t => s.goOn size lwm t
  | .timeout t => if s.timer t then some (s.timeout t) else none

/-- Behind `rt_data_queue_init`. -/
def dataQueues (τ δ : Type) [DecidableEq τ] (size lwm : Nat) : System (DataQueue τ δ) (QueueAction τ δ) where
  init s := s.ring.getIndex = 0 ∧ s.ring.putIndex = 0 ∧ s.ring.isEmpty = true ∧ s.ring.isFull = false ∧
    s.suspendedPushList = [] ∧ s.suspendedPopList = [] ∧ (∀ t, s.timer t = false) ∧ (∀ t, s.idle t = true) ∧
    s.pushed = [] ∧ s.popped = []
  step := queueStep size lwm

/-! ## What the queue holds -/

/-- How many items fit in. -/
def room (size : Nat) : Nat := min size (2 ^ 15)

/-- The queue holds the items of a list. -/
structure Holds (size : Nat) (q : DataRing δ) (l : List δ) : Prop where
  lt : q.getIndex.toNat < room size
  items : Ring.contents q.queue (room size) q.getIndex.toNat l.length = l
  le : l.length ≤ room size
  put : q.putIndex.toNat = (q.getIndex.toNat + l.length) % room size
  empty : q.isEmpty = true ↔ l.length = 0
  full : q.isFull = true ↔ l.length = room size

section lemmas

variable {size lwm : Nat} {q : DataRing δ} {l : List δ} {x : δ} {i : BitVec 15}

theorem nextIndex_toNat (hi : i.toNat < room size) : (nextIndex size i).toNat = (i.toNat + 1) % room size := by
  have hroom : room size ≤ 2 ^ 15 := Nat.min_le_right ..
  have hsize : room size = size ∨ room size = 2 ^ 15 ∧ 2 ^ 15 ≤ size := by
    unfold room
    omega
  have hadd : (i + 1).toNat = (i.toNat + 1) % 2 ^ 15 := by
    rw [BitVec.toNat_add]
    rfl
  unfold nextIndex
  rw [hadd]
  rcases hsize with hsize | ⟨hsize, hlarge⟩
  · rw [hsize] at hi hroom ⊢
    split_ifs with hnext
    · have hlast : i.toNat + 1 = size := by omega
      rw [hlast, Nat.mod_self]
      rfl
    · rw [hadd]
      rcases Nat.lt_or_ge (i.toNat + 1) size with hlt | hge
      · rw [Nat.mod_eq_of_lt hlt, Nat.mod_eq_of_lt (by omega)]
      · have hlast : i.toNat + 1 = size := by omega
        have hmax : size = 2 ^ 15 := by omega
        rw [hlast, hmax]
  · rw [if_neg (by omega), hadd, hsize]

theorem room_pos (hsize : 0 < size) : 0 < room size := by
  unfold room
  omega

theorem Holds.not_empty (hq : Holds size q l) (hempty : q.isEmpty = false) : ∃ x rest, l = x :: rest := by
  cases l with
  | nil =>
    have := hq.empty.mpr rfl
    rw [hempty] at this
    cases this
  | cons x rest => exact ⟨x, rest, rfl⟩

theorem Holds.not_full (hq : Holds size q l) (hfull : q.isFull = false) : l.length < room size := by
  have hne : l.length ≠ room size := by
    intro heq
    rw [hq.full.mpr heq] at hfull
    cases hfull
  have := hq.le
  omega

/-- The next index to put at is the first one just if the queue is full then. -/
theorem next_eq_iff {n : Nat} {g : Nat} (hg : g < room size) (hn : n < room size) :
    (g + n + 1) % room size = g ↔ n + 1 = room size := by
  rw [Nat.add_assoc, Ring.place_eq hg (by omega)]
  split_ifs <;> omega

theorem Holds.putIndex (hq : Holds size q l) (hlt : l.length < room size) :
    (nextIndex size q.putIndex).toNat = (q.getIndex.toNat + l.length + 1) % room size := by
  have hput : q.putIndex.toNat < room size := by
    rw [hq.put]
    exact Nat.mod_lt _ (by omega)
  rw [nextIndex_toNat hput, hq.put, Nat.mod_add_mod]

theorem Holds.store (hq : Holds size q l) (hlt : l.length < room size) : Holds size (q.put size x) (l ++ [x]) where
  lt := hq.lt
  items := by
    have hpush := @Ring.contents_push δ q.queue (room size) q.getIndex.toNat l.length hlt x
    rw [hq.items, ← hq.put] at hpush
    rw [List.length_append]
    exact hpush
  le := by
    rw [List.length_append]
    exact hlt
  put := by
    rw [List.length_append]
    exact hq.putIndex hlt
  empty := by simp [DataRing.put]
  full := by
    have hnext : nextIndex size q.putIndex = q.getIndex ↔ l.length + 1 = room size := by
      rw [← next_eq_iff hq.lt hlt, ← hq.putIndex hlt]
      exact BitVec.toNat_inj.symm
    have hnot : q.isFull ≠ true := fun hfull => absurd (hq.full.mp hfull) (by omega)
    rw [List.length_append, List.length_singleton, ← hnext]
    simp only [DataRing.put]
    split_ifs with heq
    · exact iff_of_true rfl heq
    · exact iff_of_false hnot heq

theorem Holds.fetch {rest : List δ} (hq : Holds size q (x :: rest)) :
    q.queue q.getIndex.toNat = x ∧ Holds size (q.get size) rest := by
  have hnext : (nextIndex size q.getIndex).toNat = (q.getIndex.toNat + 1) % room size := nextIndex_toNat hq.lt
  have hpop := @Ring.contents_pop δ q.queue (room size) q.getIndex.toNat rest.length hq.lt
  have hitems := hq.items
  rw [List.length_cons, hpop] at hitems
  obtain ⟨hfirst, hrest⟩ := List.cons.inj hitems
  have hle := hq.le
  rw [List.length_cons] at hle
  have hput : q.putIndex.toNat = ((nextIndex size q.getIndex).toNat + rest.length) % room size := by
    rw [hq.put, hnext, Nat.mod_add_mod, List.length_cons, Nat.add_assoc, Nat.add_comm rest.length 1]
  have hlt : (nextIndex size q.getIndex).toNat < room size := by
    rw [hnext]
    exact Nat.mod_lt _ (by omega)
  refine ⟨hfirst, hlt, ?_, by omega, hput, ?_, ?_⟩
  · rw [← hnext] at hrest
    exact hrest
  · have hsame : q.putIndex = nextIndex size q.getIndex ↔ rest.length = 0 := by
      rw [← BitVec.toNat_inj, hput, Ring.place_eq hlt (by omega)]
      split_ifs <;> omega
    have hnot : q.isEmpty ≠ true := fun hempty => absurd (hq.empty.mp hempty) (by simp)
    rw [← hsame]
    simp only [DataRing.get]
    split_ifs with heq
    · exact iff_of_true rfl heq
    · exact iff_of_false hnot heq
  · refine iff_of_false (fun hfull => ?_) (by omega)
    cases hfull

theorem Holds.peek (hq : Holds size q l) : q.peek = l.head? := by
  unfold DataRing.peek
  cases l with
  | nil => exact if_pos (hq.empty.mpr rfl)
  | cons x rest =>
    have hnot : q.isEmpty ≠ true := fun hempty => absurd (hq.empty.mp hempty) (by simp)
    rw [if_neg hnot, hq.fetch.1]
    rfl

/-- With at most 2^15 places, the indices and flags tell how many items there are. -/
theorem Holds.len (hq : Holds size q l) (hmax : size ≤ 2 ^ 15) : q.len size = l.length := by
  have hroom : room size = size := Nat.min_eq_left hmax
  have hlt := hq.lt
  have hle := hq.le
  have hput := hq.put
  rw [hroom] at hlt hle hput
  rw [Ring.place_eq hlt hle] at hput
  unfold DataRing.len
  by_cases hempty : q.isEmpty = true
  · rw [if_pos hempty, hq.empty.mp hempty]
  · have hpos : l.length ≠ 0 := fun h0 => hempty (hq.empty.mpr h0)
    rw [if_neg hempty]
    split_ifs at hput ⊢ <;> omega

/-! ## Runs -/

variable {s s' : DataQueue τ δ} {t u : τ} {a : QueueAction τ δ} {h : History (DataQueue τ δ) (QueueAction τ δ)}
  {time : Int}

/-- The items that have been pushed are the ones that have been popped and, behind them, those in the queue. -/
def Exact (size : Nat) (s : DataQueue τ δ) : Prop := ∃ l, Holds size s.ring l ∧ s.popped ++ l = s.pushed

omit [DecidableEq τ] in
theorem Exact.same (hs : Exact size s) (hring : s'.ring = s.ring) (hpushed : s'.pushed = s.pushed)
    (hpopped : s'.popped = s.popped) : Exact size s' := by
  unfold Exact
  rw [hring, hpushed, hpopped]
  exact hs

theorem push_full (hfull : s.ring.isFull = true) : (s.push size t x time).ring = s.ring ∧
    (s.push size t x time).pushed = s.pushed ∧ (s.push size t x time).popped = s.popped := by
  unfold DataQueue.push
  rw [if_pos hfull]
  split_ifs
  · exact ⟨rfl, rfl, rfl⟩
  · exact ⟨rfl, rfl, rfl⟩

theorem push_room (hfull : s.ring.isFull = false) : (s.push size t x time).ring = s.ring.put size x ∧
    (s.push size t x time).pushed = s.pushed ++ [x] ∧ (s.push size t x time).popped = s.popped := by
  unfold DataQueue.push
  rw [if_neg (by simp [hfull])]
  dsimp only
  split
  · exact ⟨rfl, rfl, rfl⟩
  · exact ⟨rfl, rfl, rfl⟩

theorem pop_empty (hempty : s.ring.isEmpty = true) : (s.pop size lwm t time).ring = s.ring ∧
    (s.pop size lwm t time).pushed = s.pushed ∧ (s.pop size lwm t time).popped = s.popped := by
  unfold DataQueue.pop
  rw [if_pos hempty]
  split_ifs
  · exact ⟨rfl, rfl, rfl⟩
  · exact ⟨rfl, rfl, rfl⟩

theorem pop_item (hempty : s.ring.isEmpty = false) : (s.pop size lwm t time).ring = s.ring.get size ∧
    (s.pop size lwm t time).pushed = s.pushed ∧
    (s.pop size lwm t time).popped = s.popped ++ [s.ring.queue s.ring.getIndex.toNat] := by
  unfold DataQueue.pop
  rw [if_neg (by simp [hempty])]
  dsimp only
  split_ifs
  · split
    · exact ⟨rfl, rfl, rfl⟩
    · exact ⟨rfl, rfl, rfl⟩
  · exact ⟨rfl, rfl, rfl⟩

theorem push_pc (hne : u ≠ t) : (s.push size t x time).pc u = s.pc u := by
  unfold DataQueue.push
  split_ifs
  · exact Function.update_of_ne hne _ _
  · exact Function.update_of_ne hne _ _
  · dsimp only
    split
    · exact Function.update_of_ne hne _ _
    · exact Function.update_of_ne hne _ _

theorem push_idle (hfull : s.ring.isFull = false) : (s.push size t x time).idle t = true := by
  unfold DataQueue.push
  rw [if_neg (by simp [hfull])]
  dsimp only
  split
  · simp [DataQueue.idle, DataQueue.resume, DataQueue.leave]
  · simp [DataQueue.idle, DataQueue.leave]

theorem pop_pc (hne : u ≠ t) : (s.pop size lwm t time).pc u = s.pc u := by
  unfold DataQueue.pop
  split_ifs
  · exact Function.update_of_ne hne _ _
  · exact Function.update_of_ne hne _ _
  · dsimp only
    split_ifs
    · split
      · exact Function.update_of_ne hne _ _
      · exact Function.update_of_ne hne _ _
    · exact Function.update_of_ne hne _ _

theorem Exact.push (hs : Exact size s) : Exact size (s.push size t x time) := by
  cases hfull : s.ring.isFull with
  | true =>
    obtain ⟨hring, hpushed, hpopped⟩ := @push_full δ τ _ size x s t time hfull
    exact hs.same hring hpushed hpopped
  | false =>
    obtain ⟨hring, hpushed, hpopped⟩ := @push_room δ τ _ size x s t time hfull
    obtain ⟨l, hl, hlist⟩ := hs
    refine ⟨l ++ [x], ?_, ?_⟩
    · rw [hring]
      exact hl.store (hl.not_full hfull)
    · rw [hpushed, hpopped, ← hlist, List.append_assoc]

theorem Exact.pop (hs : Exact size s) : Exact size (s.pop size lwm t time) := by
  cases hempty : s.ring.isEmpty with
  | true =>
    obtain ⟨hring, hpushed, hpopped⟩ := @pop_empty δ τ _ size lwm s t time hempty
    exact hs.same hring hpushed hpopped
  | false =>
    obtain ⟨hring, hpushed, hpopped⟩ := @pop_item δ τ _ size lwm s t time hempty
    obtain ⟨l, hl, hlist⟩ := hs
    obtain ⟨x, rest, rfl⟩ := hl.not_empty hempty
    obtain ⟨hfirst, hrest⟩ := hl.fetch
    refine ⟨rest, ?_, ?_⟩
    · rw [hring]
      exact hrest
    · rw [hpushed, hpopped, hfirst, ← hlist, List.append_assoc]
      rfl

theorem step_exact (hs : Exact size s) (hstep : queueStep size lwm s a = some s') : Exact size s' := by
  cases a with
  | push t item time =>
    obtain ⟨_, hstep⟩ := Option.ite_none_right_eq_some.mp hstep
    obtain rfl := Option.some.inj hstep
    exact hs.push
  | pop t time =>
    obtain ⟨_, hstep⟩ := Option.ite_none_right_eq_some.mp hstep
    obtain rfl := Option.some.inj hstep
    exact hs.pop
  | goOn t =>
    obtain ⟨_, hstep⟩ := Option.ite_none_left_eq_some.mp hstep
    split at hstep
    · cases hstep
    · obtain rfl := Option.some.inj hstep
      split_ifs
      · exact hs.push
      · exact hs.same rfl rfl rfl
    · obtain rfl := Option.some.inj hstep
      split_ifs
      · exact hs.pop
      · exact hs.same rfl rfl rfl
  | timeout t =>
    obtain ⟨_, hstep⟩ := Option.ite_none_right_eq_some.mp hstep
    obtain rfl := Option.some.inj hstep
    exact hs.same rfl rfl rfl

theorem run_exact (hsize : 0 < size) (hrun : (dataQueues τ δ size lwm).Run h s) : Exact size s := by
  refine hrun.always (I := fun _ s => Exact size s) ?_ ?_
  · rintro s ⟨hget, hput, hempty, hfull, -, -, -, -, hpushed, hpopped⟩
    have hroom := room_pos hsize
    refine ⟨[], ⟨?_, rfl, Nat.zero_le _, ?_, ?_, ?_⟩, ?_⟩
    · rw [hget]
      exact hroom
    · rw [hget, hput]
      exact (Nat.zero_mod _).symm
    · exact iff_of_true hempty rfl
    · rw [hfull]
      exact iff_of_false (by simp) (by simp; omega)
    · rw [hpushed, hpopped]
      rfl
  · intro _ _ _ _ _ hs hstep
    exact step_exact hs hstep

/-- What the indices and flags tell: the number of items, with the flags at its ends. -/
def Told (size : Nat) (s : DataQueue τ δ) : Prop :=
  s.popped.length + s.ring.len size = s.pushed.length ∧ s.ring.len size ≤ size ∧
    (s.ring.isEmpty = true ↔ s.ring.len size = 0) ∧ (s.ring.isFull = true ↔ s.ring.len size = size)

instance (s : DataQueue τ δ) : Decidable (Told size s) := by
  unfold Told
  infer_instance

omit [DecidableEq τ] in
theorem Exact.told (hs : Exact size s) (hmax : size ≤ 2 ^ 15) : Told size s := by
  obtain ⟨l, hl, hpushed⟩ := hs
  have hroom : room size = size := Nat.min_eq_left hmax
  have hle := hl.le
  have hfull := hl.full
  rw [hroom] at hle hfull
  unfold Told
  rw [hl.len hmax, ← hpushed, List.length_append]
  exact ⟨rfl, hle, hl.empty, hfull⟩

theorem pushes_run (t : τ) (x : δ) (hsize : 0 < size) {n : Nat} (hn : n ≤ room size) :
    ∃ h s, (dataQueues τ δ size lwm).Run h s ∧ s.idle t = true ∧ s.suspendedPopList = [] ∧ s.popped = [] ∧
      s.pushed.length = n := by
  induction n with
  | zero =>
    refine ⟨[], ⟨⟨0, 0, true, false, fun _ => x⟩, [], [], fun _ => 0, fun _ => false, fun _ => .out, [], []⟩,
      .init ?_, rfl, rfl, rfl, rfl⟩
    exact ⟨rfl, rfl, rfl, rfl, rfl, rfl, fun _ => rfl, fun _ => rfl, rfl, rfl⟩
  | succ n ih =>
    obtain ⟨h, s, hrun, hidle, hpop, hpopped, hpushed⟩ := ih (by omega)
    obtain ⟨l, hl, hlist⟩ := run_exact hsize hrun
    have hlen : l.length = n := by rw [← hpushed, ← hlist, hpopped, List.nil_append]
    have hfull : s.ring.isFull = false := by
      rw [Bool.eq_false_iff]
      intro hfull
      have := hl.full.mp hfull
      omega
    have hstep : (dataQueues τ δ size lwm).step s (.push t x 0) = some (s.push size t x 0) := if_pos hidle
    have heq : s.push size t x 0 = { s.leave t with ring := s.ring.put size x, pushed := s.pushed ++ [x] } := by
      unfold DataQueue.push
      rw [if_neg (by rw [hfull]; simp)]
      simp only [DataQueue.leave, hpop]
    refine ⟨_, _, hrun.step hstep, ?_, ?_, ?_, ?_⟩
    · simp [heq, DataQueue.idle, DataQueue.leave]
    · rw [heq]
      exact hpop
    · rw [heq]
      exact hpopped
    · rw [heq]
      simp [hpushed]

theorem not_told (t : τ) (x : δ) (hlarge : 2 ^ 15 < size) :
    ∃ h s, (dataQueues τ δ size lwm).Run h s ∧ ¬ Told size s ∧ s.ring.isFull = true ∧ s.popped = [] ∧
      s.pushed.length = 2 ^ 15 := by
  have hroom : room size = 2 ^ 15 := Nat.min_eq_right (Nat.le_of_lt hlarge)
  have hsize : 0 < size := by omega
  obtain ⟨h, s, hrun, _, _, hpopped, hpushed⟩ := @pushes_run δ τ _ size lwm t x hsize (2 ^ 15) (Nat.le_of_eq hroom.symm)
  obtain ⟨l, hl, hlist⟩ := run_exact hsize hrun
  have hlen : l.length = 2 ^ 15 := by rw [← hpushed, ← hlist, hpopped, List.nil_append]
  have hfull : s.ring.isFull = true := hl.full.mpr (by rw [hlen, hroom])
  refine ⟨h, s, hrun, ?_, hfull, hpopped, hpushed⟩
  rintro ⟨hcount, -, -, hiff⟩
  rw [hiff.mp hfull, hpopped, hpushed, List.length_nil, Nat.zero_add] at hcount
  omega

/-- The popped items are the pushed ones, in their order, and all of them when the queue is empty. The indices and flags
tell how many there are in every state, just if the size is at most 2^15. -/
theorem queue_exact [Nonempty τ] [Nonempty δ] (hsize : 0 < size) :
    (∀ h s, (dataQueues τ δ size lwm).Run h s →
      s.popped <+: s.pushed ∧ (s.ring.isEmpty = true ↔ s.popped = s.pushed)) ∧
    ((∀ h s, (dataQueues τ δ size lwm).Run h s → Told size s) ↔ size ≤ 2 ^ 15) := by
  constructor
  · intro h s hrun
    obtain ⟨l, hl, hpushed⟩ := run_exact hsize hrun
    refine ⟨⟨l, hpushed⟩, ?_⟩
    rw [hl.empty, List.length_eq_zero_iff, ← hpushed]
    exact List.self_eq_append_right.symm
  · constructor
    · intro htold
      by_contra hlarge
      obtain ⟨t⟩ := ‹Nonempty τ›
      obtain ⟨x⟩ := ‹Nonempty δ›
      obtain ⟨h, s, hrun, hnot, _⟩ := @not_told δ τ _ size lwm t x (by omega)
      exact hnot (htold h s hrun)
    · intro hmax h s hrun
      exact (run_exact hsize hrun).told hmax

/-- A thread has pushed two items and popped one. -/
theorem queue_exact_run : ∃ h s, (dataQueues Unit Nat 2 1).Run h s ∧ s.pushed = [7, 8] ∧ s.popped = [7] ∧ Told 2 s := by
  obtain ⟨h, s, hrun, hpushed, hpopped⟩ := System.exists_run (S := dataQueues Unit Nat 2 1)
    (s := ⟨⟨0, 0, true, false, fun _ => 0⟩, [], [], fun _ => 0, fun _ => false, fun _ => .out, [], []⟩)
    ⟨rfl, rfl, rfl, rfl, rfl, rfl, fun _ => rfl, fun _ => rfl, rfl, rfl⟩
    [.push () 7 0, .push () 8 (-1), .pop () 0] (fun _ s => s.pushed = [7, 8] ∧ s.popped = [7]) (by decide +kernel)
  exact ⟨h, s, hrun, hpushed, hpopped, (queue_exact (by decide)).2.mpr (by decide) h s hrun⟩

/-- A queue for 2^16 - 1 items is full with 2^15 of them. -/
theorem full_too_early : ∃ h s, (dataQueues Unit Unit 65535 0).Run h s ∧ ¬ Told 65535 s ∧ s.ring.isFull = true ∧
    s.popped = [] ∧ s.pushed.length = 2 ^ 15 := not_told () () (by decide)

end lemmas

end ThyristorController.DataQueues
