import Mathlib.Data.List.Nodup
import Mathlib.Logic.Function.Basic
import Mathlib.Order.Interval.Finset.Nat
import ThyristorController.Lib.Run
import ThyristorController.Lib.Spans

/-!
# The block ring buffer (`components/drivers/src/ringblk_buf.c`)

Blocks of a buffer are allocated one behind the other, and from the start of the buffer again when the space behind the
last one does not suffice. What is free is inferred from the first and the last block of `blk_list` alone.

The blocks of a queue leave that list while they are still in use, and the first block of an empty list gets any size.
`blocks_disjoint` says that the blocks in use lie in the buffer and are disjoint in the runs in which neither matters.
-/

namespace ThyristorController.RingBlocks

open Transition Spans

/-! ## The functions -/

/-- `enum rt_rbb_status`. -/
inductive RtRbbStatus where
  | unused | inited | put | get
  deriving DecidableEq

/-- `struct rt_rbb_blk`; `buf` is an address. -/
structure RtRbbBlk where
  status : RtRbbStatus
  size : Nat
  buf : Nat
  deriving DecidableEq

/-- `struct rt_rbb_blk_queue`; `blocks` is the number of a block of the set. -/
structure RtRbbBlkQueue where
  blocks : Nat
  blkNum : Nat
  deriving DecidableEq

/-- `struct rt_rbb`; the blocks of `blkList` are numbers of `blkSet`. -/
structure RtRbb where
  buf : Nat
  bufSize : Nat
  blkSet : Nat → RtRbbBlk
  blkMaxNum : Nat
  blkList : List Nat

/-- A sum and a difference of addresses. -/
def ptrAdd (p n : Nat) : Nat := (p + n) % 2 ^ 32

def ptrSub (p q : Nat) : Nat := (p + 2 ^ 32 - q) % 2 ^ 32

/-- `rt_rbb_init`. -/
def rtRbbInit (buf bufSize : Nat) (blockSet : Nat → RtRbbBlk) (blkMaxNum : Nat) : RtRbb where
  buf := buf
  bufSize := bufSize
  blkSet i := if i < blkMaxNum then { blockSet i with status := .unused } else blockSet i
  blkMaxNum := blkMaxNum
  blkList := []

namespace RtRbb

/-- `find_empty_blk_in_set`. -/
def findEmptyBlkInSet (rbb : RtRbb) : Option Nat :=
  (List.range rbb.blkMaxNum).find? fun i => (rbb.blkSet i).status = .unused

/-- The new block is appended to the list. -/
def append (rbb : RtRbb) (new buf size : Nat) : RtRbb :=
  { rbb with blkSet := Function.update rbb.blkSet new ⟨.inited, size, buf⟩, blkList := rbb.blkList ++ [new] }

/-- `rt_rbb_blk_alloc`, and the block that it returns. -/
def blkAlloc (rbb : RtRbb) (blkSize : Nat) : RtRbb × Option Nat :=
  match rbb.findEmptyBlkInSet with
  | none => (rbb, none)
  | some new =>
    if rbb.blkList.length < rbb.blkMaxNum then
      if hne : rbb.blkList ≠ [] then
        let head := rbb.blkSet (rbb.blkList.head hne)
        let tail := rbb.blkSet (rbb.blkList.getLast hne)
        if head.buf ≤ tail.buf then
          let empty1 := ptrSub (ptrAdd rbb.buf rbb.bufSize) (ptrAdd tail.buf tail.size)
          let empty2 := ptrSub head.buf rbb.buf
          if blkSize ≤ empty1 then (rbb.append new (ptrAdd tail.buf tail.size) blkSize, some new)
          else if blkSize ≤ empty2 then (rbb.append new rbb.buf blkSize, some new)
          else (rbb, none)
        else
          let empty1 := ptrSub head.buf (ptrAdd tail.buf tail.size)
          if blkSize ≤ empty1 then (rbb.append new (ptrAdd tail.buf tail.size) blkSize, some new)
          else (rbb, none)
      else (rbb.append new rbb.buf blkSize, some new)
    else (rbb, none)

def setStatus (rbb : RtRbb) (b : Nat) (status : RtRbbStatus) : RtRbb :=
  { rbb with blkSet := Function.update rbb.blkSet b { rbb.blkSet b with status := status } }

/-- `rt_rbb_blk_put`; `none` where its assertion fails. -/
def blkPut (rbb : RtRbb) (block : Nat) : Option RtRbb :=
  if (rbb.blkSet block).status = .inited then some (rbb.setStatus block .put) else none

/-- `rt_rbb_blk_get`. -/
def blkGet (rbb : RtRbb) : RtRbb × Option Nat :=
  match rbb.blkList.find? fun i => (rbb.blkSet i).status = .put with
  | none => (rbb, none)
  | some block => (rbb.setStatus block .get, some block)

/-- `rt_slist_remove`. -/
def listRemove (rbb : RtRbb) (block : Nat) : RtRbb := { rbb with blkList := rbb.blkList.erase block }

/-- `rt_rbb_blk_free`; `none` where its assertion fails. -/
def blkFree (rbb : RtRbb) (block : Nat) : Option RtRbb :=
  if (rbb.blkSet block).status = .unused then none else some ((rbb.listRemove block).setStatus block .unused)

/-- The loop of `rt_rbb_blk_queue_get` over the rest of the list: the buffer, the size of the queue's data and the
queue. -/
def queueGetLoop (queueDataLen : Nat) :
    List Nat → RtRbb → Option Nat → Nat → RtRbbBlkQueue → RtRbb × Nat × RtRbbBlkQueue
  | [], rbb, _, dataTotalSize, queue => (rbb, dataTotalSize, queue)
  | block :: rest, rbb, none, dataTotalSize, queue =>
    if (rbb.blkSet block).status = .put then
      queueGetLoop queueDataLen rest ((rbb.listRemove block).setStatus block .get) (some block)
        ((dataTotalSize + (rbb.blkSet block).size) % 2 ^ 32) ⟨block, 1⟩
    else queueGetLoop queueDataLen rest rbb none dataTotalSize queue
  | block :: rest, rbb, some last, dataTotalSize, queue =>
    if (rbb.blkSet block).status ≠ .put ∨ (rbb.blkSet last).buf > (rbb.blkSet block).buf ∨
        (dataTotalSize + (rbb.blkSet block).size) % 2 ^ 32 > queueDataLen then
      (rbb, dataTotalSize, queue)
    else
      queueGetLoop queueDataLen rest ((rbb.listRemove block).setStatus block .get) (some block)
        ((dataTotalSize + (rbb.blkSet block).size) % 2 ^ 32) ⟨queue.blocks, queue.blkNum + 1⟩

/-- `rt_rbb_blk_queue_get`; `queue` is what `blk_queue` holds before. -/
def blkQueueGet (rbb : RtRbb) (queueDataLen : Nat) (queue : RtRbbBlkQueue) : RtRbb × Nat × RtRbbBlkQueue :=
  queueGetLoop queueDataLen rbb.blkList rbb none 0 queue

/-- The rest of the loop of `rt_rbb_blk_queue_free`, from a block of the set on. A block behind the set is other
memory: its access may leave any state, `wild`. -/
def queueFreeLoop (wild : RtRbb) : Nat → Nat → RtRbb → Option RtRbb
  | 0, _, rbb => some rbb
  | n + 1, block, rbb =>
    if block < rbb.blkMaxNum then (rbb.blkFree block).bind (queueFreeLoop wild n (block + 1)) else some wild

/-- `rt_rbb_blk_queue_free`. -/
def blkQueueFree (rbb : RtRbb) (blkQueue : RtRbbBlkQueue) (wild : RtRbb) : Option RtRbb :=
  queueFreeLoop wild blkQueue.blkNum blkQueue.blocks rbb

end RtRbb

/-- The calls. -/
inductive RbbAction where
  | alloc (blkSize : Nat)
  | put (block : Nat)
  | get
  | free (block : Nat)
  | queueGet (queueDataLen : Nat) (blkQueue : RtRbbBlkQueue)
  | queueFree (blkQueue : RtRbbBlkQueue) (wild : RtRbb)

/-- One call. A caller has the blocks that it gives back from the set; the assertions see to their order. -/
def rbbStep (rbb : RtRbb) : RbbAction → Option RtRbb
  | .alloc blkSize => if blkSize < 2 ^ 24 then some (rbb.blkAlloc blkSize).1 else none
  | .put block => if block < rbb.blkMaxNum then rbb.blkPut block else none
  | .get => some rbb.blkGet.1
  | .free block => if block < rbb.blkMaxNum then rbb.blkFree block else none
  | .queueGet queueDataLen blkQueue => some (rbb.blkQueueGet queueDataLen blkQueue).1
  | .queueFree blkQueue wild => rbb.blkQueueFree blkQueue wild

/-- A buffer ends inside the address space. -/
def ringBlocks : System RtRbb RbbAction where
  init rbb := ∃ buf bufSize blockSet blkMaxNum, buf + bufSize < 2 ^ 32 ∧
    rbb = rtRbbInit buf bufSize blockSet blkMaxNum
  step := rbbStep

/-! ## The blocks in use -/

/-- The addresses of a block's bytes. -/
def RtRbbBlk.bytes (b : RtRbbBlk) : Finset Nat := Finset.Ico b.buf (b.buf + b.size)

def RtRbb.Used (rbb : RtRbb) (i : Nat) : Prop := i < rbb.blkMaxNum ∧ (rbb.blkSet i).status ≠ .unused

instance (rbb : RtRbb) (i : Nat) : Decidable (rbb.Used i) := by
  unfold RtRbb.Used
  infer_instance

/-- All blocks in use lie in the buffer, and no two of them have a byte in common. -/
def RtRbb.Separate (rbb : RtRbb) : Prop :=
  (∀ i, rbb.Used i → rbb.buf ≤ (rbb.blkSet i).buf ∧
    (rbb.blkSet i).buf + (rbb.blkSet i).size ≤ rbb.buf + rbb.bufSize) ∧
  ∀ i j, rbb.Used i → rbb.Used j → i ≠ j → Disjoint (rbb.blkSet i).bytes (rbb.blkSet j).bytes

/-! ## The condition -/

/-- No block that is in use, but not in the list any more, has a byte among the `size` bytes at `place`. -/
def RtRbb.Clear (rbb : RtRbb) (place size : Nat) : Prop :=
  ∀ i < rbb.blkMaxNum, (rbb.blkSet i).status ≠ .unused → i ∉ rbb.blkList →
    Disjoint (rbb.blkSet i).bytes (Finset.Ico place (place + size))

/-- A block of `blkSize` bytes is allocated in an empty list only if it fits into the buffer, and an empty one not in
front of the first block of the list when the last one lies below and ends there. The place behind the last block of
the list, or from the start of the buffer on if the list is empty or leaves no space at the end, is clear. -/
def ProperAlloc (rbb : RtRbb) (blkSize : Nat) : Prop :=
  if hne : rbb.blkList ≠ [] then
    let head := rbb.blkSet (rbb.blkList.head hne)
    let tail := rbb.blkSet (rbb.blkList.getLast hne)
    if head.buf ≤ tail.buf then
      if tail.buf + tail.size + blkSize ≤ rbb.buf + rbb.bufSize then rbb.Clear (tail.buf + tail.size) blkSize
      else rbb.buf + blkSize ≤ head.buf → rbb.Clear rbb.buf blkSize
    else
      (blkSize = 0 → tail.buf + tail.size ≠ head.buf) ∧
        (tail.buf + tail.size + blkSize ≤ head.buf → rbb.Clear (tail.buf + tail.size) blkSize)
  else blkSize ≤ rbb.bufSize ∧ rbb.Clear rbb.buf blkSize

def Proper (rbb : RtRbb) : RbbAction → Prop
  | .alloc blkSize => rbb.findEmptyBlkInSet ≠ none → ProperAlloc rbb blkSize
  | .queueFree blkQueue _ => blkQueue.blocks + blkQueue.blkNum ≤ rbb.blkMaxNum
  | _ => True

/-! ## The invariant -/

def RtRbb.start (rbb : RtRbb) (i : Nat) : Nat := (rbb.blkSet i).buf

def RtRbb.stop (rbb : RtRbb) (i : Nat) : Nat := (rbb.blkSet i).buf + (rbb.blkSet i).size

structure Ok (rbb : RtRbb) : Prop where
  bound : rbb.buf + rbb.bufSize < 2 ^ 32
  separate : rbb.Separate
  nodup : rbb.blkList.Nodup
  used : ∀ i ∈ rbb.blkList, rbb.Used i
  arranged : Arranged rbb.start rbb.stop rbb.blkList

section steps

variable {rbb rbb' : RtRbb} {i new place size block n : Nat} {wild : RtRbb} {h : History RtRbb RbbAction}

theorem disjoint_bytes {b b' : RtRbbBlk} (hle : b.buf + b.size ≤ b'.buf ∨ b'.buf + b'.size ≤ b.buf) :
    Disjoint b.bytes b'.bytes := by
  rw [Finset.disjoint_left]
  intro x hx hx'
  unfold RtRbbBlk.bytes at hx hx'
  rw [Finset.mem_Ico] at hx hx'
  omega

theorem ptrAdd_eq {p n : Nat} (h : p + n < 2 ^ 32) : ptrAdd p n = p + n := Nat.mod_eq_of_lt h

theorem ptrSub_eq {p q : Nat} (hp : p < 2 ^ 32) (hq : q ≤ p) : ptrSub p q = p - q := by
  unfold ptrSub
  rw [show p + 2 ^ 32 - q = p - q + 2 ^ 32 by omega, Nat.add_mod_right, Nat.mod_eq_of_lt (by omega)]

theorem ok_init {buf bufSize blkMaxNum : Nat} {blockSet : Nat → RtRbbBlk} (hbound : buf + bufSize < 2 ^ 32) :
    Ok (rtRbbInit buf bufSize blockSet blkMaxNum) := by
  have hnone : ∀ i, ¬ (rtRbbInit buf bufSize blockSet blkMaxNum).Used i := by
    rintro i ⟨hi, hused⟩
    apply hused
    show (if i < blkMaxNum then _ else _ : RtRbbBlk).status = .unused
    rw [if_pos (show i < blkMaxNum from hi)]
  constructor
  · exact hbound
  · exact ⟨fun i hi => absurd hi (hnone i), fun i _ hi => absurd hi (hnone i)⟩
  · exact List.nodup_nil
  · exact fun i hi => absurd hi List.not_mem_nil
  · exact arranged_nil

/-! ### Blocks that are put, taken and freed -/

theorem Ok.restrict (hok : Ok rbb) (hbuf : rbb'.buf = rbb.buf) (hsize : rbb'.bufSize = rbb.bufSize)
    (hblocks : ∀ i, (rbb'.blkSet i).buf = (rbb.blkSet i).buf ∧ (rbb'.blkSet i).size = (rbb.blkSet i).size)
    (hused : ∀ i, rbb'.Used i → rbb.Used i) (hlist : rbb'.blkList.Sublist rbb.blkList)
    (hlisted : ∀ i ∈ rbb'.blkList, rbb'.Used i) : Ok rbb' := by
  have hbytes : ∀ i, (rbb'.blkSet i).bytes = (rbb.blkSet i).bytes := by
    intro i
    unfold RtRbbBlk.bytes
    rw [(hblocks i).1, (hblocks i).2]
  constructor
  · rw [hbuf, hsize]
    exact hok.bound
  · constructor
    · intro i hi
      rw [hbuf, hsize, (hblocks i).1, (hblocks i).2]
      exact hok.separate.1 i (hused i hi)
    · intro i j hi hj hne
      rw [hbytes i, hbytes j]
      exact hok.separate.2 i j (hused i hi) (hused j hj) hne
  · exact hok.nodup.sublist hlist
  · exact hlisted
  · refine (hok.arranged.sublist hlist).congr (fun i _ => (hblocks i).1) fun i _ => ?_
    unfold RtRbb.stop
    rw [(hblocks i).1, (hblocks i).2]

theorem setStatus_same (rbb : RtRbb) (block i : Nat) (status : RtRbbStatus) :
    ((rbb.setStatus block status).blkSet i).buf = (rbb.blkSet i).buf ∧
      ((rbb.setStatus block status).blkSet i).size = (rbb.blkSet i).size := by
  show (Function.update rbb.blkSet block _ i).buf = _ ∧ (Function.update rbb.blkSet block _ i).size = _
  by_cases hi : i = block
  · subst hi
    rw [Function.update_self]
    exact ⟨rfl, rfl⟩
  · rw [Function.update_of_ne hi]
    exact ⟨rfl, rfl⟩

theorem setStatus_self (rbb : RtRbb) (block : Nat) (status : RtRbbStatus) :
    ((rbb.setStatus block status).blkSet block).status = status := by
  show (Function.update rbb.blkSet block _ block).status = _
  rw [Function.update_self]

theorem setStatus_of_ne (rbb : RtRbb) (status : RtRbbStatus) (hi : i ≠ block) :
    (rbb.setStatus block status).blkSet i = rbb.blkSet i :=
  Function.update_of_ne hi _ _

theorem used_setStatus {status : RtRbbStatus} (hstatus : status ≠ .unused)
    (hblock : (rbb.blkSet block).status ≠ .unused) : (rbb.setStatus block status).Used i ↔ rbb.Used i := by
  unfold RtRbb.Used
  refine and_congr Iff.rfl ?_
  by_cases hi : i = block
  · subst hi
    rw [setStatus_self]
    exact ⟨fun _ => hblock, fun _ => hstatus⟩
  · rw [setStatus_of_ne rbb status hi]

theorem Ok.setStatus {status : RtRbbStatus} (hok : Ok rbb) (hstatus : status ≠ .unused)
    (hblock : (rbb.blkSet block).status ≠ .unused) : Ok (rbb.setStatus block status) := by
  refine hok.restrict rfl rfl (fun i => setStatus_same rbb block i status) ?_ (List.Sublist.refl _) ?_
  · exact fun i hi => (used_setStatus hstatus hblock).mp hi
  · exact fun i hi => (used_setStatus hstatus hblock).mpr (hok.used i hi)

theorem Ok.listRemove (hok : Ok rbb) : Ok (rbb.listRemove block) :=
  hok.restrict rfl rfl (fun _ => ⟨rfl, rfl⟩) (fun _ hi => hi) List.erase_sublist
    fun i hi => hok.used i (List.mem_of_mem_erase hi)

theorem Ok.blkFree (hok : Ok rbb) (hs : rbb.blkFree block = some rbb') :
    Ok rbb' ∧ rbb'.blkMaxNum = rbb.blkMaxNum := by
  unfold RtRbb.blkFree at hs
  split_ifs at hs with hunused
  obtain rfl := Option.some.inj hs
  refine ⟨?_, rfl⟩
  refine hok.restrict rfl rfl (fun i => setStatus_same _ block i .unused) ?_ List.erase_sublist ?_
  · rintro i ⟨hi, hused⟩
    refine ⟨hi, ?_⟩
    by_cases he : i = block
    · subst he
      exact absurd (setStatus_self _ i .unused) hused
    · rwa [setStatus_of_ne _ _ he] at hused
  · intro i hi
    have he : i ≠ block := by
      rintro rfl
      exact hok.nodup.not_mem_erase hi
    obtain ⟨hlt, hused⟩ := hok.used i (List.mem_of_mem_erase hi)
    refine ⟨hlt, ?_⟩
    rw [setStatus_of_ne _ _ he]
    exact hused

theorem Ok.blkPut (hok : Ok rbb) (hs : rbb.blkPut block = some rbb') : Ok rbb' := by
  unfold RtRbb.blkPut at hs
  split_ifs at hs with hinited
  obtain rfl := Option.some.inj hs
  apply hok.setStatus
  · exact fun he => by contradiction
  · rw [hinited]
    exact fun he => by contradiction

theorem Ok.blkGet (hok : Ok rbb) : Ok rbb.blkGet.1 := by
  unfold RtRbb.blkGet
  cases hfind : rbb.blkList.find? fun i => (rbb.blkSet i).status = .put with
  | none => exact hok
  | some block =>
    have hput := List.find?_some hfind
    apply hok.setStatus
    · exact fun he => by contradiction
    · rw [of_decide_eq_true hput]
      exact fun he => by contradiction

theorem Ok.queueGetLoop {len total : Nat} {last : Option Nat} {queue : RtRbbBlkQueue} {l : List Nat} (hok : Ok rbb) :
    Ok (RtRbb.queueGetLoop len l rbb last total queue).1 := by
  induction l generalizing rbb last total queue with
  | nil => exact hok
  | cons block rest ih =>
    have htake : (rbb.blkSet block).status = .put → Ok ((rbb.listRemove block).setStatus block .get) := by
      intro hput
      apply hok.listRemove.setStatus
      · exact fun he => by contradiction
      · rw [show ((rbb.listRemove block).blkSet block).status = .put from hput]
        exact fun he => by contradiction
    cases last with
    | none =>
      unfold RtRbb.queueGetLoop
      by_cases hput : (rbb.blkSet block).status = .put
      · rw [if_pos hput]
        exact ih (htake hput)
      · rw [if_neg hput]
        exact ih hok
    | some last =>
      unfold RtRbb.queueGetLoop
      split_ifs with hbreak
      · exact hok
      · refine ih (htake ?_)
        by_contra hput
        exact hbreak (.inl hput)

theorem Ok.queueFreeLoop (hok : Ok rbb) (hset : block + n ≤ rbb.blkMaxNum)
    (hs : RtRbb.queueFreeLoop wild n block rbb = some rbb') : Ok rbb' := by
  induction n generalizing rbb block with
  | zero =>
    obtain rfl := Option.some.inj hs
    exact hok
  | succ n ih =>
    unfold RtRbb.queueFreeLoop at hs
    rw [if_pos (by omega)] at hs
    obtain ⟨next, hfree, hs⟩ := Option.bind_eq_some_iff.mp hs
    obtain ⟨hok', hmax⟩ := hok.blkFree hfree
    refine ih hok' ?_ hs
    rw [hmax]
    omega

/-! ### Allocation -/

theorem findEmptyBlkInSet_some (hfind : rbb.findEmptyBlkInSet = some new) :
    new < rbb.blkMaxNum ∧ (rbb.blkSet new).status = .unused := by
  unfold RtRbb.findEmptyBlkInSet at hfind
  have hunused := List.find?_some hfind
  exact ⟨List.mem_range.mp (List.mem_of_find?_eq_some hfind), of_decide_eq_true hunused⟩

theorem append_self (rbb : RtRbb) (new place size : Nat) :
    (rbb.append new place size).blkSet new = ⟨.inited, size, place⟩ := Function.update_self _ _ _

theorem append_of_ne (rbb : RtRbb) (place size : Nat) (hi : i ≠ new) :
    (rbb.append new place size).blkSet i = rbb.blkSet i := Function.update_of_ne hi _ _

theorem start_append_self : (rbb.append new place size).start new = place := by rw [RtRbb.start, append_self]

theorem stop_append_self : (rbb.append new place size).stop new = place + size := by rw [RtRbb.stop, append_self]

theorem start_append (hi : i ≠ new) : (rbb.append new place size).start i = rbb.start i := by
  rw [RtRbb.start, append_of_ne rbb place size hi, RtRbb.start]

theorem stop_append (hi : i ≠ new) : (rbb.append new place size).stop i = rbb.stop i := by
  rw [RtRbb.stop, append_of_ne rbb place size hi, RtRbb.stop]

theorem start_le_stop (rbb : RtRbb) (i : Nat) : rbb.start i ≤ rbb.stop i := Nat.le_add_right _ _

theorem Ok.ne_new (hok : Ok rbb) (hfind : rbb.findEmptyBlkInSet = some new) (hi : i ∈ rbb.blkList) : i ≠ new := by
  rintro rfl
  exact (hok.used i hi).2 (findEmptyBlkInSet_some hfind).2

theorem Ok.arranged_append (hok : Ok rbb) (hfind : rbb.findEmptyBlkInSet = some new) (place size : Nat) :
    Arranged (rbb.append new place size).start (rbb.append new place size).stop rbb.blkList :=
  hok.arranged.congr (fun _ hi => start_append (hok.ne_new hfind hi)) fun _ hi => stop_append (hok.ne_new hfind hi)

theorem Ok.append (hok : Ok rbb) (hfind : rbb.findEmptyBlkInSet = some new)
    (hlow : rbb.buf ≤ place) (hhigh : place + size ≤ rbb.buf + rbb.bufSize) (hclear : rbb.Clear place size)
    (harranged : Arranged (rbb.append new place size).start (rbb.append new place size).stop (rbb.blkList ++ [new]))
    (hlist : ∀ i ∈ rbb.blkList, rbb.stop i ≤ place ∨ place + size ≤ rbb.start i) :
    Ok (rbb.append new place size) := by
  have hold : ∀ i, i ≠ new → (rbb.append new place size).Used i → rbb.Used i := by
    rintro i hi ⟨himax, hused⟩
    rw [append_of_ne rbb place size hi] at hused
    exact ⟨himax, hused⟩
  have hnew : ∀ i, i ≠ new → (rbb.append new place size).Used i →
      Disjoint ((rbb.append new place size).blkSet i).bytes ((rbb.append new place size).blkSet new).bytes := by
    intro i hi hused
    rw [append_of_ne rbb place size hi, append_self]
    by_cases hmem : i ∈ rbb.blkList
    · exact disjoint_bytes (hlist i hmem)
    · exact hclear i (hold i hi hused).1 (hold i hi hused).2 hmem
  constructor
  · exact hok.bound
  · constructor
    · intro i hi
      by_cases he : i = new
      · subst he
        rw [append_self]
        exact ⟨hlow, hhigh⟩
      · rw [append_of_ne rbb place size he]
        exact hok.separate.1 i (hold i he hi)
    · intro i j hi hj hne
      by_cases hin : i = new
      · subst hin
        exact (hnew j hne.symm hj).symm
      · by_cases hjn : j = new
        · subst hjn
          exact hnew i hin hi
        · rw [append_of_ne rbb place size hin, append_of_ne rbb place size hjn]
          exact hok.separate.2 i j (hold i hin hi) (hold j hjn hj) hne
  · show (rbb.blkList ++ [new]).Nodup
    rw [List.nodup_append]
    refine ⟨hok.nodup, List.nodup_singleton new, ?_⟩
    intro i hi j hj
    rw [List.mem_singleton.mp hj]
    exact hok.ne_new hfind hi
  · intro i hi
    rcases List.mem_append.mp hi with hi | hi
    · refine ⟨(hok.used i hi).1, ?_⟩
      rw [append_of_ne rbb place size (hok.ne_new hfind hi)]
      exact (hok.used i hi).2
    · rw [List.mem_singleton.mp hi]
      refine ⟨(findEmptyBlkInSet_some hfind).1, ?_⟩
      rw [append_self]
      exact fun he => by contradiction
  · exact harranged

section list

variable (hok : Ok rbb) (hfind : rbb.findEmptyBlkInSet = some new) (hne : rbb.blkList ≠ [])
include hok hfind

theorem Ok.append_behind (hht : rbb.start (rbb.blkList.head hne) ≤ rbb.start (rbb.blkList.getLast hne))
    (hfits : rbb.stop (rbb.blkList.getLast hne) + size ≤ rbb.buf + rbb.bufSize)
    (hclear : rbb.Clear (rbb.stop (rbb.blkList.getLast hne)) size) :
    Ok (rbb.append new (rbb.stop (rbb.blkList.getLast hne)) size) := by
  have hhead := hok.ne_new hfind (List.head_mem hne)
  have htail := hok.ne_new hfind (List.getLast_mem hne)
  obtain ⟨harranged, hlist⟩ := (hok.arranged_append hfind (rbb.stop (rbb.blkList.getLast hne)) size).behind
    (x := new) (start_le_stop _) hne (by rwa [start_append hhead, start_append htail])
    (by rw [start_append_self, stop_append htail])
  refine hok.append hfind ?_ hfits hclear harranged ?_
  · exact Nat.le_trans (hok.separate.1 _ (hok.used _ (List.getLast_mem hne))).1 (start_le_stop _ _)
  · intro i hi
    have hi' := hlist i hi
    rw [stop_append (hok.ne_new hfind hi), start_append_self] at hi'
    exact .inl hi'

/-- From the start of the buffer on, below the blocks of a list that ascends. -/
theorem Ok.append_below (hht : rbb.start (rbb.blkList.head hne) ≤ rbb.start (rbb.blkList.getLast hne))
    (hfits : rbb.buf + size ≤ rbb.start (rbb.blkList.head hne)) (hpos : 0 < size) (hclear : rbb.Clear rbb.buf size) :
    Ok (rbb.append new rbb.buf size) := by
  have hhead := hok.ne_new hfind (List.head_mem hne)
  have htail := hok.ne_new hfind (List.getLast_mem hne)
  obtain ⟨harranged, hlist⟩ := (hok.arranged_append hfind rbb.buf size).below (x := new) (start_le_stop _) hne
    (by rwa [start_append hhead, start_append htail]) (by rwa [stop_append_self, start_append hhead])
    (by rw [start_append_self, start_append hhead]; omega)
  refine hok.append hfind (Nat.le_refl _) ?_ hclear harranged ?_
  · have hin := (hok.separate.1 _ (hok.used _ (List.head_mem hne))).2
    have hle := start_le_stop rbb (rbb.blkList.head hne)
    exact Nat.le_trans hfits (Nat.le_trans hle hin)
  · intro i hi
    have hi' := hlist i hi
    rw [start_append (hok.ne_new hfind hi), stop_append_self] at hi'
    exact .inr hi'

/-- Between the last block and the first one of a list that has gone on from the start of the buffer. -/
theorem Ok.append_between (hht : rbb.start (rbb.blkList.getLast hne) < rbb.start (rbb.blkList.head hne))
    (hfits : rbb.stop (rbb.blkList.getLast hne) + size ≤ rbb.start (rbb.blkList.head hne))
    (hlt : rbb.stop (rbb.blkList.getLast hne) < rbb.start (rbb.blkList.head hne))
    (hclear : rbb.Clear (rbb.stop (rbb.blkList.getLast hne)) size) :
    Ok (rbb.append new (rbb.stop (rbb.blkList.getLast hne)) size) := by
  have hhead := hok.ne_new hfind (List.head_mem hne)
  have htail := hok.ne_new hfind (List.getLast_mem hne)
  obtain ⟨harranged, hlist⟩ := (hok.arranged_append hfind (rbb.stop (rbb.blkList.getLast hne)) size).between
    (x := new) (start_le_stop _) hne (by rwa [start_append hhead, start_append htail])
    (by rw [start_append_self, stop_append htail]) (by rwa [stop_append_self, start_append hhead])
    (by rwa [start_append_self, start_append hhead])
  refine hok.append hfind ?_ ?_ hclear harranged ?_
  · exact Nat.le_trans (hok.separate.1 _ (hok.used _ (List.getLast_mem hne))).1 (start_le_stop _ _)
  · have hin := (hok.separate.1 _ (hok.used _ (List.head_mem hne))).2
    have hle := start_le_stop rbb (rbb.blkList.head hne)
    exact Nat.le_trans hfits (Nat.le_trans hle hin)
  · intro i hi
    have hi' := hlist i hi
    rwa [stop_append (hok.ne_new hfind hi), start_append_self, start_append (hok.ne_new hfind hi),
      stop_append_self] at hi'

end list

theorem Ok.blkAlloc (hok : Ok rbb) (hP : rbb.findEmptyBlkInSet ≠ none → ProperAlloc rbb size) :
    Ok (rbb.blkAlloc size).1 := by
  unfold RtRbb.blkAlloc
  cases hfind : rbb.findEmptyBlkInSet with
  | none => exact hok
  | some new =>
    have hproper := hP (by rw [hfind]; exact Option.some_ne_none new)
    dsimp only
    by_cases hlen : rbb.blkList.length < rbb.blkMaxNum
    swap
    · rw [if_neg hlen]
      exact hok
    rw [if_pos hlen]
    unfold ProperAlloc at hproper
    have hbound := hok.bound
    by_cases hne : rbb.blkList ≠ []
    swap
    · -- the list is empty
      rw [dif_neg hne] at hproper ⊢
      obtain ⟨hfits, hclear⟩ := hproper
      have hempty : rbb.blkList = [] := by simpa using hne
      apply hok.append hfind (Nat.le_refl _) (Nat.add_le_add_left hfits _) hclear
      · rw [hempty]
        exact Ascending.arranged (List.pairwise_singleton _ new)
      · intro i hi
        rw [hempty] at hi
        contradiction
    rw [dif_pos hne] at hproper ⊢
    dsimp only at hproper ⊢
    obtain ⟨hheadLow, hheadHigh⟩ := hok.separate.1 _ (hok.used _ (List.head_mem hne))
    obtain ⟨htailLow, htailHigh⟩ := hok.separate.1 _ (hok.used _ (List.getLast_mem hne))
    rw [ptrAdd_eq (Nat.lt_of_le_of_lt htailHigh hbound)]
    by_cases hht : (rbb.blkSet (rbb.blkList.head hne)).buf ≤ (rbb.blkSet (rbb.blkList.getLast hne)).buf
    · rw [if_pos hht] at hproper ⊢
      rw [ptrAdd_eq hbound, ptrSub_eq hbound htailHigh, ptrSub_eq (by omega) hheadLow]
      split_ifs with hempty1 hempty2
      · rw [if_pos (by omega)] at hproper
        exact hok.append_behind hfind hne hht (show _ + _ + _ ≤ _ by omega) hproper
      · rw [if_neg (by omega)] at hproper
        exact hok.append_below hfind hne hht (show _ ≤ (rbb.blkSet _).buf by omega) (by omega)
          (hproper (by omega))
      · exact hok
    · rw [if_neg hht] at hproper ⊢
      obtain ⟨hempty, hclear⟩ := hproper
      have hover := hok.arranged.getLast_le (start_le_stop rbb) hne (Nat.lt_of_not_le hht)
      unfold RtRbb.start RtRbb.stop at hover
      rw [ptrSub_eq (by omega) hover]
      split_ifs with hempty1
      · exact hok.append_between hfind hne (Nat.lt_of_not_le hht) (show _ + _ + _ ≤ (rbb.blkSet _).buf by omega)
          (show _ + _ < (rbb.blkSet _).buf by omega) (hclear (by omega))
      · exact hok

/-! ### The runs -/

theorem step_ok {a : RbbAction} (hok : Ok rbb) (hP : Proper rbb a) (hs : rbbStep rbb a = some rbb') : Ok rbb' := by
  cases a with
  | alloc blkSize =>
    obtain ⟨-, hs⟩ := Option.ite_none_right_eq_some.mp hs
    obtain rfl := Option.some.inj hs
    exact hok.blkAlloc hP
  | put block =>
    obtain ⟨-, hs⟩ := Option.ite_none_right_eq_some.mp hs
    exact hok.blkPut hs
  | get =>
    obtain rfl := Option.some.inj hs
    exact hok.blkGet
  | free block =>
    obtain ⟨-, hs⟩ := Option.ite_none_right_eq_some.mp hs
    exact (hok.blkFree hs).1
  | queueGet queueDataLen blkQueue =>
    obtain rfl := Option.some.inj hs
    exact hok.queueGetLoop
  | queueFree blkQueue wild => exact hok.queueFreeLoop hP hs

theorem ok_run (hrun : ringBlocks.Run h rbb) (hP : Throughout (fun _ rbb a => Proper rbb a) h) : Ok rbb := by
  refine hrun.invariant (I := fun _ rbb => Ok rbb) ?_ (fun _ _ _ _ _ hok hP hs => step_ok hok hP hs) hP
  rintro rbb ⟨buf, bufSize, blockSet, blkMaxNum, hbound, rfl⟩
  exact ok_init hbound

/-- A buffer of four bytes, and a set of four blocks. -/
def fourBytes : RtRbb := rtRbbInit 256 4 (fun _ => ⟨.unused, 0, 0⟩) 4

theorem init_fourBytes : ringBlocks.init fourBytes := ⟨256, 4, _, 4, by decide, rfl⟩

/-- The first block is larger than the buffer; a block is allocated where one is that a queue still holds; an empty
block begins where the first block of the list does, which then seems to be the lowest one, and the next block is
allocated over it; the queue of blocks 1 and 0 is freed as blocks 1 and 2, and a block is allocated over block 0. -/
theorem blocks_overlap :
    (∃ h rbb, ringBlocks.Run h rbb ∧ rbb.Used 0 ∧
      rbb.buf + rbb.bufSize < (rbb.blkSet 0).buf + (rbb.blkSet 0).size) ∧
    (∃ h rbb, ringBlocks.Run h rbb ∧ rbb.Used 0 ∧ rbb.Used 1 ∧
      ¬ Disjoint (rbb.blkSet 0).bytes (rbb.blkSet 1).bytes ∧ (rbb.blkSet 0).status = .get) ∧
    (∃ h rbb, ringBlocks.Run h rbb ∧ rbb.Used 1 ∧ rbb.Used 3 ∧
      ¬ Disjoint (rbb.blkSet 1).bytes (rbb.blkSet 3).bytes ∧ rbb.blkList = [1, 0, 2, 3]) ∧
    ∃ h rbb, ringBlocks.Run h rbb ∧ rbb.Used 0 ∧ rbb.Used 1 ∧
      ¬ Disjoint (rbb.blkSet 0).bytes (rbb.blkSet 1).bytes ∧ (rbb.blkSet 2).size = 1 := by
  refine ⟨?_, ?_, ?_, ?_⟩
  · exact System.exists_run init_fourBytes [.alloc 5] _ (by decide +kernel)
  · exact System.exists_run init_fourBytes [.alloc 4, .put 0, .queueGet 4 ⟨0, 0⟩, .alloc 4] _ (by decide +kernel)
  · exact System.exists_run init_fourBytes
      [.alloc 2, .alloc 2, .put 0, .get, .free 0, .alloc 2, .alloc 0, .alloc 1] _ (by decide +kernel)
  · exact System.exists_run init_fourBytes
      [.alloc 1, .alloc 1, .put 0, .get, .free 0, .alloc 1, .alloc 1, .put 1, .put 0, .queueGet 4 ⟨0, 0⟩,
        .queueFree ⟨1, 2⟩ fourBytes, .alloc 4] _ (by decide +kernel)

/-- In a run in which the blocks are allocated properly and queues are freed within the set, the blocks in use always
lie in the buffer and have no byte in common. -/
theorem blocks_disjoint (hrun : ringBlocks.Run h rbb) (hP : Throughout (fun _ rbb a => Proper rbb a) h) :
    rbb.Separate :=
  (ok_run hrun hP).separate

instance (rbb : RtRbb) (place size : Nat) : Decidable (rbb.Clear place size) := by
  unfold RtRbb.Clear
  infer_instance

instance (rbb : RtRbb) (blkSize : Nat) : Decidable (ProperAlloc rbb blkSize) := by
  unfold ProperAlloc
  dsimp only
  infer_instance

instance (rbb : RtRbb) (a : RbbAction) : Decidable (Proper rbb a) := by
  cases a
  all_goals
    unfold Proper
    dsimp only
    infer_instance

/-- Two blocks in the order of the set are taken as a queue and freed, behind an allocation that goes on from the start
of the buffer. -/
theorem blocks_disjoint_run : ∃ h rbb, ringBlocks.Run h rbb ∧ rbb.blkList = [2, 0] ∧ rbb.Separate := by
  obtain ⟨h, rbb, hrun, hP, hlist⟩ := System.exists_run init_fourBytes
    [.alloc 1, .alloc 1, .alloc 2, .put 0, .put 1, .queueGet 2 ⟨0, 0⟩, .queueFree ⟨0, 2⟩ fourBytes, .alloc 2]
    (fun h rbb => Throughout (fun _ rbb a => Proper rbb a) h ∧ rbb.blkList = [2, 0]) (by decide +kernel)
  exact ⟨h, rbb, hrun, hlist, blocks_disjoint hrun hP⟩

end steps

end ThyristorController.RingBlocks
