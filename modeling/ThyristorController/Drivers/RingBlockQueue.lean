import Mathlib.Algebra.Ring.Nat
import Mathlib.Data.List.Infix
import Mathlib.Data.List.TakeWhile
import ThyristorController.Drivers.RingBlock

/-!
# The block queues of the block ring buffer (`components/drivers/src/ringblk_buf.c`)

`rt_rbb_blk_queue_get` follows the list of the blocks, in the order of their allocation, from the first block that is
put; the queue that it returns is a place in the set of the blocks and a number. `queue_is_run` says when the queue
stands for the blocks that have been taken, and when these lie one behind the other.
-/

namespace ThyristorController.RingBlocks

open Transition

namespace RtRbb

/-! ## The functions -/

/-- `rt_rbb_blk_queue_len`. -/
def blkQueueLen (rbb : RtRbb) (blkQueue : RtRbbBlkQueue) : Nat :=
  (List.range' blkQueue.blocks blkQueue.blkNum).foldl
    (fun dataTotalSize i => (dataTotalSize + (rbb.blkSet i).size) % 2 ^ 32) 0

/-- `rt_rbb_blk_queue_buf`. -/
def blkQueueBuf (rbb : RtRbb) (blkQueue : RtRbbBlkQueue) : Nat := (rbb.blkSet blkQueue.blocks).buf

/-! ## The specification -/

def IsPut (rbb : RtRbb) (i : Nat) : Prop := (rbb.blkSet i).status = .put

instance (rbb : RtRbb) (i : Nat) : Decidable (rbb.IsPut i) := inferInstanceAs (Decidable (_ = _))

def size (rbb : RtRbb) (i : Nat) : Nat := (rbb.blkSet i).size

def totalSize (rbb : RtRbb) (l : List Nat) : Nat := (l.map rbb.size).sum

/-- The blocks that a call has taken out of the list, in the order of the list. -/
def taken (rbb rbb' : RtRbb) : List Nat := rbb.blkList.filter fun i => i ∉ rbb'.blkList

/-- `rt_rbb_blk_queue_free` makes exactly the blocks of `run` unused, whatever other memory holds. -/
def Frees (rbb : RtRbb) (blkQueue : RtRbbBlkQueue) (run : List Nat) : Prop :=
  ∀ wild, ∃ rbb', rbb.blkQueueFree blkQueue wild = some rbb' ∧ rbb'.blkList = rbb.blkList ∧
    ∀ i, rbb'.blkSet i = if i ∈ run then { rbb.blkSet i with status := .unused } else rbb.blkSet i

end RtRbb

/-- A call of `rt_rbb_blk_queue_get` and its results, where `order` are the blocks in use in the order of their
allocation. -/
structure QueueOk (rbb : RtRbb) (order : List Nat) (queueDataLen : Nat) (rbb' : RtRbb) (dataTotalSize : Nat)
    (blkQueue : RtRbbBlkQueue) : Prop where
  put : ∀ i ∈ rbb.taken rbb', rbb.IsPut i
  oldest : (rbb.taken rbb').head? = order.find? fun i => rbb.IsPut i
  consecutive : rbb.taken rbb' <:+: order
  contiguous : (rbb.taken rbb').IsChain fun i j => rbb.stop i = rbb.start j
  total : dataTotalSize = rbb.totalSize (rbb.taken rbb')
  le : dataTotalSize ≤ queueDataLen
  get : ∀ i, rbb'.blkSet i = if i ∈ rbb.taken rbb' then { rbb.blkSet i with status := .get } else rbb.blkSet i
  len : rbb'.blkQueueLen blkQueue = dataTotalSize
  buf : ∀ i ∈ (rbb.taken rbb').head?, rbb'.blkQueueBuf blkQueue = rbb.start i
  free : rbb'.Frees blkQueue (rbb.taken rbb')

namespace RtRbb

/-- The blocks behind `last` in the list that are put and lie one behind the other, `queueDataLen` bytes with the
`total` in front of them at most. -/
def group (rbb : RtRbb) (queueDataLen : Nat) : Nat → Nat → List Nat → List Nat
  | _, _, [] => []
  | last, total, i :: rest =>
    if rbb.IsPut i ∧ rbb.stop last = rbb.start i ∧ total + rbb.size i ≤ queueDataLen then
      i :: rbb.group queueDataLen i (total + rbb.size i) rest
    else []

/-- The block behind this group ends the loop of `rt_rbb_blk_queue_get`: it is not put, it lies below the last one, or
the sum of the sizes is too large. -/
def GroupEnds (rbb : RtRbb) (queueDataLen : Nat) : Nat → Nat → List Nat → Prop
  | _, _, [] => True
  | last, total, i :: rest =>
    if rbb.IsPut i ∧ rbb.stop last = rbb.start i ∧ total + rbb.size i ≤ queueDataLen then
      rbb.GroupEnds queueDataLen i (total + rbb.size i) rest
    else ¬ rbb.IsPut i ∨ rbb.start i < rbb.start last ∨ queueDataLen < (total + rbb.size i) % 2 ^ 32

/-- The list from its first block that is put. -/
def fromPut (rbb : RtRbb) : List Nat := rbb.blkList.dropWhile fun i => ¬ rbb.IsPut i

/-- The first block that is put is not larger than the maximum. From it on, the blocks that lie one behind the other
are consecutive in the order of their allocation, nothing but them is in as many places of the set from the first one
on, and the block behind them ends the loop. Where no block is put, `blkQueue` is empty before. -/
def QueueFits (rbb : RtRbb) (order : List Nat) (queueDataLen : Nat) (blkQueue : RtRbbBlkQueue) : Prop :=
  match rbb.fromPut with
  | [] => blkQueue.blkNum = 0
  | first :: rest =>
    let run := first :: rbb.group queueDataLen first (rbb.size first) rest
    rbb.size first ≤ queueDataLen ∧ run <:+: order ∧ (List.range' first run.length).Perm run ∧
      rbb.GroupEnds queueDataLen first (rbb.size first) rest

end RtRbb

/-- The blocks in use, in the order of their allocation. -/
def allocated : History RtRbb RbbAction → List Nat
  | [] => []
  | (s, .alloc blkSize) :: h => allocated h ++ (s.blkAlloc blkSize).2.toList
  | (_, .free block) :: h => (allocated h).erase block
  | (_, .queueFree blkQueue _) :: h => (allocated h).diff (List.range' blkQueue.blocks blkQueue.blkNum)
  | _ :: h => allocated h

instance (rbb : RtRbb) (queueDataLen last total : Nat) (rest : List Nat) :
    Decidable (rbb.GroupEnds queueDataLen last total rest) := by
  induction rest generalizing last total with
  | nil => exact isTrue trivial
  | cons i rest ih =>
    unfold RtRbb.GroupEnds
    infer_instance

instance (rbb : RtRbb) (order : List Nat) (queueDataLen : Nat) (blkQueue : RtRbbBlkQueue) :
    Decidable (rbb.QueueFits order queueDataLen blkQueue) := by
  unfold RtRbb.QueueFits
  split <;> infer_instance

/-- A queue that is freed lies in the set of the blocks. -/
def FreesInSet (rbb : RtRbb) : RbbAction → Prop
  | .queueFree blkQueue _ => blkQueue.blocks + blkQueue.blkNum ≤ rbb.blkMaxNum
  | _ => True

instance (rbb : RtRbb) : (a : RbbAction) → Decidable (FreesInSet rbb a)
  | .queueFree _ _ => inferInstanceAs (Decidable (_ ≤ _))
  | .alloc _ | .put _ | .get | .free _ | .queueGet _ _ => .isTrue trivial

section order

variable {rbb rbb' : RtRbb} {order : List Nat} {i block n : Nat} {wild : RtRbb} {h : History RtRbb RbbAction}

/-! ## The order of allocation -/

/-- The list holds the blocks that are being filled or are put, in the order of their allocation. -/
structure Listed (rbb : RtRbb) (order : List Nat) : Prop where
  nodup : order.Nodup
  sub : rbb.blkList.Sublist order
  used : ∀ i, i ∈ order ↔ rbb.Used i
  listed : ∀ i ∈ order, (rbb.blkSet i).status = .inited ∨ rbb.IsPut i → i ∈ rbb.blkList
  small : ∀ i ∈ order, rbb.size i < 2 ^ 24

/-- The status of a block changes, but not to one of those in the list. -/
theorem Listed.setStatus {status : RtRbbStatus} (hl : Listed rbb order) (hblock : rbb.Used block)
    (hstatus : status ≠ .unused) (hlist : status = .inited ∨ status = .put → block ∈ rbb.blkList) :
    Listed (rbb.setStatus block status) order := by
  constructor
  · exact hl.nodup
  · exact hl.sub
  · intro i
    rw [used_setStatus hstatus hblock.2]
    exact hl.used i
  · intro i hi hlisted
    by_cases he : i = block
    · subst he
      rw [RtRbb.IsPut, setStatus_self] at hlisted
      exact hlist hlisted
    · rw [RtRbb.IsPut, setStatus_of_ne _ _ he] at hlisted
      exact hl.listed i hi hlisted
  · intro i hi
    rw [RtRbb.size, (setStatus_same rbb block i status).2]
    exact hl.small i hi

theorem Listed.take (hl : Listed rbb order) (hblock : block ∈ rbb.blkList) :
    Listed ((rbb.listRemove block).setStatus block .get) order := by
  have hused := (hl.used block).mp (hl.sub.subset hblock)
  constructor
  · exact hl.nodup
  · exact List.erase_sublist.trans hl.sub
  · intro i
    exact (hl.used i).trans (@used_setStatus (rbb.listRemove block) i block .get (by decide) hused.2).symm
  · intro i hi hlisted
    by_cases he : i = block
    · subst he
      rw [RtRbb.IsPut, setStatus_self] at hlisted
      rcases hlisted with he | he <;> contradiction
    · rw [RtRbb.IsPut, setStatus_of_ne _ _ he] at hlisted
      exact (List.mem_erase_of_ne he).mpr (hl.listed i hi hlisted)
  · intro i hi
    rw [RtRbb.size, (setStatus_same _ block i .get).2]
    exact hl.small i hi

theorem Listed.blkFree (hl : Listed rbb order) (hs : rbb.blkFree block = some rbb') :
    Listed rbb' (order.erase block) ∧ rbb'.blkMaxNum = rbb.blkMaxNum := by
  unfold RtRbb.blkFree at hs
  obtain ⟨-, hs⟩ := Option.ite_none_left_eq_some.mp hs
  obtain rfl := Option.some.inj hs
  refine ⟨⟨hl.nodup.erase _, hl.sub.erase _, fun i => ?_, fun i hi hlisted => ?_, fun i hi => ?_⟩, rfl⟩
  · rw [hl.nodup.mem_erase_iff, hl.used i, RtRbb.Used, RtRbb.Used]
    by_cases he : i = block
    · subst he
      rw [setStatus_self]
      simp
    · rw [setStatus_of_ne _ _ he, and_iff_right he]
      exact Iff.rfl
  · obtain ⟨he, hmem⟩ := hl.nodup.mem_erase_iff.mp hi
    rw [RtRbb.IsPut, setStatus_of_ne _ _ he] at hlisted
    exact (List.mem_erase_of_ne he).mpr (hl.listed i hmem hlisted)
  · rw [RtRbb.size, (setStatus_same _ block i .unused).2]
    exact hl.small i (List.mem_of_mem_erase hi)

theorem Listed.queueFreeLoop (hl : Listed rbb order) (hset : block + n ≤ rbb.blkMaxNum)
    (hs : RtRbb.queueFreeLoop wild n block rbb = some rbb') : Listed rbb' (order.diff (List.range' block n)) := by
  induction n generalizing rbb block order with
  | zero =>
    obtain rfl := Option.some.inj hs
    exact hl
  | succ n ih =>
    unfold RtRbb.queueFreeLoop at hs
    rw [if_pos (by omega)] at hs
    obtain ⟨next, hfree, hs⟩ := Option.bind_eq_some_iff.mp hs
    obtain ⟨hl', hmax⟩ := hl.blkFree hfree
    rw [List.range'_succ, List.diff_cons]
    refine ih hl' ?_ hs
    rw [hmax]
    omega

theorem Listed.queueGetLoop {len total : Nat} {last : Option Nat} {queue : RtRbbBlkQueue} {l : List Nat}
    (hl : Listed rbb order) (hnodup : l.Nodup) (hlist : ∀ i ∈ l, i ∈ rbb.blkList) :
    Listed (RtRbb.queueGetLoop len l rbb last total queue).1 order := by
  induction l generalizing rbb last total queue with
  | nil => exact hl
  | cons block rest ih =>
    obtain ⟨hnot, hrest⟩ := List.nodup_cons.mp hnodup
    have htake : Listed ((rbb.listRemove block).setStatus block .get) order := hl.take (hlist block List.mem_cons_self)
    have hleft (i : Nat) (hi : i ∈ rest) : i ∈ ((rbb.listRemove block).setStatus block .get).blkList :=
      (List.mem_erase_of_ne fun he : i = block => hnot (he ▸ hi)).mpr (hlist i (List.mem_cons_of_mem _ hi))
    cases last with
    | none =>
      unfold RtRbb.queueGetLoop
      split_ifs
      · exact ih htake hrest hleft
      · exact ih hl hrest fun i hi => hlist i (List.mem_cons_of_mem _ hi)
    | some last =>
      unfold RtRbb.queueGetLoop
      split_ifs
      · exact hl
      · exact ih htake hrest hleft

theorem blkAlloc_cases (rbb : RtRbb) (blkSize : Nat) :
    rbb.blkAlloc blkSize = (rbb, none) ∨
      ∃ new place, rbb.findEmptyBlkInSet = some new ∧
        rbb.blkAlloc blkSize = (rbb.append new place blkSize, some new) := by
  unfold RtRbb.blkAlloc
  cases hfind : rbb.findEmptyBlkInSet with
  | none => exact .inl rfl
  | some new =>
    dsimp only
    split_ifs
    all_goals first | exact .inl rfl | exact .inr ⟨new, _, rfl, rfl⟩

theorem Listed.blkAlloc {blkSize : Nat} (hl : Listed rbb order) (hsize : blkSize < 2 ^ 24) :
    Listed (rbb.blkAlloc blkSize).1 (order ++ (rbb.blkAlloc blkSize).2.toList) := by
  rcases blkAlloc_cases rbb blkSize with hnone | ⟨new, place, hfind, hnew⟩
  · rw [hnone]
    simpa using hl
  obtain ⟨hlt, hunused⟩ := findEmptyBlkInSet_some hfind
  have hnot : new ∉ order := fun hmem => ((hl.used new).mp hmem).2 hunused
  rw [hnew]
  show Listed (rbb.append new place blkSize) (order ++ [new])
  constructor
  · exact List.nodup_append.mpr ⟨hl.nodup, List.nodup_singleton new, fun i hi j hj he =>
      hnot (List.mem_singleton.mp hj ▸ he ▸ hi)⟩
  · exact hl.sub.append (List.Sublist.refl [new])
  · intro i
    rw [List.mem_append, List.mem_singleton, hl.used i, RtRbb.Used, RtRbb.Used]
    by_cases he : i = new
    · subst he
      rw [append_self]
      simp only [or_true, true_iff]
      exact ⟨hlt, fun he => by contradiction⟩
    · rw [append_of_ne _ _ _ he, or_iff_left he]
      exact Iff.rfl
  · intro i hi hlisted
    by_cases he : i = new
    · subst he
      exact List.mem_append_right _ List.mem_cons_self
    · rw [RtRbb.IsPut, append_of_ne _ _ _ he] at hlisted
      have hmem := (List.mem_append.mp hi).resolve_right fun hn => he (List.mem_singleton.mp hn)
      exact List.mem_append_left _ (hl.listed i hmem hlisted)
  · intro i hi
    by_cases he : i = new
    · subst he
      rw [RtRbb.size, append_self]
      exact hsize
    · rw [RtRbb.size, append_of_ne _ _ _ he]
      exact hl.small i ((List.mem_append.mp hi).resolve_right fun hn => he (List.mem_singleton.mp hn))

theorem step_listed {a : RbbAction} (hl : Listed rbb (allocated h)) (hin : FreesInSet rbb a)
    (hs : rbbStep rbb a = some rbb') : Listed rbb' (allocated ((rbb, a) :: h)) := by
  cases a with
  | alloc blkSize =>
    obtain ⟨hsize, hs⟩ := Option.ite_none_right_eq_some.mp hs
    obtain rfl := Option.some.inj hs
    exact hl.blkAlloc hsize
  | put block =>
    obtain ⟨hlt, hs⟩ := Option.ite_none_right_eq_some.mp hs
    unfold RtRbb.blkPut at hs
    obtain ⟨hinited, hs⟩ := Option.ite_none_right_eq_some.mp hs
    obtain rfl := Option.some.inj hs
    have hused : rbb.Used block := ⟨hlt, by rw [hinited]; decide⟩
    exact hl.setStatus hused (by decide) fun _ => hl.listed block ((hl.used block).mpr hused) (.inl hinited)
  | get =>
    obtain rfl := Option.some.inj hs
    unfold RtRbb.blkGet
    cases hfind : rbb.blkList.find? fun i => (rbb.blkSet i).status = .put with
    | none => exact hl
    | some block =>
      have hmem := List.mem_of_find?_eq_some hfind
      exact hl.setStatus ((hl.used block).mp (hl.sub.subset hmem)) (by decide) fun _ => hmem
  | free block =>
    obtain ⟨-, hs⟩ := Option.ite_none_right_eq_some.mp hs
    exact (hl.blkFree hs).1
  | queueGet queueDataLen blkQueue =>
    obtain rfl := Option.some.inj hs
    exact hl.queueGetLoop (hl.nodup.sublist hl.sub) fun i hi => hi
  | queueFree blkQueue wild => exact hl.queueFreeLoop hin hs

theorem run_listed (hrun : ringBlocks.Run h rbb) (hin : Throughout (fun _ rbb a => FreesInSet rbb a) h) :
    Listed rbb (allocated h) := by
  refine hrun.invariant (I := fun h rbb => Listed rbb (allocated h)) ?_
    (fun _ _ _ _ _ hl hin hs => step_listed hl hin hs) hin
  rintro rbb ⟨buf, bufSize, blockSet, blkMaxNum, -, rfl⟩
  refine ⟨List.nodup_nil, List.Sublist.refl _, fun i => ?_, fun i hi => ?_, fun i hi => ?_⟩
  · refine iff_of_false List.not_mem_nil fun hused => hused.2 ?_
    show (if i < blkMaxNum then _ else _ : RtRbbBlk).status = .unused
    rw [if_pos (show i < blkMaxNum from hused.1)]
  · exact absurd hi List.not_mem_nil
  · exact absurd hi List.not_mem_nil

end order

/-! ## The loops -/

namespace RtRbb

/-- Some blocks leave the list with a new status, one after the other. -/
def removeAll (rbb : RtRbb) (status : RtRbbStatus) (run : List Nat) : RtRbb :=
  run.foldl (fun rbb i => (rbb.listRemove i).setStatus i status) rbb

/-- The blocks that the loop of `rt_rbb_blk_queue_get` takes behind `last`, seen in the set before the call. -/
def loopRun (rbb : RtRbb) (queueDataLen : Nat) : Nat → Nat → List Nat → List Nat
  | _, _, [] => []
  | last, total, i :: rest =>
    if ¬ rbb.IsPut i ∨ rbb.start last > rbb.start i ∨ (total + rbb.size i) % 2 ^ 32 > queueDataLen then []
    else i :: rbb.loopRun queueDataLen i ((total + rbb.size i) % 2 ^ 32) rest

end RtRbb

section loops

variable {rbb rbb' wild : RtRbb} {status : RtRbbStatus} {run rest : List Nat} {i block n len last total : Nat}
  {queue : RtRbbBlkQueue}

theorem removeAll_blkSet (rbb : RtRbb) (status : RtRbbStatus) (run : List Nat) (i : Nat) :
    (rbb.removeAll status run).blkSet i =
      if i ∈ run then { rbb.blkSet i with status := status } else rbb.blkSet i := by
  induction run generalizing rbb with
  | nil => rfl
  | cons block run ih =>
    rw [RtRbb.removeAll, List.foldl_cons, ← RtRbb.removeAll, ih]
    by_cases he : i = block
    · subst he
      rw [if_pos List.mem_cons_self]
      have hself : ((rbb.listRemove i).setStatus i status).blkSet i = { rbb.blkSet i with status := status } :=
        Function.update_self _ _ _
      rw [hself]
      split_ifs <;> rfl
    · have hmem : i ∈ block :: run ↔ i ∈ run := List.mem_cons.trans (or_iff_right he)
      rw [setStatus_of_ne _ _ he]
      simp only [hmem]
      rfl

theorem removeAll_blkList (rbb : RtRbb) (status : RtRbbStatus) (run : List Nat) :
    (rbb.removeAll status run).blkList = rbb.blkList.diff run := by
  induction run generalizing rbb with
  | nil => rfl
  | cons block run ih =>
    rw [RtRbb.removeAll, List.foldl_cons, ← RtRbb.removeAll, ih, List.diff_cons]
    rfl

theorem removeAll_blkMaxNum (rbb : RtRbb) (status : RtRbbStatus) (run : List Nat) :
    (rbb.removeAll status run).blkMaxNum = rbb.blkMaxNum := by
  induction run generalizing rbb with
  | nil => rfl
  | cons block run ih =>
    rw [RtRbb.removeAll, List.foldl_cons, ← RtRbb.removeAll, ih]
    rfl

theorem queueGetLoop_some (hset : ∀ i ∈ rest, rbb'.blkSet i = rbb.blkSet i) (hlast : rbb'.start last = rbb.start last)
    (hnodup : rest.Nodup) (htotal : total < 2 ^ 32) :
    RtRbb.queueGetLoop len rest rbb' (some last) total queue =
      (rbb'.removeAll .get (rbb.loopRun len last total rest),
        (total + rbb.totalSize (rbb.loopRun len last total rest)) % 2 ^ 32,
        ⟨queue.blocks, queue.blkNum + (rbb.loopRun len last total rest).length⟩) := by
  induction rest generalizing rbb' last total queue with
  | nil =>
    rw [RtRbb.queueGetLoop, RtRbb.loopRun, RtRbb.totalSize, List.map_nil, List.sum_nil, Nat.add_zero,
      Nat.mod_eq_of_lt htotal]
    rfl
  | cons i rest ih =>
    obtain ⟨hnot, hrest⟩ := List.nodup_cons.mp hnodup
    have hi := hset i List.mem_cons_self
    have hcond : ((rbb'.blkSet i).status ≠ .put ∨ (rbb'.blkSet last).buf > (rbb'.blkSet i).buf ∨
        (total + (rbb'.blkSet i).size) % 2 ^ 32 > len) ↔
        (¬ rbb.IsPut i ∨ rbb.start last > rbb.start i ∨ (total + rbb.size i) % 2 ^ 32 > len) := by
      rw [hi, ← hlast]
      rfl
    rw [RtRbb.queueGetLoop, RtRbb.loopRun]
    by_cases hc : ¬ rbb.IsPut i ∨ rbb.start last > rbb.start i ∨ (total + rbb.size i) % 2 ^ 32 > len
    · rw [if_pos (hcond.mpr hc), if_pos hc, RtRbb.totalSize, List.map_nil, List.sum_nil, Nat.add_zero,
        Nat.mod_eq_of_lt htotal]
      rfl
    · rw [if_neg (fun hn => hc (hcond.mp hn)), if_neg hc, ih ?_ ?_ hrest (Nat.mod_lt _ (by decide)), hi]
      · refine Prod.ext rfl (Prod.ext ?_ ?_)
        · show ((total + rbb.size i) % 2 ^ 32 + _) % 2 ^ 32 = (total + rbb.totalSize (i :: _)) % 2 ^ 32
          rw [Nat.mod_add_mod, RtRbb.totalSize, RtRbb.totalSize, List.map_cons, List.sum_cons, Nat.add_assoc]
          rfl
        · rw [List.length_cons, Nat.add_assoc, Nat.add_comm 1]
          rfl
      · intro j hj
        rw [setStatus_of_ne _ _ fun he : j = i => hnot (he ▸ hj)]
        exact hset j (List.mem_cons_of_mem _ hj)
      · exact (setStatus_same _ i i .get).1.trans (congrArg RtRbbBlk.buf hi)

theorem queueGetLoop_none (l : List Nat) :
    (l.dropWhile (fun i => ¬ rbb.IsPut i) = [] → RtRbb.queueGetLoop len l rbb none 0 queue = (rbb, 0, queue)) ∧
    ∀ first rest, l.dropWhile (fun i => ¬ rbb.IsPut i) = first :: rest → RtRbb.queueGetLoop len l rbb none 0 queue =
      RtRbb.queueGetLoop len rest ((rbb.listRemove first).setStatus first .get) (some first)
        (rbb.size first % 2 ^ 32) ⟨first, 1⟩ := by
  induction l with
  | nil => exact ⟨fun _ => rfl, fun first rest he => by contradiction⟩
  | cons i l ih =>
    rw [RtRbb.queueGetLoop]
    by_cases hput : rbb.IsPut i
    · rw [if_pos (show (rbb.blkSet i).status = .put from hput), List.dropWhile_cons_of_neg (by simpa using hput)]
      refine ⟨fun he => by contradiction, fun first rest he => ?_⟩
      obtain ⟨rfl, rfl⟩ := List.cons.inj he
      rw [Nat.zero_add]
      rfl
    · rw [if_neg (show ¬ (rbb.blkSet i).status = .put from hput), List.dropWhile_cons_of_pos (by simpa using hput)]
      exact ih

/-- What `rt_rbb_blk_queue_get` does, where there is a block that is put. -/
theorem blkQueueGet_eq {first : Nat} (hnodup : rbb.blkList.Nodup) (hfrom : rbb.fromPut = first :: rest)
    (hsize : rbb.size first < 2 ^ 32) : rbb.blkQueueGet len queue =
      (rbb.removeAll .get (first :: rbb.loopRun len first (rbb.size first) rest),
        rbb.totalSize (first :: rbb.loopRun len first (rbb.size first) rest) % 2 ^ 32,
        ⟨first, (first :: rbb.loopRun len first (rbb.size first) rest).length⟩) := by
  have hsub : (first :: rest).Sublist rbb.blkList := hfrom ▸ List.dropWhile_sublist _
  obtain ⟨hnot, hrest⟩ := List.nodup_cons.mp (hnodup.sublist hsub)
  rw [RtRbb.blkQueueGet, (queueGetLoop_none rbb.blkList).2 first rest hfrom, Nat.mod_eq_of_lt hsize,
    @queueGetLoop_some rbb]
  · refine Prod.ext rfl (Prod.ext ?_ ?_)
    · rfl
    · rw [List.length_cons, Nat.add_comm 1]
  · intro i hi
    exact setStatus_of_ne _ _ fun he : i = first => hnot (he ▸ hi)
  · exact (setStatus_same _ first first .get).1
  · exact hrest
  · exact hsize

/-! ## Freeing a queue -/

theorem queueFreeLoop_eq (hused : ∀ i ∈ List.range' block n, rbb.Used i) :
    RtRbb.queueFreeLoop wild n block rbb = some (rbb.removeAll .unused (List.range' block n)) := by
  induction n generalizing rbb block with
  | zero => rfl
  | succ n ih =>
    obtain ⟨hlt, hne⟩ := hused block (by simp [List.range'_succ])
    rw [RtRbb.queueFreeLoop, if_pos hlt, RtRbb.blkFree, if_neg hne, Option.bind_some, ih]
    · rw [List.range'_succ]
      rfl
    · intro i hi
      have hi' := List.mem_range'_1.mp hi
      obtain ⟨hlt', hne'⟩ := hused i (List.mem_range'_1.mpr (by omega))
      refine ⟨hlt', ?_⟩
      rw [setStatus_of_ne _ _ (show i ≠ block by omega)]
      exact hne'

theorem queueFreeLoop_used (hs : RtRbb.queueFreeLoop wild n block rbb = some rbb') :
    rbb' = wild ∨ ∀ i ∈ List.range' block n, rbb.Used i := by
  induction n generalizing rbb block with
  | zero => exact .inr fun i hi => by simp at hi
  | succ n ih =>
    unfold RtRbb.queueFreeLoop at hs
    by_cases hlt : block < rbb.blkMaxNum
    · rw [if_pos hlt] at hs
      obtain ⟨next, hfree, hs⟩ := Option.bind_eq_some_iff.mp hs
      unfold RtRbb.blkFree at hfree
      obtain ⟨hne, hfree⟩ := Option.ite_none_left_eq_some.mp hfree
      obtain rfl := Option.some.inj hfree
      refine (ih hs).imp_right fun hused i hi => ?_
      rw [List.range'_succ, List.mem_cons] at hi
      rcases hi with rfl | hi
      · exact ⟨hlt, hne⟩
      · have hi' := List.mem_range'_1.mp hi
        obtain ⟨hlt', hne'⟩ := hused i hi
        rw [setStatus_of_ne _ _ (show i ≠ block by omega)] at hne'
        exact ⟨hlt', hne'⟩
    · rw [if_neg hlt] at hs
      exact .inl (Option.some.inj hs).symm

theorem diff_eq_self {l : List Nat} (hout : ∀ i ∈ run, i ∉ l) : l.diff run = l := by
  induction run with
  | nil => rfl
  | cons i run ih =>
    rw [List.diff_cons, List.erase_of_not_mem (hout i List.mem_cons_self)]
    exact ih fun j hj => hout j (List.mem_cons_of_mem _ hj)

/-- A queue is freed as a run of blocks in use if and only if these are the blocks in its places of the set. -/
theorem frees_iff (hused : ∀ i ∈ run, rbb.Used i) (hout : ∀ i ∈ run, i ∉ rbb.blkList)
    (hlen : run.length ≤ queue.blkNum) :
    rbb.Frees queue run ↔ (List.range' queue.blocks queue.blkNum).Perm run := by
  constructor
  · intro hfrees
    -- if other memory were accessed, it might as well change the list
    obtain ⟨rbb', hfree, hlist, hset⟩ := hfrees { rbb with blkList := 0 :: rbb.blkList }
    have hin : ∀ i ∈ List.range' queue.blocks queue.blkNum, rbb.Used i := by
      refine (queueFreeLoop_used hfree).resolve_left fun hwild => ?_
      rw [hwild] at hlist
      exact List.cons_ne_self _ _ hlist
    obtain rfl := Option.some.inj ((queueFreeLoop_eq hin).symm.trans hfree)
    have hsub : List.range' queue.blocks queue.blkNum ⊆ run := by
      intro i hi
      by_contra hnot
      have hi' := hset i
      rw [removeAll_blkSet, if_pos hi, if_neg hnot] at hi'
      exact (hin i hi).2 (congrArg RtRbbBlk.status hi').symm
    have hrange : (List.range' queue.blocks queue.blkNum).Nodup := List.nodup_range'
    exact (List.subperm_of_subset hrange hsub).perm_of_length_le (by rwa [List.length_range'])
  · intro hperm wild
    refine ⟨_, queueFreeLoop_eq fun i hi => hused i (hperm.mem_iff.mp hi), ?_, fun i => ?_⟩
    · rw [removeAll_blkList]
      exact diff_eq_self fun i hi => hout i (hperm.mem_iff.mp hi)
    · rw [removeAll_blkSet]
      simp only [hperm.mem_iff]

theorem blkQueueLen_eq (hperm : (List.range' queue.blocks queue.blkNum).Perm run) :
    rbb.blkQueueLen queue = rbb.totalSize run % 2 ^ 32 := by
  have hfold (t : Nat) (l : List Nat) (ht : t < 2 ^ 32) :
      l.foldl (fun dataTotalSize i => (dataTotalSize + (rbb.blkSet i).size) % 2 ^ 32) t =
        (t + rbb.totalSize l) % 2 ^ 32 := by
    induction l generalizing t with
    | nil => exact (Nat.mod_eq_of_lt ht).symm
    | cons i l ih =>
      rw [List.foldl_cons, ih _ (Nat.mod_lt _ (by decide)), Nat.mod_add_mod, RtRbb.totalSize, RtRbb.totalSize,
        List.map_cons, List.sum_cons, Nat.add_assoc]
      rfl
  rw [RtRbb.blkQueueLen, hfold 0 _ (by decide), Nat.zero_add, RtRbb.totalSize, RtRbb.totalSize,
    (hperm.map rbb.size).sum_eq]

/-! ## The blocks that lie one behind the other -/

theorem loopRun_put (hi : i ∈ rbb.loopRun len last total rest) : rbb.IsPut i := by
  induction rest generalizing last total with
  | nil => contradiction
  | cons j rest ih =>
    rw [RtRbb.loopRun] at hi
    split_ifs at hi with hc
    · contradiction
    · rcases List.mem_cons.mp hi with rfl | hi
      · by_contra hput
        exact hc (.inl hput)
      · exact ih hi

theorem loopRun_isPrefix : rbb.loopRun len last total rest <+: rest := by
  induction rest generalizing last total with
  | nil => exact List.prefix_refl _
  | cons j rest ih =>
    rw [RtRbb.loopRun]
    split_ifs
    · exact List.nil_prefix
    · exact List.prefix_cons_inj j |>.mpr ih

theorem group_spec (htotal : total ≤ len) : (last :: rbb.group len last total rest).IsChain
    (fun i j => rbb.stop i = rbb.start j) ∧ total + rbb.totalSize (rbb.group len last total rest) ≤ len := by
  induction rest generalizing last total with
  | nil => exact ⟨List.isChain_singleton _, htotal⟩
  | cons i rest ih =>
    rw [RtRbb.group]
    split_ifs with hc
    · obtain ⟨-, hstop, hle⟩ := hc
      obtain ⟨hchain, hsum⟩ := @ih i _ hle
      refine ⟨List.isChain_cons_cons.mpr ⟨hstop, hchain⟩, ?_⟩
      rw [RtRbb.totalSize, List.map_cons, List.sum_cons, ← Nat.add_assoc]
      exact hsum
    · exact ⟨List.isChain_singleton _, htotal⟩

theorem not_ends (hlen : len < 2 ^ 32) (hc : rbb.IsPut i ∧ rbb.stop last = rbb.start i ∧ total + rbb.size i ≤ len) :
    ¬ (¬ rbb.IsPut i ∨ rbb.start last > rbb.start i ∨ (total + rbb.size i) % 2 ^ 32 > len) := by
  obtain ⟨hput, hstop, hle⟩ := hc
  have hstart : rbb.start last ≤ rbb.start i := hstop ▸ start_le_stop rbb last
  rw [Nat.mod_eq_of_lt (by omega)]
  rintro (hn | hlt | hgt)
  · exact hn hput
  · omega
  · omega

theorem loopRun_eq_group (hlen : len < 2 ^ 32) (hends : rbb.GroupEnds len last total rest) :
    rbb.loopRun len last total rest = rbb.group len last total rest := by
  induction rest generalizing last total with
  | nil => rfl
  | cons i rest ih =>
    rw [RtRbb.loopRun, RtRbb.group]
    rw [RtRbb.GroupEnds] at hends
    by_cases hc : rbb.IsPut i ∧ rbb.stop last = rbb.start i ∧ total + rbb.size i ≤ len
    · have hle := hc.2.2
      rw [if_pos hc] at hends
      rw [if_neg (not_ends hlen hc), if_pos hc, Nat.mod_eq_of_lt (by omega), ih hends]
    · rw [if_neg hc] at hends ⊢
      exact if_pos hends

/-- If what the loop takes lies one behind the other and is not too large, it has taken this group. -/
theorem groupEnds_of_loopRun (hlen : len < 2 ^ 32)
    (hchain : (last :: rbb.loopRun len last total rest).IsChain fun i j => rbb.stop i = rbb.start j)
    (hsum : total + rbb.totalSize (rbb.loopRun len last total rest) ≤ len) : rbb.GroupEnds len last total rest := by
  induction rest generalizing last total with
  | nil => trivial
  | cons i rest ih =>
    rw [RtRbb.GroupEnds]
    rw [RtRbb.loopRun] at hchain hsum
    by_cases hc : rbb.IsPut i ∧ rbb.stop last = rbb.start i ∧ total + rbb.size i ≤ len
    · have hle := hc.2.2
      rw [if_neg (not_ends hlen hc), Nat.mod_eq_of_lt (by omega)] at hchain hsum
      rw [RtRbb.totalSize, List.map_cons, List.sum_cons, ← Nat.add_assoc] at hsum
      rw [if_pos hc]
      exact ih (List.isChain_cons_cons.mp hchain).2 hsum
    · rw [if_neg hc]
      by_contra hno
      rw [if_neg hno] at hchain hsum
      rw [RtRbb.totalSize, List.map_cons, List.sum_cons] at hsum
      refine hc ⟨?_, (List.isChain_cons_cons.mp hchain).1, by omega⟩
      by_contra hput
      exact hno (.inl hput)

end loops

/-! ## The queue -/

section queue

variable {rbb : RtRbb} {order run rest : List Nat} {first len i : Nat} {queue : RtRbbBlkQueue}
  {h : History RtRbb RbbAction}

theorem filter_mem_sublist {l : List Nat} (hnodup : l.Nodup) (hsub : run.Sublist l) :
    l.filter (fun i => i ∈ run) = run := by
  induction hsub with
  | slnil => rfl
  | cons a hsub ih =>
    obtain ⟨hnot, htail⟩ := List.nodup_cons.mp hnodup
    rw [List.filter_cons_of_neg (by simpa using fun hmem => hnot (hsub.subset hmem))]
    exact ih htail
  | cons_cons a hsub ih =>
    obtain ⟨hnot, htail⟩ := List.nodup_cons.mp hnodup
    rw [List.filter_cons_of_pos (by simp)]
    refine congrArg (a :: ·) (Eq.trans (List.filter_congr fun i hi => ?_) (ih htail))
    have hne : i ≠ a := fun he => hnot (he ▸ hi)
    simp [hne]

/-- The first block of the list that is put is the oldest one of all. -/
theorem Listed.find_put (hl : Listed rbb order) : order.find? (fun i => rbb.IsPut i) = rbb.fromPut.head? := by
  have hlist := filter_mem_sublist hl.nodup hl.sub
  have hsame : rbb.blkList.filter (fun i => rbb.IsPut i) = order.filter fun i => rbb.IsPut i := by
    rw [← hlist, List.filter_filter]
    refine List.filter_congr fun i hi => ?_
    by_cases hput : rbb.IsPut i
    · simp [hput, hl.listed i hi (.inr hput)]
    · simp [hput]
  rw [← List.head?_filter, ← hsame, List.head?_filter, List.find?_eq_head?_dropWhile_not, RtRbb.fromPut]
  simp

theorem taken_removeAll (hnodup : rbb.blkList.Nodup) (hsub : run.Sublist rbb.blkList) :
    rbb.taken (rbb.removeAll .get run) = run := by
  rw [RtRbb.taken, removeAll_blkList]
  refine Eq.trans (List.filter_congr fun i hi => ?_) (filter_mem_sublist hnodup hsub)
  simp [hnodup.mem_sdiff_iff, hi]

theorem queue_none (hl : Listed rbb order) (hfrom : rbb.fromPut = []) :
    QueueOk rbb order len (rbb.blkQueueGet len queue).1 (rbb.blkQueueGet len queue).2.1
      (rbb.blkQueueGet len queue).2.2 ↔ queue.blkNum = 0 := by
  have hget : rbb.blkQueueGet len queue = (rbb, 0, queue) := (queueGetLoop_none rbb.blkList).1 hfrom
  have htaken : rbb.taken rbb = [] := by simp [RtRbb.taken]
  have hfind : order.find? (fun i => rbb.IsPut i) = none := by rw [hl.find_put, hfrom, List.head?_nil]
  have hfrees : rbb.Frees queue [] ↔ queue.blkNum = 0 := by
    rw [frees_iff (by simp) (by simp) (Nat.zero_le _), List.perm_nil, List.range'_eq_nil_iff]
  rw [hget]
  constructor
  · intro hok
    have hfree := hok.free
    rw [htaken] at hfree
    exact hfrees.mp hfree
  · intro hnum
    refine ⟨?_, ?_, ?_, ?_, ?_, Nat.zero_le _, ?_, ?_, ?_, ?_⟩ <;> try rw [htaken]
    · simp
    · exact hfind.symm
    · exact List.nil_infix
    · exact List.isChain_nil
    · rfl
    · simp
    · simp [RtRbb.blkQueueLen, hnum]
    · simp
    · exact hfrees.mpr hnum

theorem queueOk_iff (hl : Listed rbb order) (hlen : len < 2 ^ 32) (hsub : (first :: run).Sublist rbb.blkList)
    (hput : ∀ i ∈ first :: run, rbb.IsPut i) (hfirst : order.find? (fun i => rbb.IsPut i) = some first) :
    QueueOk rbb order len (rbb.removeAll .get (first :: run)) (rbb.totalSize (first :: run) % 2 ^ 32)
      ⟨first, (first :: run).length⟩ ↔
    (first :: run) <:+: order ∧ (first :: run).IsChain (fun i j => rbb.stop i = rbb.start j) ∧
      rbb.totalSize (first :: run) ≤ len ∧ (List.range' first (first :: run).length).Perm (first :: run) := by
  have hnodup := hl.nodup.sublist hl.sub
  have htaken := taken_removeAll hnodup hsub
  have hused : ∀ i ∈ first :: run, (rbb.removeAll .get (first :: run)).Used i := by
    intro i hi
    rw [RtRbb.Used, removeAll_blkMaxNum, removeAll_blkSet, if_pos hi]
    exact ⟨((hl.used i).mp (hl.sub.subset (hsub.subset hi))).1, fun he => by contradiction⟩
  have hout : ∀ i ∈ first :: run, i ∉ (rbb.removeAll .get (first :: run)).blkList := by
    intro i hi
    rw [removeAll_blkList, hnodup.mem_sdiff_iff]
    exact fun hmem => hmem.2 hi
  have hfrees := @frees_iff (rbb.removeAll .get (first :: run)) (first :: run) ⟨first, (first :: run).length⟩ hused hout
    (Nat.le_refl _)
  have hsize : ∀ l, (rbb.removeAll .get (first :: run)).totalSize l = rbb.totalSize l := by
    intro l
    refine congrArg List.sum (List.map_congr_left fun i _ => ?_)
    rw [RtRbb.size, removeAll_blkSet, RtRbb.size]
    split_ifs <;> rfl
  have hhead : (first :: run).head? = some first := rfl
  generalize first :: run = l at *
  constructor
  · intro hok
    have htotal := hok.total
    have hle := hok.le
    have hcons := hok.consecutive
    have hchain := hok.contiguous
    have hfree := hok.free
    rw [htaken] at htotal hcons hchain hfree
    exact ⟨hcons, hchain, htotal ▸ hle, hfrees.mp hfree⟩
  · rintro ⟨hcons, hchain, hle, hperm⟩
    have hmod : rbb.totalSize l % 2 ^ 32 = rbb.totalSize l := Nat.mod_eq_of_lt (by omega)
    constructor
    · rwa [htaken]
    · rw [htaken, hhead, hfirst]
    · rwa [htaken]
    · rwa [htaken]
    · rw [htaken, hmod]
    · rwa [hmod]
    · rw [htaken]
      exact removeAll_blkSet rbb .get l
    · rw [blkQueueLen_eq hperm, hsize]
    · intro i hi
      rw [htaken, hhead] at hi
      obtain rfl := Option.some.inj hi
      have hmem : first ∈ l := List.mem_of_mem_head? hhead
      rw [RtRbb.blkQueueBuf, removeAll_blkSet, if_pos hmem]
      rfl
    · rw [htaken]
      exact hfrees.mpr hperm

theorem queue_some (hl : Listed rbb order) (hlen : len < 2 ^ 32) (hfrom : rbb.fromPut = first :: rest) :
    QueueOk rbb order len (rbb.blkQueueGet len queue).1 (rbb.blkQueueGet len queue).2.1
      (rbb.blkQueueGet len queue).2.2 ↔
    rbb.size first ≤ len ∧ (first :: rbb.group len first (rbb.size first) rest) <:+: order ∧
      (List.range' first (first :: rbb.group len first (rbb.size first) rest).length).Perm
        (first :: rbb.group len first (rbb.size first) rest) ∧
      rbb.GroupEnds len first (rbb.size first) rest := by
  have hnodup := hl.nodup.sublist hl.sub
  have hlist : (first :: rest).Sublist rbb.blkList := hfrom ▸ List.dropWhile_sublist _
  have hfirst : order.find? (fun i => rbb.IsPut i) = some first := by rw [hl.find_put, hfrom, List.head?_cons]
  have hsmall := hl.small first (hl.sub.subset (hlist.subset List.mem_cons_self))
  have hsub : (first :: rbb.loopRun len first (rbb.size first) rest).Sublist rbb.blkList :=
    ((loopRun_isPrefix.sublist).cons_cons first).trans hlist
  have hput : ∀ i ∈ first :: rbb.loopRun len first (rbb.size first) rest, rbb.IsPut i := by
    intro i hi
    rcases List.mem_cons.mp hi with rfl | hi
    · simpa using List.find?_some hfirst
    · exact loopRun_put hi
  rw [blkQueueGet_eq hnodup hfrom (by omega), queueOk_iff hl hlen hsub hput hfirst]
  constructor
  · rintro ⟨hcons, hchain, hsum, hperm⟩
    rw [RtRbb.totalSize, List.map_cons, List.sum_cons] at hsum
    have hends := groupEnds_of_loopRun hlen hchain hsum
    rw [loopRun_eq_group hlen hends] at hcons hperm
    exact ⟨by omega, hcons, hperm, hends⟩
  · rintro ⟨hsize, hcons, hperm, hends⟩
    obtain ⟨hchain, hsum⟩ := @group_spec rbb rest len first (rbb.size first) hsize
    rw [loopRun_eq_group hlen hends, RtRbb.totalSize, List.map_cons, List.sum_cons]
    exact ⟨hcons, hchain, hsum, hperm⟩

/-- In every run in which queues are freed within the set, `rt_rbb_blk_queue_get` takes a run of blocks for which the
queue stands if and only if the queue fits. -/
theorem queue_is_run (hrun : ringBlocks.Run h rbb) (hin : Throughout (fun _ rbb a => FreesInSet rbb a) h)
    (hlen : len < 2 ^ 32) :
    QueueOk rbb (allocated h) len (rbb.blkQueueGet len queue).1 (rbb.blkQueueGet len queue).2.1
      (rbb.blkQueueGet len queue).2.2 ↔ rbb.QueueFits (allocated h) len queue := by
  have hl := run_listed hrun hin
  unfold RtRbb.QueueFits
  cases hfrom : rbb.fromPut with
  | nil => exact queue_none hl hfrom
  | cons first rest => exact queue_some hl hlen hfrom

/-- The queue of blocks 0, 2 and 1, in this order of their allocation, is in the places 0, 1 and 2 of the set. -/
theorem queue_is_run_wrapped : ∃ h rbb, ringBlocks.Run h rbb ∧ (rbb.blkQueueGet 4 ⟨0, 0⟩).2 = (3, ⟨0, 3⟩) ∧
    QueueOk rbb (allocated h) 4 (rbb.blkQueueGet 4 ⟨0, 0⟩).1 (rbb.blkQueueGet 4 ⟨0, 0⟩).2.1
      (rbb.blkQueueGet 4 ⟨0, 0⟩).2.2 := by
  obtain ⟨h, rbb, hrun, hin, hqueue, hfits⟩ := System.exists_run
    (show ringBlocks.init (rtRbbInit 256 8 (fun _ => ⟨.unused, 0, 0⟩) 4) from ⟨256, 8, _, 4, by decide, rfl⟩)
    [.alloc 1, .alloc 1, .free 0, .alloc 1, .alloc 1, .free 1, .alloc 1, .put 0, .put 2, .put 1]
    (fun h rbb => Throughout (fun _ rbb a => FreesInSet rbb a) h ∧ (rbb.blkQueueGet 4 ⟨0, 0⟩).2 = (3, ⟨0, 3⟩) ∧
      rbb.QueueFits (allocated h) 4 ⟨0, 0⟩) (by decide +kernel)
  exact ⟨h, rbb, hrun, hqueue, (queue_is_run hrun hin (by decide)).mpr hfits⟩

/-- The first block is larger than the maximum; there is a gap between two blocks of the queue; a queue of blocks 1 and
0 is freed as blocks 1 and 2; and where no block is put, the queue stands for the blocks of an earlier one. -/
theorem queue_is_no_run :
    (∃ h rbb, ringBlocks.Run h rbb ∧ (rbb.blkQueueGet 4 ⟨0, 0⟩).2.1 = 8 ∧
      ¬ QueueOk rbb (allocated h) 4 (rbb.blkQueueGet 4 ⟨0, 0⟩).1 (rbb.blkQueueGet 4 ⟨0, 0⟩).2.1
        (rbb.blkQueueGet 4 ⟨0, 0⟩).2.2) ∧
    (∃ h rbb, ringBlocks.Run h rbb ∧ rbb.taken (rbb.blkQueueGet 8 ⟨0, 0⟩).1 = [0, 2] ∧ rbb.stop 0 ≠ rbb.start 2) ∧
    (∃ h rbb, ringBlocks.Run h rbb ∧ rbb.taken (rbb.blkQueueGet 8 ⟨0, 0⟩).1 = [1, 0] ∧
      (rbb.blkQueueGet 8 ⟨0, 0⟩).1.blkQueueFree ⟨1, 2⟩ rbb = none) ∧
    ∃ h rbb, ringBlocks.Run h rbb ∧ rbb.taken (rbb.blkQueueGet 8 ⟨0, 1⟩).1 = [] ∧
      (rbb.blkQueueGet 8 ⟨0, 1⟩).2 = (0, ⟨0, 1⟩) := by
  have hinit : ringBlocks.init (rtRbbInit 256 8 (fun _ => ⟨.unused, 0, 0⟩) 4) := ⟨256, 8, _, 4, by decide, rfl⟩
  refine ⟨?_, ?_, ?_, ?_⟩
  · obtain ⟨h, rbb, hrun, htotal⟩ := System.exists_run hinit [.alloc 8, .put 0]
      (fun _ rbb => (rbb.blkQueueGet 4 ⟨0, 0⟩).2.1 = 8) (by decide +kernel)
    exact ⟨h, rbb, hrun, htotal, fun hok => absurd hok.le (by rw [htotal]; decide)⟩
  · exact System.exists_run hinit [.alloc 2, .alloc 2, .alloc 2, .put 0, .put 2, .free 1] _ (by decide +kernel)
  · exact System.exists_run hinit [.alloc 2, .alloc 2, .free 0, .alloc 2, .put 1, .put 0] _ (by decide +kernel)
  · exact System.exists_run hinit [.alloc 2, .put 0, .queueGet 8 ⟨0, 0⟩] _ (by decide +kernel)

end queue

end ThyristorController.RingBlocks
