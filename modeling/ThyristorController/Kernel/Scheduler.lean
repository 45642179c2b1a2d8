import ThyristorController.Lib.Run
import Mathlib.Data.List.InsertIdx
import Mathlib.Data.List.Nodup
import Mathlib.Logic.Function.Basic

/-!
# The scheduler's ready table (`src/scheduler.c`, `src/thread.c`)

The operations on threads as atomic steps over the ready table: 32 lists and a bitmap of the lists that
are not empty. A thread has one list node, which links it into a ready list, into the suspend list of a
kernel object, or into `rt_thread_defunct`; `rt_list_remove` takes it out of whichever list that is.
Thread timers are not modelled: `rt_thread_timeout` may come for any suspended thread at any time.

The invariant of the table is in the module `ReadyTable`.
-/

namespace ThyristorController

open Transition

/-! ## The state -/

/-- `RT_THREAD_PRIORITY_MAX`. -/
abbrev Priority := Fin 32

/-- The states of a thread; the running thread is `ready`. -/
inductive ThreadStat where
  | init | ready | suspend | close
deriving DecidableEq

/-- `RT_EOK` and `-RT_ETIMEOUT`. -/
def rtEok : Int := 0
def rtEtimeout : Int := -2

/-- The fields of `struct rt_thread` that the scheduler uses; `isSystem` is whether the thread is a static
object. -/
structure Tcb where
  stat : ThreadStat
  initPriority : Priority
  currentPriority : Priority
  numberMask : BitVec 32
  initTick : BitVec 32
  remainingTick : BitVec 32
  error : Int
  isSystem : Bool

/-- The scheduler's variables, the suspend lists of the kernel objects `ι`, and `rt_thread_defunct`. -/
structure Kernel (τ ι : Type) where
  tcb : τ → Tcb
  table : Priority → List τ
  group : BitVec 32
  current : Option τ
  currentPriority : Priority
  lockNest : Nat
  waiting : ι → List τ
  defunct : List τ

variable {τ ι : Type} [DecidableEq τ]

/-- `1 << priority`. -/
def prioMask (p : Priority) : BitVec 32 := 1#32 <<< p.val

/-- `__rt_ffs`: the number of the lowest bit that is set, counted from one, or zero. -/
def rtFfs (value : BitVec 32) : Nat :=
  match (List.finRange 32).find? fun p => value.getLsbD p.val with
  | some p => p.val + 1
  | none => 0

/-! ## Lists -/

namespace Kernel

/-- Replace the fields of one thread. -/
def setTcb (k : Kernel τ ι) (t : τ) (tcb : Tcb) : Kernel τ ι := { k with tcb := Function.update k.tcb t tcb }

@[simp] theorem setTcb_self (k : Kernel τ ι) (t : τ) (tcb : Tcb) : (k.setTcb t tcb).tcb t = tcb :=
  Function.update_self _ _ _

theorem setTcb_other (k : Kernel τ ι) {t u : τ} (tcb : Tcb) (hu : u ≠ t) : (k.setTcb t tcb).tcb u = k.tcb u :=
  Function.update_of_ne hu _ _

/-- `rt_list_remove(&thread->tlist)`. -/
def unlink (k : Kernel τ ι) (t : τ) : Kernel τ ι :=
  { k with
    table := fun p => (k.table p).erase t
    waiting := fun q => (k.waiting q).erase t
    defunct := k.defunct.erase t }

/-- The thread's node is in no list. -/
def Unlinked (k : Kernel τ ι) (t : τ) : Prop :=
  (∀ p, t ∉ k.table p) ∧ (∀ q, t ∉ k.waiting q) ∧ t ∉ k.defunct

end Kernel

/-! ## `scheduler.c` -/

/-- `rt_schedule_insert_thread`. -/
def rtScheduleInsertThread (k : Kernel τ ι) (t : τ) : Kernel τ ι :=
  let prio := (k.tcb t).currentPriority
  { k.setTcb t { k.tcb t with stat := .ready } with
    table := Function.update k.table prio (k.table prio ++ [t])
    group := k.group ||| (k.tcb t).numberMask }

@[simp] theorem rtScheduleInsertThread_self (k : Kernel τ ι) (t : τ) :
    (rtScheduleInsertThread k t).tcb t = { k.tcb t with stat := .ready } := Function.update_self _ _ _

/-- `rt_schedule_remove_thread`. -/
def rtScheduleRemoveThread (k : Kernel τ ι) (t : τ) : Kernel τ ι :=
  let k := k.unlink t
  if k.table (k.tcb t).currentPriority = [] then { k with group := k.group &&& ~~~(k.tcb t).numberMask } else k

/-- The thread at the head of the list that the bitmap gives; `none` is a read outside the table, or of an
empty list. -/
def highestReady (k : Kernel τ ι) : Option (Priority × τ) :=
  if h : 0 < rtFfs k.group ∧ rtFfs k.group ≤ 32 then
    let p : Priority := ⟨rtFfs k.group - 1, by omega⟩
    (k.table p).head?.map fun t => (p, t)
  else none

/-- `rt_schedule`. -/
def rtSchedule (k : Kernel τ ι) : Option (Kernel τ ι) :=
  if k.lockNest = 0 then
    (highestReady k).map fun (p, toThread) =>
      if some toThread ≠ k.current then { k with currentPriority := p, current := some toThread } else k
  else some k

/-- `rt_system_scheduler_start`. -/
def rtSystemSchedulerStart (k : Kernel τ ι) : Option (Kernel τ ι) :=
  (highestReady k).map fun (_, toThread) => { k with current := some toThread }

/-! ## `thread.c` -/

/-- `rt_thread_resume`. -/
def rtThreadResume (k : Kernel τ ι) (t : τ) : Kernel τ ι :=
  if (k.tcb t).stat ≠ .suspend then k else rtScheduleInsertThread (k.unlink t) t

/-- `rt_thread_startup`, which asserts that the thread is initialised. -/
def rtThreadStartup (k : Kernel τ ι) (t : τ) : Option (Kernel τ ι) :=
  if (k.tcb t).stat = .init then
    let prio := (k.tcb t).initPriority
    let k := k.setTcb t
      { k.tcb t with currentPriority := prio, numberMask := prioMask prio, stat := .suspend }
    let k := rtThreadResume k t
    if k.current ≠ none then rtSchedule k else some k
  else none

/-- `rt_thread_suspend`. -/
def rtThreadSuspend (k : Kernel τ ι) (t : τ) : Kernel τ ι :=
  if (k.tcb t).stat ≠ .ready then k
  else
    let k := rtScheduleRemoveThread k t
    k.setTcb t { k.tcb t with stat := .suspend }

/-- `rt_thread_timeout`, which asserts that the thread is suspended. -/
def rtThreadTimeout (k : Kernel τ ι) (t : τ) : Option (Kernel τ ι) :=
  if (k.tcb t).stat = .suspend then
    let k := k.setTcb t { k.tcb t with error := rtEtimeout }
    rtSchedule (rtScheduleInsertThread (k.unlink t) t)
  else none

/-- The critical section of `rt_thread_yield`: whether the current thread is ready and not alone in its
list, and the table after it. -/
def yieldMove (k : Kernel τ ι) (t : τ) : Option (Kernel τ ι) :=
  let prio := (k.tcb t).currentPriority
  if (k.tcb t).stat = .ready ∧ t ∈ k.table prio ∧ 2 ≤ (k.table prio).length then
    some { k with table := Function.update k.table prio ((k.table prio).erase t ++ [t]) }
  else none

/-- `rt_thread_yield`. -/
def rtThreadYield (k : Kernel τ ι) : Option (Kernel τ ι) :=
  match k.current with
  | none => none
  | some t =>
    match yieldMove k t with
    | some k => rtSchedule k
    | none => some k

/-- `rt_thread_control` with `RT_THREAD_CTRL_CHANGE_PRIORITY`. -/
def rtThreadChangePriority (k : Kernel τ ι) (t : τ) (prio : Priority) : Kernel τ ι :=
  if (k.tcb t).stat = .ready then
    let k := rtScheduleRemoveThread k t
    let k := k.setTcb t { k.tcb t with currentPriority := prio, numberMask := prioMask prio }
    rtScheduleInsertThread k t
  else k.setTcb t { k.tcb t with currentPriority := prio, numberMask := prioMask prio }

/-- The part that `rt_thread_detach` and `rt_thread_delete` share, up to the change of the state. -/
def closeThread (k : Kernel τ ι) (t : τ) : Kernel τ ι :=
  let k := if (k.tcb t).stat ≠ .init then rtScheduleRemoveThread k t else k
  k.setTcb t { k.tcb t with stat := .close }

/-- `rt_thread_detach`, which asserts a static thread. -/
def rtThreadDetach (k : Kernel τ ι) (t : τ) : Option (Kernel τ ι) :=
  if (k.tcb t).isSystem then some (if (k.tcb t).stat = .close then k else closeThread k t) else none

/-- `rt_thread_delete`, which asserts a dynamic thread. -/
def rtThreadDelete (k : Kernel τ ι) (t : τ) : Option (Kernel τ ι) :=
  if (k.tcb t).isSystem then none
  else if (k.tcb t).stat = .close then some k
  else
    let k := closeThread k t
    some { k with defunct := t :: k.defunct }

/-! ## The system -/

/-- Which operation is next; `ipcSuspend` is the running thread suspending itself into a suspend list, at any
place of it (`rt_ipc_list_suspend`). -/
inductive SchedAction (τ ι : Type) where
  | startup (t : τ)
  | insert (t : τ)
  | remove (t : τ)
  | suspend (t : τ)
  | resume (t : τ)
  | timeout (t : τ)
  | yield
  | changePriority (t : τ) (prio : Priority)
  | detach (t : τ)
  | delete (t : τ)
  | schedule
  | start
  | ipcSuspend (q : ι) (i : Nat)
  | enterCritical
  | exitCritical

/-- `rt_ipc_list_suspend` of the running thread. -/
def rtIpcListSuspend [DecidableEq ι] (k : Kernel τ ι) (q : ι) (i : Nat) : Option (Kernel τ ι) :=
  match k.current with
  | none => none
  | some t =>
    if (k.tcb t).stat = .ready ∧ i ≤ (k.waiting q).length then
      let k := rtThreadSuspend k t
      some { k with waiting := Function.update k.waiting q ((k.waiting q).insertIdx i t) }
    else none

/-- The running thread suspends itself, at a place of a suspend list or in none (`rt_thread_sleep`). -/
def suspendSelf [DecidableEq ι] (k : Kernel τ ι) : Option (ι × Nat) → Option (Kernel τ ι)
  | some (q, i) => rtIpcListSuspend k q i
  | none =>
    match k.current with
    | none => none
    | some t => if (k.tcb t).stat = .ready then some (rtThreadSuspend k t) else none

/-- `rt_exit_critical`. -/
def rtExitCritical (k : Kernel τ ι) : Option (Kernel τ ι) :=
  let k := { k with lockNest := k.lockNest - 1 }
  if k.lockNest = 0 ∧ k.current ≠ none then rtSchedule k else some k

def schedStep [DecidableEq ι] (k : Kernel τ ι) : SchedAction τ ι → Option (Kernel τ ι)
  | .startup t => rtThreadStartup k t
  | .insert t => some (rtScheduleInsertThread k t)
  | .remove t => some (rtScheduleRemoveThread k t)
  | .suspend t => some (rtThreadSuspend k t)
  | .resume t => some (rtThreadResume k t)
  | .timeout t => rtThreadTimeout k t
  | .yield => rtThreadYield k
  | .changePriority t prio => some (rtThreadChangePriority k t prio)
  | .detach t => rtThreadDetach k t
  | .delete t => rtThreadDelete k t
  | .schedule => rtSchedule k
  | .start => rtSystemSchedulerStart k
  | .ipcSuspend q i => rtIpcListSuspend k q i
  | .enterCritical => some { k with lockNest := k.lockNest + 1 }
  | .exitCritical => rtExitCritical k

/-- Initialised threads, and empty lists (`rt_system_scheduler_init`). -/
structure SchedInit (k : Kernel τ ι) : Prop where
  stat : ∀ t, (k.tcb t).stat = .init
  mask : ∀ t, (k.tcb t).numberMask = 0
  table : ∀ p, k.table p = []
  group : k.group = 0
  current : k.current = none
  waiting : ∀ q, k.waiting q = []
  defunct : k.defunct = []

def scheduler (τ ι : Type) [DecidableEq τ] [DecidableEq ι] : System (Kernel τ ι) (SchedAction τ ι) where
  init := SchedInit
  step := schedStep

/-! ## What the operations do -/

section cases

variable {k k' : Kernel τ ι} {t : τ}

/-- The running thread goes behind the others of its priority, or there are none. -/
theorem rtThreadYield_cases (hs : rtThreadYield k = some k') : ∃ t, k.current = some t ∧
    ((∃ k₁, yieldMove k t = some k₁ ∧ rtSchedule k₁ = some k') ∨ yieldMove k t = none ∧ k' = k) := by
  unfold rtThreadYield at hs
  split at hs
  · cases hs
  · next t hcur =>
    refine ⟨t, hcur, ?_⟩
    split at hs
    · next k₁ hmove => exact .inl ⟨k₁, hmove, hs⟩
    · next hmove => exact .inr ⟨hmove, (Option.some.inj hs).symm⟩

theorem rtThreadDetach_cases (hs : rtThreadDetach k t = some k') : k' = k ∨ k' = closeThread k t := by
  unfold rtThreadDetach at hs
  split_ifs at hs
  · exact .inl (Option.some.inj hs).symm
  · exact .inr (Option.some.inj hs).symm

theorem rtThreadDelete_cases (hs : rtThreadDelete k t = some k') :
    k' = k ∨ k' = { closeThread k t with defunct := t :: (closeThread k t).defunct } := by
  unfold rtThreadDelete at hs
  split_ifs at hs
  · exact .inl (Option.some.inj hs).symm
  · exact .inr (Option.some.inj hs).symm

/-- The scheduler is unlocked, and called if the lock was the last one. -/
theorem rtExitCritical_cases (hs : rtExitCritical k = some k') :
    rtSchedule { k with lockNest := k.lockNest - 1 } = some k' ∨ k' = { k with lockNest := k.lockNest - 1 } := by
  unfold rtExitCritical at hs
  dsimp only at hs
  split_ifs at hs
  · exact .inl hs
  · exact .inr (Option.some.inj hs).symm

theorem rtIpcListSuspend_cases [DecidableEq ι] {q : ι} {i : Nat} (hs : rtIpcListSuspend k q i = some k') :
    ∃ t, k.current = some t ∧ (k.tcb t).stat = .ready ∧ i ≤ (k.waiting q).length ∧
      k' = { rtThreadSuspend k t with
        waiting := Function.update (rtThreadSuspend k t).waiting q
          (((rtThreadSuspend k t).waiting q).insertIdx i t) } := by
  unfold rtIpcListSuspend at hs
  split at hs
  · cases hs
  · next t hcur =>
    obtain ⟨⟨hstat, hi⟩, hs⟩ := Option.ite_none_right_eq_some.mp hs
    exact ⟨t, hcur, hstat, hi, (Option.some.inj hs).symm⟩

theorem suspendSelf_none [DecidableEq ι] (hs : suspendSelf k none = some k') :
    ∃ t, k.current = some t ∧ (k.tcb t).stat = .ready ∧ k' = rtThreadSuspend k t := by
  unfold suspendSelf at hs
  dsimp only at hs
  split at hs
  · cases hs
  · next t hcur =>
    obtain ⟨hstat, hs⟩ := Option.ite_none_right_eq_some.mp hs
    exact ⟨t, hcur, hstat, (Option.some.inj hs).symm⟩

end cases

/-! ## The bitmap -/

theorem getLsbD_prioMask (p q : Priority) : (prioMask p).getLsbD q.val = decide (q = p) := by
  rw [prioMask, ← BitVec.twoPow_eq, BitVec.getLsbD_twoPow]
  have hq := q.isLt
  simp [Fin.ext_iff, eq_comm, p.isLt]

theorem getLsbD_set (g : BitVec 32) (p q : Priority) :
    (g ||| prioMask p).getLsbD q.val = true ↔ q = p ∨ g.getLsbD q.val = true := by
  rw [BitVec.getLsbD_or, getLsbD_prioMask]
  by_cases h : q = p <;> simp [h]

theorem getLsbD_clear (g : BitVec 32) (p q : Priority) :
    (g &&& ~~~prioMask p).getLsbD q.val = true ↔ q ≠ p ∧ g.getLsbD q.val = true := by
  rw [BitVec.getLsbD_and, BitVec.getLsbD_not, getLsbD_prioMask]
  by_cases h : q = p <;> simp [h]

theorem clear_nothing (g : BitVec 32) : g &&& ~~~0 = g := by
  change g &&& ~~~0#32 = g
  rw [BitVec.not_zero, BitVec.and_allOnes]

theorem rtFfs_spec (g : BitVec 32) {p : Priority} (hp : g.getLsbD p.val = true)
    (hlow : ∀ q < p, g.getLsbD q.val = false) : rtFfs g = p.val + 1 := by
  unfold rtFfs
  cases hf : (List.finRange 32).find? fun p => g.getLsbD p.val with
  | none =>
    rw [List.find?_eq_none] at hf
    exact absurd hp (hf p (List.mem_finRange p))
  | some r =>
    obtain ⟨hr, i, hi, hri, hbefore⟩ := List.find?_eq_some_iff_getElem.mp hf
    rw [List.getElem_finRange] at hri
    have hval : r.val = i := by rw [← hri]; rfl
    have hle : ¬ r < p := fun h => absurd (hlow r h) (by rw [hr]; decide)
    have hge : ¬ p.val < i := fun h => by
      have := hbefore p.val h
      rw [List.getElem_finRange] at this
      change (!g.getLsbD p.val) = true at this
      rw [hp] at this
      cases this
    have heq : r.val = p.val := by
      rw [Fin.lt_def] at hle
      omega
    exact congrArg (· + 1) heq

/-! ## What `rt_schedule` does -/

variable {k k' : Kernel τ ι} {t : τ}

theorem rtSchedule_frame (hs : rtSchedule k = some k') :
    k'.tcb = k.tcb ∧ k'.table = k.table ∧ k'.group = k.group ∧ k'.waiting = k.waiting ∧
      k'.defunct = k.defunct ∧ k'.lockNest = k.lockNest := by
  unfold rtSchedule at hs
  split_ifs at hs
  · obtain ⟨⟨p, t⟩, -, rfl⟩ := Option.map_eq_some_iff.mp hs
    dsimp only
    split_ifs <;> exact ⟨rfl, rfl, rfl, rfl, rfl, rfl⟩
  · obtain rfl := Option.some.inj hs
    exact ⟨rfl, rfl, rfl, rfl, rfl, rfl⟩

omit [DecidableEq τ] in
theorem highestReady_head {p : Priority} (h : highestReady k = some (p, t)) :
    t ∈ k.table p ∧ (k.table p).head? = some t := by
  unfold highestReady at h
  split_ifs at h
  obtain ⟨u, hhead, heq⟩ := Option.map_eq_some_iff.mp h
  obtain ⟨rfl, rfl⟩ := Prod.mk.inj heq
  exact ⟨List.mem_of_mem_head? hhead, hhead⟩

/-- The thread that runs after `rt_schedule` ran before, or is the first of a ready list. -/
theorem rtSchedule_head (hs : rtSchedule k = some k') (hcur : k'.current = some t) :
    k.lockNest ≠ 0 ∧ k.current = some t ∨ ∃ p, t ∈ k.table p ∧ (k.table p).head? = some t := by
  unfold rtSchedule at hs
  split_ifs at hs with hlock
  · obtain ⟨⟨p, u⟩, hready, rfl⟩ := Option.map_eq_some_iff.mp hs
    have hut : u = t := by
      dsimp only at hcur
      split_ifs at hcur with hne
      · exact Option.some.inj hcur
      · exact Option.some.inj ((not_not.mp hne).trans hcur)
    exact .inr ⟨p, hut ▸ highestReady_head hready⟩
  · exact .inl ⟨hlock, Option.some.inj hs ▸ hcur⟩

theorem rtSchedule_current (hs : rtSchedule k = some k') (hu : k.Unlinked t) (hcur : k'.current = some t) :
    k.current = some t := by
  rcases rtSchedule_head hs hcur with ⟨-, hc⟩ | ⟨p, hm, -⟩
  · exact hc
  · exact absurd hm (hu.1 p)

theorem rtScheduleRemoveThread_eq (k : Kernel τ ι) (t : τ) :
    rtScheduleRemoveThread k t =
      { k.unlink t with
        group := if (k.table (k.tcb t).currentPriority).erase t = [] then k.group &&& ~~~(k.tcb t).numberMask
          else k.group } := by
  unfold rtScheduleRemoveThread
  dsimp only
  split_ifs with h₁ h₂ h₂
  · rfl
  · exact absurd h₁ h₂
  · exact absurd h₂ h₁
  · rfl

@[simp] theorem rtScheduleRemoveThread_tcb (k : Kernel τ ι) (t : τ) :
    (rtScheduleRemoveThread k t).tcb = k.tcb := by
  rw [rtScheduleRemoveThread_eq]
  rfl

/-! Only `rt_schedule` changes the running thread. -/

@[simp] theorem rtScheduleRemoveThread_current (k : Kernel τ ι) (t : τ) :
    (rtScheduleRemoveThread k t).current = k.current := by
  rw [rtScheduleRemoveThread_eq]
  rfl

@[simp] theorem rtThreadSuspend_current (k : Kernel τ ι) (t : τ) : (rtThreadSuspend k t).current = k.current := by
  unfold rtThreadSuspend
  split_ifs
  · rfl
  · exact rtScheduleRemoveThread_current k t

@[simp] theorem rtThreadResume_current (k : Kernel τ ι) (t : τ) : (rtThreadResume k t).current = k.current := by
  unfold rtThreadResume
  split_ifs <;> rfl

@[simp] theorem rtThreadChangePriority_current (k : Kernel τ ι) (t : τ) (prio : Priority) :
    (rtThreadChangePriority k t prio).current = k.current := by
  unfold rtThreadChangePriority
  split_ifs
  · exact rtScheduleRemoveThread_current k t
  · rfl

@[simp] theorem closeThread_current (k : Kernel τ ι) (t : τ) : (closeThread k t).current = k.current := by
  unfold closeThread
  dsimp only
  split_ifs
  · exact rtScheduleRemoveThread_current k t
  · rfl

/-! ## What the operations on one thread leave alone -/

/-- The fields of `u` are the same, and its node is in the same lists. -/
structure Untouched (k k' : Kernel τ ι) (u : τ) : Prop where
  tcb : k'.tcb u = k.tcb u
  table : ∀ p, (k'.table p).count u = (k.table p).count u
  waiting : ∀ q, (k'.waiting q).count u = (k.waiting q).count u
  defunct : k'.defunct.count u = k.defunct.count u

variable {u : τ}

theorem Untouched.refl (k : Kernel τ ι) (u : τ) : Untouched k k u := ⟨rfl, fun _ => rfl, fun _ => rfl, rfl⟩

theorem Untouched.trans {k₁ k₂ k₃ : Kernel τ ι} (h₁ : Untouched k₁ k₂ u) (h₂ : Untouched k₂ k₃ u) :
    Untouched k₁ k₃ u where
  tcb := h₂.tcb.trans h₁.tcb
  table p := (h₂.table p).trans (h₁.table p)
  waiting q := (h₂.waiting q).trans (h₁.waiting q)
  defunct := h₂.defunct.trans h₁.defunct

theorem Untouched.unlinked (h : Untouched k k' u) (hu : k.Unlinked u) : k'.Unlinked u := by
  refine ⟨fun p => ?_, fun q => ?_, ?_⟩
  · rw [← List.count_eq_zero, h.table, List.count_eq_zero]
    exact hu.1 p
  · rw [← List.count_eq_zero, h.waiting, List.count_eq_zero]
    exact hu.2.1 q
  · rw [← List.count_eq_zero, h.defunct, List.count_eq_zero]
    exact hu.2.2

theorem Untouched.mem_waiting (h : Untouched k k' u) (q : ι) : u ∈ k'.waiting q ↔ u ∈ k.waiting q := by
  rw [← List.count_pos_iff, h.waiting, List.count_pos_iff]

theorem count_update_append {f : Priority → List τ} {p : Priority} (hu : u ≠ t) (r : Priority) :
    (Function.update f p (f p ++ [t]) r).count u = (f r).count u := by
  by_cases hr : r = p
  · subst hr
    rw [Function.update_self, List.count_append, List.count_singleton, if_neg (by simpa using Ne.symm hu)]
    rfl
  · rw [Function.update_of_ne hr]

theorem count_insertIdx_of_ne (l : List τ) (i : Nat) (hu : u ≠ t) : (l.insertIdx i t).count u = l.count u := by
  by_cases hi : i ≤ l.length
  · rw [(List.perm_insertIdx t l hi).count_eq, List.count_cons_of_ne (Ne.symm hu)]
  · rw [List.insertIdx_of_length_lt (by omega)]

theorem untouched_unlink (k : Kernel τ ι) (hu : u ≠ t) : Untouched k (k.unlink t) u where
  tcb := rfl
  table _ := List.count_erase_of_ne hu
  waiting _ := List.count_erase_of_ne hu
  defunct := List.count_erase_of_ne hu

theorem untouched_setTcb (k : Kernel τ ι) (tcb : Tcb) (hu : u ≠ t) : Untouched k (k.setTcb t tcb) u :=
  ⟨k.setTcb_other tcb hu, fun _ => rfl, fun _ => rfl, rfl⟩

theorem untouched_insert (k : Kernel τ ι) (hu : u ≠ t) : Untouched k (rtScheduleInsertThread k t) u :=
  ⟨Function.update_of_ne hu _ _, fun p => count_update_append hu p, fun _ => rfl, rfl⟩

theorem untouched_remove (k : Kernel τ ι) (hu : u ≠ t) : Untouched k (rtScheduleRemoveThread k t) u := by
  have hunlink := untouched_unlink k hu
  unfold rtScheduleRemoveThread
  dsimp only
  split_ifs
  · exact ⟨hunlink.tcb, hunlink.table, hunlink.waiting, hunlink.defunct⟩
  · exact hunlink

theorem untouched_schedule (hs : rtSchedule k = some k') (u : τ) : Untouched k k' u := by
  obtain ⟨htcb, htable, -, hwaiting, hdefunct, -⟩ := rtSchedule_frame hs
  exact ⟨by rw [htcb], fun p => by rw [htable], fun q => by rw [hwaiting], by rw [hdefunct]⟩

theorem untouched_suspend (k : Kernel τ ι) (hu : u ≠ t) : Untouched k (rtThreadSuspend k t) u := by
  unfold rtThreadSuspend
  split_ifs
  · exact .refl k u
  · exact (untouched_remove k hu).trans (untouched_setTcb _ _ hu)

theorem untouched_timeout (hs : rtThreadTimeout k t = some k') (hu : u ≠ t) : Untouched k k' u := by
  obtain ⟨-, hs⟩ := Option.ite_none_right_eq_some.mp hs
  exact (((untouched_setTcb k _ hu).trans (untouched_unlink _ hu)).trans (untouched_insert _ hu)).trans
    (untouched_schedule hs u)

theorem rtThreadTimeout_current (hs : rtThreadTimeout k t = some k') (hu : u ≠ t) (hul : k.Unlinked u)
    (hcur : k'.current = some u) : k.current = some u := by
  obtain ⟨-, hs⟩ := Option.ite_none_right_eq_some.mp hs
  dsimp only at hs
  have hinsert := ((untouched_setTcb k { k.tcb t with error := rtEtimeout } hu).trans
    (untouched_unlink _ hu)).trans (untouched_insert _ hu)
  have hbefore := rtSchedule_current hs (hinsert.unlinked hul) hcur
  exact hbefore

theorem untouched_ipcSuspend [DecidableEq ι] {q : ι} {i : Nat} (hs : rtIpcListSuspend k q i = some k')
    (hu : k.current ≠ some u) : Untouched k k' u := by
  obtain ⟨t, hcur, -, -, rfl⟩ := rtIpcListSuspend_cases hs
  have hne : u ≠ t := fun he => hu (he ▸ hcur)
  have hsusp := untouched_suspend k hne
  refine ⟨hsusp.tcb, hsusp.table, fun r => ?_, hsusp.defunct⟩
  rw [← hsusp.waiting r]
  dsimp only
  by_cases hr : r = q
  · subst hr
    rw [Function.update_self]
    exact count_insertIdx_of_ne _ i hne
  · rw [Function.update_of_ne hr]

theorem untouched_suspendSelf [DecidableEq ι] {place : Option (ι × Nat)} (hs : suspendSelf k place = some k')
    (hu : k.current ≠ some u) : Untouched k k' u := by
  cases place with
  | some place => exact untouched_ipcSuspend hs hu
  | none =>
    obtain ⟨t, hcur, -, rfl⟩ := suspendSelf_none hs
    exact untouched_suspend k fun he => hu (he ▸ hcur)

theorem suspendSelf_current [DecidableEq ι] {p : Option (ι × Nat)} (hs : suspendSelf k p = some k') :
    k'.current = k.current := by
  cases p with
  | some p =>
    obtain ⟨t, -, -, -, rfl⟩ := rtIpcListSuspend_cases hs
    exact rtThreadSuspend_current k t
  | none =>
    obtain ⟨t, -, -, rfl⟩ := suspendSelf_none hs
    exact rtThreadSuspend_current k t

theorem untouched_yield (hs : rtThreadYield k = some k') (u : τ) : Untouched k k' u := by
  obtain ⟨t, -, ⟨k₁, hmove, hs⟩ | ⟨-, rfl⟩⟩ := rtThreadYield_cases hs
  · refine Untouched.trans ?_ (untouched_schedule hs u)
    obtain ⟨⟨-, hmem, -⟩, hmove⟩ := Option.ite_none_right_eq_some.mp hmove
    obtain rfl := Option.some.inj hmove
    refine ⟨rfl, fun p => ?_, fun _ => rfl, rfl⟩
    dsimp only
    by_cases hp : p = (k.tcb t).currentPriority
    · subst hp
      rw [Function.update_self]
      exact ((List.perm_append_singleton _ _).trans (List.perm_cons_erase hmem).symm).count_eq u
    · rw [Function.update_of_ne hp]
  · exact .refl k' u

end ThyristorController
