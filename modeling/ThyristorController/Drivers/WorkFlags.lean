import Mathlib.Data.List.Basic
import Mathlib.Data.List.Nodup
import ThyristorController.Kernel.RtDef
import ThyristorController.Lib.Run

/-!
# The state flag of a work (`components/drivers/src/workqueue.c`)

Any number of work queues and works, each call of an entry point, each timeout and each step of a queue's thread being
one step. A submission and a cancellation change the flag `RT_WORK_STATE_PENDING` with the list.
`rt_workqueue_critical_work` links a work without setting the flag, and `rt_workqueue_cancel_all_work` unlinks the
works without clearing it: `pending_iff_linked` says that nothing else parts the two.
-/

namespace ThyristorController.WorkFlags

open Transition

/-! ## Works and queues -/

/-- The flags `PENDING` and `SUBMITTING`, the type `DELAYED`, the queue of a delayed work, and whether the timer of the
work has been initialised and started. -/
structure RtWork (κ : Type) where
  pending : Bool
  submitting : Bool
  delayed : Bool
  workqueue : Option κ
  timer : Bool
  deriving DecidableEq

def rtWorkInit {κ : Type} : RtWork κ := ⟨false, false, false, none, false⟩

/-- Where `_workqueue_thread_entry` is: it tests the list, has suspended itself, has been resumed, runs a work. -/
inductive ThreadPc where
  | test | suspended | resumed | run
  deriving DecidableEq

structure RtWorkqueue (ω : Type) where
  workList : List ω
  workCurrent : Option ω
  thread : ThreadPc
  deriving DecidableEq

def rtWorkqueueCreate {ω : Type} : RtWorkqueue ω := ⟨[], none, .test⟩

/-- What a call returns: `RT_EOK`, `-RT_EBUSY`, `-RT_EINVAL`, `-EINVAL`. -/
inductive RtErr where
  | eok | ebusy | rtEinval | einval
  deriving DecidableEq

structure WorkState (κ ω : Type) where
  works : ω → RtWork κ
  queues : κ → RtWorkqueue ω

variable {κ ω : Type} [DecidableEq κ] [DecidableEq ω]

namespace WorkState

def setWork (s : WorkState κ ω) (w : ω) (v : RtWork κ) : WorkState κ ω :=
  { s with works := Function.update s.works w v }

def setQueue (s : WorkState κ ω) (q : κ) (v : RtWorkqueue ω) : WorkState κ ω :=
  { s with queues := Function.update s.queues q v }

/-- `rt_list_remove`, from whichever list the work is in. -/
def listRemove (s : WorkState κ ω) (w : ω) : WorkState κ ω :=
  { s with queues := fun q => { s.queues q with workList := (s.queues q).workList.erase w } }

/-- `rt_list_insert_after(queue->work_list.prev, &(work->list))`. -/
def listAppend (s : WorkState κ ω) (q : κ) (w : ω) : WorkState κ ω :=
  s.setQueue q { s.queues q with workList := (s.queues q).workList ++ [w] }

/-- `rt_thread_resume(queue->work_thread)` where no work is run; it fails for a thread that is not suspended. -/
def resumeThread (s : WorkState κ ω) (q : κ) : WorkState κ ω :=
  if (s.queues q).workCurrent = none ∧ (s.queues q).thread = .suspended then
    s.setQueue q { s.queues q with thread := .resumed }
  else s

/-! ## The calls

A failed assertion and an access through a null pointer halt the system: there is no next state. -/

/-- `_workqueue_submit_work`. -/
def submitWork (s : WorkState κ ω) (queue : Option κ) (w : ω) : Option (WorkState κ ω × RtErr) :=
  if (s.works w).pending then some (s, .ebusy)
  else
    queue.bind fun q =>
      if (s.queues q).workCurrent = some w then some (s, .ebusy)
      else
        let s := (s.listRemove w).listAppend q w
        some ((s.setWork w { s.works w with pending := true }).resumeThread q, .eok)

/-- `_workqueue_cancel_work`. -/
def cancelWork (s : WorkState κ ω) (q : κ) (w : ω) : WorkState κ ω × RtErr :=
  if (s.queues q).workCurrent = some w then (s, .ebusy)
  else ((s.listRemove w).setWork w { s.works w with pending := false }, .eok)

/-- The last critical section of `_workqueue_cancel_delayed_work`. -/
def detach (s : WorkState κ ω) (w : ω) : WorkState κ ω :=
  s.setWork w { s.works w with workqueue := none, pending := false }

/-- `_workqueue_cancel_delayed_work`. The timer of a work that has been detached is no timer. -/
def cancelDelayedWork (s : WorkState κ ω) (w : ω) : Option (WorkState κ ω × RtErr) :=
  match (s.works w).workqueue with
  | none => some (s, .einval)
  | some q =>
    if (s.works w).pending then
      let r := s.cancelWork q w
      some (if r.2 = .eok then (r.1.detach w, .eok) else r)
    else if (s.works w).submitting then
      if (s.works w).timer then
        some ((s.setWork w { s.works w with timer := false, submitting := false }).detach w, .eok)
      else none
    else some (s.detach w, .eok)

/-- `rt_timer_init` and `rt_timer_start`: a timer is not initialised twice, and is not started for half of the ticks or
more. -/
def addTimeout (s : WorkState κ ω) (w : ω) (ticks : Nat) : Option (WorkState κ ω × RtErr) :=
  if (s.works w).timer = false ∧ ticks < rtTickMax / 2 then
    some (s.setWork w { s.works w with submitting := true, timer := true }, .eok)
  else none

/-- `_workqueue_submit_delayed_work`. -/
def submitDelayedWork (s : WorkState κ ω) (q : κ) (w : ω) (ticks : Nat) : Option (WorkState κ ω × RtErr) :=
  if (s.works w).workqueue ≠ none ∧ (s.works w).workqueue ≠ some q then some (s, .rtEinval)
  else
    (if (s.works w).workqueue = some q then s.cancelDelayedWork w else some (s, .eok)).bind fun r =>
      if r.2 ≠ .eok then some r
      else
        let s := r.1.setWork w { r.1.works w with workqueue := some q }
        if ticks = 0 then s.submitWork (s.works w).workqueue w else s.addTimeout w ticks

/-- `_delayed_work_timeout_handler`. -/
def delayedWorkTimeoutHandler (s : WorkState κ ω) (w : ω) : Option (WorkState κ ω × RtErr) :=
  let s := s.setWork w { s.works w with timer := false, submitting := false, delayed := false }
  s.submitWork (s.works w).workqueue w

/-- `rt_workqueue_submit_work`. -/
def rtWorkqueueSubmitWork (s : WorkState κ ω) (q : κ) (w : ω) (time : Nat) : Option (WorkState κ ω × RtErr) :=
  let s := if 0 < time then s.setWork w { s.works w with delayed := true } else s
  if (s.works w).delayed then s.submitDelayedWork q w time else s.submitWork (some q) w

/-- `rt_workqueue_critical_work`. -/
def rtWorkqueueCriticalWork (s : WorkState κ ω) (q : κ) (w : ω) : WorkState κ ω × RtErr :=
  if (s.queues q).workCurrent = some w then (s, .ebusy)
  else (((s.listRemove w).listAppend q w).resumeThread q, .eok)

/-- `rt_workqueue_cancel_work`. -/
def rtWorkqueueCancelWork (s : WorkState κ ω) (q : κ) (w : ω) : Option (WorkState κ ω × RtErr) :=
  if (s.works w).delayed then s.cancelDelayedWork w else some (s.cancelWork q w)

/-- `rt_workqueue_cancel_all_work`. -/
def rtWorkqueueCancelAllWork (s : WorkState κ ω) (q : κ) : WorkState κ ω :=
  (s.queues q).workList.foldl listRemove s

/-- The queue's thread takes the first work. -/
def take (s : WorkState κ ω) (q : κ) (w : ω) : WorkState κ ω :=
  let s := s.listRemove w
  (s.setQueue q { s.queues q with workCurrent := some w, thread := .run }).setWork w
    { s.works w with pending := false, workqueue := none }

/-- `_workqueue_thread_entry`. The first work of an empty list is the list's head, which is not a work: there is no
next state. -/
def threadStep (s : WorkState κ ω) (q : κ) : Option (WorkState κ ω) :=
  match (s.queues q).thread, (s.queues q).workList with
  | .test, [] => some (s.setQueue q { s.queues q with thread := .suspended })
  | .test, w :: _ | .resumed, w :: _ => some (s.take q w)
  | .resumed, [] | .suspended, _ => none
  | .run, _ => some (s.setQueue q { s.queues q with workCurrent := none, thread := .test })

end WorkState

/-! ## The system -/

inductive WorkCall (κ ω : Type) where
  | dowork (q : κ) (w : ω)
  | submit (q : κ) (w : ω) (time : Nat)
  | critical (q : κ) (w : ω)
  | cancel (q : κ) (w : ω)
  | cancelAll (q : κ)
  /-- The timer of `w` expires. -/
  | timeout (w : ω)
  | thread (q : κ)

def workStep (s : WorkState κ ω) : WorkCall κ ω → Option (WorkState κ ω)
  | .dowork q w => (s.submitWork (some q) w).map Prod.fst
  | .submit q w time => (s.rtWorkqueueSubmitWork q w time).map Prod.fst
  | .critical q w => some (s.rtWorkqueueCriticalWork q w).1
  | .cancel q w => (s.rtWorkqueueCancelWork q w).map Prod.fst
  | .cancelAll q => some (s.rtWorkqueueCancelAllWork q)
  | .timeout w => if (s.works w).timer then (s.delayedWorkTimeoutHandler w).map Prod.fst else none
  | .thread q => s.threadStep q

/-- Queues that have been created, and works that have been initialised. -/
def workSystem (κ ω : Type) [DecidableEq κ] [DecidableEq ω] : System (WorkState κ ω) (WorkCall κ ω) where
  init s := (∀ w, s.works w = rtWorkInit) ∧ ∀ q, s.queues q = rtWorkqueueCreate
  step := workStep

/-! ## The flag and the lists -/

/-- The work list of `q`. -/
def WorkState.list (s : WorkState κ ω) (q : κ) : List ω := (s.queues q).workList

/-- Whether `w` has `PENDING` set. -/
def WorkState.pending (s : WorkState κ ω) (w : ω) : Bool := (s.works w).pending

/-- A work has `PENDING` set exactly if it is linked in a work list, and it is linked at most once. -/
structure FlagsOk (s : WorkState κ ω) : Prop where
  flag : ∀ w, s.pending w = true ↔ ∃ q, w ∈ s.list q
  nodup : ∀ q, (s.list q).Nodup
  once : ∀ {w q q'}, w ∈ s.list q → w ∈ s.list q' → q = q'

/-- A call of `rt_workqueue_critical_work` is for a work that has `PENDING` set, or that the queue runs, and
`rt_workqueue_cancel_all_work` is called on a queue without works. -/
def KeepsFlags (s : WorkState κ ω) : WorkCall κ ω → Prop
  | .critical q w => (s.queues q).workCurrent = some w ∨ s.pending w = true
  | .cancelAll q => s.list q = []
  | _ => True

instance (s : WorkState κ ω) : (a : WorkCall κ ω) → Decidable (KeepsFlags s a)
  | .critical _ _ => inferInstanceAs (Decidable (_ ∨ _))
  | .cancelAll _ => inferInstanceAs (Decidable (_ = _))
  | .dowork _ _ | .submit _ _ _ | .cancel _ _ | .timeout _ | .thread _ => .isTrue trivial

/-! ### What the operations on the lists and the works change -/

section steps

variable {s s' : WorkState κ ω} {q q' : κ} {w v : ω} {e : RtErr} {a : WorkCall κ ω}
  {h : History (WorkState κ ω) (WorkCall κ ω)}

namespace WorkState

omit [DecidableEq κ] in
@[simp] theorem list_setWork (r : RtWork κ) : (s.setWork w r).list q = s.list q := rfl

omit [DecidableEq κ] in
theorem pending_setWork (r : RtWork κ) :
    (s.setWork w r).pending v = if v = w then r.pending else s.pending v := by
  show (Function.update s.works w r v).pending = _
  rw [Function.update_apply]
  split_ifs <;> rfl

omit [DecidableEq κ] in
theorem pending_setWork_of_eq {r : RtWork κ} (hr : r.pending = s.pending w) :
    (s.setWork w r).pending v = s.pending v := by
  rw [pending_setWork]
  split_ifs with hv
  · rw [hv, hr]
  · rfl

omit [DecidableEq ω] in
@[simp] theorem pending_setQueue (r : RtWorkqueue ω) : (s.setQueue q r).pending w = s.pending w := rfl

omit [DecidableEq ω] in
theorem list_setQueue (r : RtWorkqueue ω) :
    (s.setQueue q r).list q' = if q' = q then r.workList else s.list q' := by
  show (Function.update s.queues q r q').workList = _
  rw [Function.update_apply]
  split_ifs <;> rfl

omit [DecidableEq ω] in
theorem list_setQueue_of_eq {r : RtWorkqueue ω} (hr : r.workList = s.list q) :
    (s.setQueue q r).list q' = s.list q' := by
  rw [list_setQueue]
  split_ifs with hq
  · rw [hq, hr]
  · rfl

omit [DecidableEq κ] in
@[simp] theorem list_listRemove : (s.listRemove w).list q = (s.list q).erase w := rfl

omit [DecidableEq κ] in
@[simp] theorem pending_listRemove : (s.listRemove w).pending v = s.pending v := rfl

omit [DecidableEq ω] in
theorem list_listAppend :
    (s.listAppend q w).list q' = if q' = q then s.list q' ++ [w] else s.list q' := by
  unfold listAppend
  rw [list_setQueue]
  split_ifs with hq
  · rw [hq]
    rfl
  · rfl

omit [DecidableEq ω] in
@[simp] theorem pending_listAppend : (s.listAppend q w).pending v = s.pending v := rfl

omit [DecidableEq ω] in
@[simp] theorem list_resumeThread : (s.resumeThread q).list q' = s.list q' := by
  unfold resumeThread
  split_ifs
  · exact list_setQueue_of_eq rfl
  · rfl

omit [DecidableEq ω] in
@[simp] theorem pending_resumeThread : (s.resumeThread q).pending w = s.pending w := by
  unfold resumeThread
  split_ifs <;> rfl

end WorkState

/-! ### What keeps the flags -/

namespace FlagsOk

omit [DecidableEq κ] [DecidableEq ω] in
theorem same (hok : FlagsOk s) (hlist : ∀ q, s'.list q = s.list q) (hpending : ∀ w, s'.pending w = s.pending w) :
    FlagsOk s' := by
  constructor
  · intro w
    simp only [hpending, hlist]
    exact hok.flag w
  · intro q
    rw [hlist]
    exact hok.nodup q
  · intro w q q' hq hq'
    rw [hlist] at hq hq'
    exact hok.once hq hq'

omit [DecidableEq κ] in
theorem mem_erase (hok : FlagsOk s) : v ∈ (s.list q).erase w ↔ v ≠ w ∧ v ∈ s.list q := (hok.nodup q).mem_erase_iff

omit [DecidableEq κ] in
theorem drop (hok : FlagsOk s) (hlist : ∀ q, s'.list q = (s.list q).erase w)
    (hpending : ∀ v, s'.pending v = if v = w then false else s.pending v) : FlagsOk s' := by
  have hmem : ∀ v q, v ∈ s'.list q ↔ v ≠ w ∧ v ∈ s.list q := by
    intro v q
    rw [hlist, hok.mem_erase]
  constructor
  · intro v
    rw [hpending]
    by_cases hv : v = w
    · simp [hv, hmem]
    · simp only [hv, hmem, if_false, ne_eq, not_false_eq_true, true_and]
      exact hok.flag v
  · intro q
    rw [hlist]
    exact (hok.nodup q).erase w
  · intro v q q' hq hq'
    exact hok.once ((hmem v q).mp hq).2 ((hmem v q').mp hq').2

omit [DecidableEq κ] in
theorem clear (hok : FlagsOk s) (hw : s.pending w = false) (hlist : ∀ q, s'.list q = s.list q)
    (hpending : ∀ v, s'.pending v = if v = w then false else s.pending v) : FlagsOk s' := by
  refine hok.same hlist ?_
  intro v
  rw [hpending]
  split_ifs with hv
  · rw [hv, hw]
  · rfl

/-- A work is unlinked, linked at the end of a list, and its flag is set. -/
theorem put (hok : FlagsOk s)
    (hlist : ∀ q', s'.list q' = if q' = q then (s.list q').erase w ++ [w] else (s.list q').erase w)
    (hpending : ∀ v, s'.pending v = if v = w then true else s.pending v) : FlagsOk s' := by
  have hmem : ∀ v q', v ∈ s'.list q' ↔ (v ≠ w ∧ v ∈ s.list q') ∨ (v = w ∧ q' = q) := by
    intro v q'
    rw [hlist]
    split_ifs with hq
    · simp [hok.mem_erase, hq]
    · simp [hok.mem_erase, hq]
  constructor
  · intro v
    rw [hpending]
    by_cases hv : v = w
    · simp [hv, hmem]
    · simp only [hv, hmem, if_false, ne_eq, not_false_eq_true, true_and, false_and, or_false]
      exact hok.flag v
  · intro q'
    rw [hlist]
    have hrest : ((s.list q').erase w).Nodup := (hok.nodup q').erase w
    split_ifs
    · refine hrest.append (List.nodup_singleton w) ?_
      rw [List.disjoint_singleton]
      exact (hok.nodup q').not_mem_erase
    · exact hrest
  · intro v p p' hp hp'
    obtain ⟨hv, hp⟩ | ⟨hv, rfl⟩ := (hmem v p).mp hp
    · obtain ⟨-, hp'⟩ | ⟨hv', -⟩ := (hmem v p').mp hp'
      · exact hok.once hp hp'
      · exact absurd hv' hv
    · obtain ⟨hv', -⟩ | ⟨-, rfl⟩ := (hmem v p').mp hp'
      · exact absurd hv hv'
      · rfl

end FlagsOk

/-! ### The calls -/

open WorkState

theorem submitWork_ok {queue : Option κ} (hok : FlagsOk s) (hs : s.submitWork queue w = some (s', e)) :
    FlagsOk s' := by
  unfold submitWork at hs
  split_ifs at hs with hpending
  · cases hs
    exact hok
  obtain ⟨q, -, hs⟩ := Option.bind_eq_some_iff.mp hs
  split_ifs at hs with hcurrent
  · cases hs
    exact hok
  · cases hs
    refine hok.put (q := q) (w := w) ?_ ?_
    · intro q'
      simp only [list_resumeThread, list_setWork, list_listAppend, list_listRemove]
    · intro v
      simp only [pending_resumeThread, pending_setWork, pending_listAppend, pending_listRemove]

omit [DecidableEq κ] in
theorem cancelWork_ok (hok : FlagsOk s) : FlagsOk (s.cancelWork q w).1 := by
  unfold cancelWork
  split_ifs
  · exact hok
  · refine hok.drop (w := w) ?_ ?_
    · exact fun q' => rfl
    · intro v
      exact pending_setWork _

omit [DecidableEq κ] in
theorem cancelWork_pending (hs : (s.cancelWork q w).2 = .eok) : (s.cancelWork q w).1.pending w = false := by
  unfold cancelWork at hs ⊢
  split_ifs at hs ⊢ with hcurrent
  rw [pending_setWork, if_pos rfl]

omit [DecidableEq κ] in
theorem detach_ok (hok : FlagsOk s) (hw : s.pending w = false) : FlagsOk (s.detach w) := by
  refine hok.clear hw (fun q => rfl) ?_
  intro v
  exact pending_setWork _

omit [DecidableEq κ] in
theorem cancelDelayedWork_ok (hok : FlagsOk s) (hs : s.cancelDelayedWork w = some (s', e)) : FlagsOk s' := by
  unfold cancelDelayedWork at hs
  split at hs
  · cases hs
    exact hok
  next q hq =>
    split_ifs at hs with hpending hsubmitting
    · obtain hs := Option.some.inj hs
      split_ifs at hs with heok
      · cases hs
        exact detach_ok (cancelWork_ok hok) (cancelWork_pending heok)
      · obtain rfl : (s.cancelWork q w).1 = s' := congrArg Prod.fst hs
        exact cancelWork_ok hok
    all_goals
      cases hs
      have hw : s.pending w = false := Bool.eq_false_iff.mpr hpending
    · have hstop : ∀ v, (s.setWork w { s.works w with timer := false, submitting := false }).pending v =
          s.pending v := fun v => pending_setWork_of_eq rfl
      exact detach_ok (hok.same (fun q => rfl) hstop) ((hstop w).trans hw)
    · exact detach_ok hok hw

omit [DecidableEq κ] in
theorem addTimeout_ok {ticks : Nat} (hok : FlagsOk s) (hs : s.addTimeout w ticks = some (s', e)) : FlagsOk s' := by
  obtain ⟨-, hs⟩ := Option.ite_none_right_eq_some.mp hs
  cases hs
  exact hok.same (fun q => rfl) fun v => pending_setWork_of_eq rfl

theorem submitDelayedWork_ok {ticks : Nat} (hok : FlagsOk s) (hs : s.submitDelayedWork q w ticks = some (s', e)) :
    FlagsOk s' := by
  unfold submitDelayedWork at hs
  by_cases hother : (s.works w).workqueue ≠ none ∧ (s.works w).workqueue ≠ some q
  · rw [if_pos hother] at hs
    cases hs
    exact hok
  rw [if_neg hother] at hs
  obtain ⟨⟨s₁, e₁⟩, hcancel, hs⟩ := Option.bind_eq_some_iff.mp hs
  have hok₁ : FlagsOk s₁ := by
    split_ifs at hcancel
    · exact cancelDelayedWork_ok hok hcancel
    · cases hcancel
      exact hok
  have hattach : FlagsOk (s₁.setWork w { s₁.works w with workqueue := some q }) :=
    hok₁.same (fun q => rfl) fun v => pending_setWork_of_eq rfl
  split_ifs at hs
  · cases hs
    exact hok₁
  · exact submitWork_ok hattach hs
  · exact addTimeout_ok hattach hs

theorem rtWorkqueueSubmitWork_ok {time : Nat} (hok : FlagsOk s)
    (hs : s.rtWorkqueueSubmitWork q w time = some (s', e)) : FlagsOk s' := by
  unfold rtWorkqueueSubmitWork at hs
  have htype : FlagsOk (if 0 < time then s.setWork w { s.works w with delayed := true } else s) := by
    split_ifs
    · exact hok.same (fun q => rfl) fun v => pending_setWork_of_eq rfl
    · exact hok
  by_cases hdelayed :
      ((if 0 < time then s.setWork w { s.works w with delayed := true } else s).works w).delayed = true
  · exact submitDelayedWork_ok htype (by simpa only [if_pos hdelayed] using hs)
  · exact submitWork_ok htype (by simpa only [if_neg hdelayed] using hs)

theorem delayedWorkTimeoutHandler_ok (hok : FlagsOk s) (hs : s.delayedWorkTimeoutHandler w = some (s', e)) :
    FlagsOk s' := by
  have hstop : FlagsOk (s.setWork w { s.works w with timer := false, submitting := false, delayed := false }) :=
    hok.same (fun q => rfl) fun v => pending_setWork_of_eq rfl
  exact submitWork_ok hstop hs

omit [DecidableEq κ] in
theorem rtWorkqueueCancelWork_ok (hok : FlagsOk s) (hs : s.rtWorkqueueCancelWork q w = some (s', e)) :
    FlagsOk s' := by
  unfold rtWorkqueueCancelWork at hs
  split_ifs at hs with hdelayed
  · exact cancelDelayedWork_ok hok hs
  · obtain rfl : (s.cancelWork q w).1 = s' := congrArg Prod.fst (Option.some.inj hs)
    exact cancelWork_ok hok

theorem take_ok (hok : FlagsOk s) : FlagsOk (s.take q w) := by
  refine hok.drop (w := w) ?_ ?_
  · exact fun q' => list_setQueue_of_eq rfl
  · intro v
    exact pending_setWork _

theorem threadStep_ok (hok : FlagsOk s) (hs : s.threadStep q = some s') : FlagsOk s' := by
  unfold threadStep at hs
  split at hs
  · cases hs
    exact hok.same (fun q' => list_setQueue_of_eq rfl) fun v => rfl
  · cases hs
    exact take_ok hok
  · cases hs
    exact take_ok hok
  · contradiction
  · contradiction
  · cases hs
    exact hok.same (fun q' => list_setQueue_of_eq rfl) fun v => rfl

/-- A work that `rt_workqueue_critical_work` links keeps its flag as it was. -/
theorem rtWorkqueueCriticalWork_ok (hok : FlagsOk s) :
    FlagsOk (s.rtWorkqueueCriticalWork q w).1 ↔ (s.queues q).workCurrent = some w ∨ s.pending w = true := by
  unfold rtWorkqueueCriticalWork
  split_ifs with hcurrent
  · exact ⟨fun _ => .inl hcurrent, fun _ => hok⟩
  have hlist : ∀ q', ((((s.listRemove w).listAppend q w).resumeThread q)).list q' =
      if q' = q then (s.list q').erase w ++ [w] else (s.list q').erase w := by
    intro q'
    simp only [list_resumeThread, list_listAppend, list_listRemove]
  have hpending : ∀ v, (((s.listRemove w).listAppend q w).resumeThread q).pending v = s.pending v := by
    intro v
    simp only [pending_resumeThread, pending_listAppend, pending_listRemove]
  constructor
  · intro hok'
    refine .inr ?_
    rw [← hpending, hok'.flag]
    refine ⟨q, ?_⟩
    simp [hlist]
  · rintro (hw | hw)
    · exact absurd hw hcurrent
    · refine hok.put (q := q) (w := w) hlist ?_
      intro v
      rw [hpending]
      split_ifs with hv
      · rw [hv, hw]
      · rfl

omit [DecidableEq κ] in
theorem pending_foldl_listRemove (l : List ω) : (l.foldl listRemove s).pending w = s.pending w := by
  induction l generalizing s with
  | nil => rfl
  | cons v l ih => exact ih

omit [DecidableEq κ] in
theorem list_foldl_listRemove (l : List ω) : (l.foldl listRemove s).list q = (s.list q).diff l := by
  induction l generalizing s with
  | nil => rfl
  | cons v l ih => rw [List.foldl_cons, ih, list_listRemove, List.diff_cons]

omit [DecidableEq κ] in
/-- The works that `rt_workqueue_cancel_all_work` unlinks keep their flags. -/
theorem rtWorkqueueCancelAllWork_ok (hok : FlagsOk s) : FlagsOk (s.rtWorkqueueCancelAllWork q) ↔ s.list q = [] := by
  constructor
  · intro hok'
    by_contra hne
    obtain ⟨w, hw⟩ := List.exists_mem_of_ne_nil _ hne
    have hpending : (s.rtWorkqueueCancelAllWork q).pending w = true := by
      rw [show (s.rtWorkqueueCancelAllWork q).pending w = s.pending w from pending_foldl_listRemove _]
      exact (hok.flag w).mpr ⟨q, hw⟩
    obtain ⟨q', hq'⟩ := (hok'.flag w).mp hpending
    rw [show (s.rtWorkqueueCancelAllWork q).list q' = (s.list q').diff (s.list q) from list_foldl_listRemove _,
      (hok.nodup q').mem_sdiff_iff] at hq'
    exact hq'.2 hw
  · intro hempty
    unfold rtWorkqueueCancelAllWork
    rw [show (s.queues q).workList = [] from hempty]
    exact hok

/-! ### The runs -/

omit [DecidableEq κ] [DecidableEq ω] in
theorem init_ok (hworks : ∀ w, s.works w = rtWorkInit) (hqueues : ∀ q, s.queues q = rtWorkqueueCreate) :
    FlagsOk s := by
  have hlist : ∀ q, s.list q = [] := fun q => congrArg RtWorkqueue.workList (hqueues q)
  constructor
  · intro w
    simp [hlist, pending, hworks w, rtWorkInit]
  · simp [hlist]
  · simp [hlist]

theorem workStep_ok (hok : FlagsOk s) (hs : workStep s a = some s') : FlagsOk s' ↔ KeepsFlags s a := by
  have hfst : ∀ {r : Option (WorkState κ ω × RtErr)}, r.map Prod.fst = some s' → ∃ e, r = some (s', e) := by
    intro r hr
    obtain ⟨⟨s₁, e⟩, rfl, rfl⟩ := Option.map_eq_some_iff.mp hr
    exact ⟨e, rfl⟩
  cases a with
  | dowork q w =>
    obtain ⟨e, hs⟩ := hfst hs
    exact iff_of_true (submitWork_ok hok hs) trivial
  | submit q w time =>
    obtain ⟨e, hs⟩ := hfst hs
    exact iff_of_true (rtWorkqueueSubmitWork_ok hok hs) trivial
  | critical q w =>
    obtain rfl := Option.some.inj hs
    exact rtWorkqueueCriticalWork_ok hok
  | cancel q w =>
    obtain ⟨e, hs⟩ := hfst hs
    exact iff_of_true (rtWorkqueueCancelWork_ok hok hs) trivial
  | cancelAll q =>
    obtain rfl := Option.some.inj hs
    exact rtWorkqueueCancelAllWork_ok hok
  | timeout w =>
    obtain ⟨-, hs⟩ := Option.ite_none_right_eq_some.mp hs
    obtain ⟨e, hs⟩ := hfst hs
    exact iff_of_true (delayedWorkTimeoutHandler_ok hok hs) trivial
  | thread q => exact iff_of_true (threadStep_ok hok hs) trivial

/-- In a run, `PENDING` is set for exactly the works that are linked, each of them once, in every state reached, if
and only if each step keeps the flags: a work is made critical only when it is linked already or being run, and all
works of a queue are cancelled only when there are none. -/
theorem pending_iff_linked (hrun : (workSystem κ ω).Run h s) :
    (Throughout (fun _ s _ => FlagsOk s) h ∧ FlagsOk s) ↔ Throughout (fun _ s a => KeepsFlags s a) h := by
  refine hrun.throughout_iff ?_ ?_
  · rintro s ⟨hworks, hqueues⟩
    exact init_ok hworks hqueues
  · intro h s a s' _ hok hs
    exact workStep_ok hok hs

end steps

/-- Two queues and two works. -/
def newQueues : WorkState (Fin 2) (Fin 2) := ⟨fun _ => rtWorkInit, fun _ => rtWorkqueueCreate⟩

/-- A work is submitted and made critical, another one is submitted with a delay to the other queue, and both are run;
a third submission is cancelled. -/
theorem pending_iff_linked_run : ∃ h s, (workSystem (Fin 2) (Fin 2)).Run h s ∧ h.length = 11 ∧
    Throughout (fun _ s _ => FlagsOk s) h := by
  obtain ⟨h, s, hrun, hlen, hkeeps⟩ := System.exists_run (S := workSystem (Fin 2) (Fin 2)) (s := newQueues)
    ⟨fun _ => rfl, fun _ => rfl⟩
    [.thread 0, .submit 0 0 0, .critical 0 0, .thread 0, .submit 1 1 5, .timeout 1, .thread 0, .thread 1, .submit 0 0 0,
      .cancel 0 0, .cancelAll 0]
    (fun h s => h.length = 11 ∧ Throughout (fun _ s a => KeepsFlags s a) h) (by decide +kernel)
  exact ⟨h, s, hrun, hlen, ((pending_iff_linked hrun).mpr hkeeps).1⟩

/-- A critical work is linked and does not have `PENDING` set. The works that are cancelled all together have `PENDING`
set and are linked nowhere, and are refused afterwards. -/
theorem flag_not_linked :
    (∃ h s, (workSystem (Fin 2) (Fin 2)).Run h s ∧ s.list 0 = [0] ∧ s.pending 0 = false) ∧
    ∃ h s, (workSystem (Fin 2) (Fin 2)).Run h s ∧ s.list 0 = [] ∧ s.list 1 = [] ∧ s.pending 0 = true ∧
      (s.rtWorkqueueSubmitWork 0 0 0).map Prod.snd = some .ebusy := by
  constructor
  · exact System.exists_run (S := workSystem (Fin 2) (Fin 2)) (s := newQueues) ⟨fun _ => rfl, fun _ => rfl⟩
      [.critical 0 0] _ (by decide +kernel)
  · exact System.exists_run (S := workSystem (Fin 2) (Fin 2)) (s := newQueues) ⟨fun _ => rfl, fun _ => rfl⟩
      [.submit 0 0 0, .cancelAll 0] _ (by decide +kernel)

end ThyristorController.WorkFlags
