import Mathlib.Data.Fintype.Basic
import Mathlib.Data.List.Basic
import Mathlib.Data.List.Nodup
import ThyristorController.Lib.Run

/-!
# The work queue

Any number of threads and interrupts submit works to one work queue and cancel them, its thread takes them from the
list, and the timer thread submits the delayed ones. A step is a critical section, a call of the kernel or a test that
is made outside the critical sections.

The queue's thread tests the list, suspends itself and takes the first work in separate steps, and a submission resumes
it behind its critical section, so that a resume may come too early or too late. `work_queue_runs` says what holds in
the runs without such a resume and without a cancellation that comes too late.
-/

namespace ThyristorController.WorkQueues

open Transition

/-! ## Works, calls and the queue's thread -/

/-- The timer of a work: no timer object, one that is stopped, or one that is running. -/
inductive WorkTimer where
  | detached | stopped | activated
  deriving DecidableEq

/-- A work: the flags `PENDING` and `SUBMITTING`, the type `DELAYED`, whether `workqueue` is the queue or null. -/
structure RtWork where
  pending : Bool
  submitting : Bool
  delayed : Bool
  workqueue : Bool
  timer : WorkTimer
  deriving DecidableEq

def rtWorkInit : RtWork := ⟨false, false, false, false, .detached⟩

/-- Who cancels: `rt_workqueue_cancel_work`, for a work that is not of the type `DELAYED` or for one that is, or a
submission with `ticks`. -/
inductive CancelBy where
  | direct | user
  | submit (ticks : Nat)
  deriving DecidableEq

/-- Where a call is. A failed assertion and an access through a null pointer halt the thread. -/
inductive CallPc (ω : Type) where
  | idle | halted
  /-- `rt_workqueue_submit_work` tests the type. -/
  | testType (w : ω) (ticks : Nat)
  /-- The critical section of `_workqueue_submit_work`; `queue` is its argument, `byTimer` whether the timeout handler
  calls it. -/
  | submitWork (queue byTimer : Bool) (w : ω)
  | resumeThread
  /-- `_workqueue_submit_delayed_work`. -/
  | submitDelayed (w : ω) (ticks : Nat)
  | attach (w : ω) (ticks : Nat)
  | addTimeout (w : ω)
  | startTimer (w : ω)
  /-- `work->workqueue` is read, as the argument of `_workqueue_submit_work`. -/
  | readQueue (byTimer : Bool) (w : ω)
  /-- `rt_workqueue_cancel_work` tests the type. -/
  | testCancel (w : ω)
  /-- The critical section of `_workqueue_cancel_work`; `queue` is its argument. -/
  | cancelWork (queue : Bool) (by' : CancelBy) (w : ω)
  /-- `_workqueue_cancel_delayed_work`. -/
  | cancelDelayed (by' : CancelBy) (w : ω)
  | testPending (by' : CancelBy) (w : ω)
  /-- `work->workqueue` is read, as the argument of `_workqueue_cancel_work`. -/
  | readCancel (by' : CancelBy) (w : ω)
  | testSubmitting (by' : CancelBy) (w : ω)
  | stopTimer (by' : CancelBy) (w : ω)
  | detach (by' : CancelBy) (w : ω)
  /-- `_delayed_work_timeout_handler`. -/
  | timeoutHandler (w : ω)
  deriving DecidableEq

/-- Where `_workqueue_thread_entry` is. -/
inductive ThreadPc (ω : Type) where
  | test | suspend | schedule | take
  | run (w : ω)
  | halted
  deriving DecidableEq

structure QueueState (τ ω : Type) where
  works : ω → RtWork
  workList : List ω
  workCurrent : Option ω
  thread : ThreadPc ω
  /-- The queue's thread has suspended itself and has not been resumed since. -/
  suspended : Bool
  pc : τ → CallPc ω

variable {τ ω : Type} [DecidableEq τ] [DecidableEq ω]

namespace QueueState

def setPc (s : QueueState τ ω) (t : τ) (pc : CallPc ω) : QueueState τ ω :=
  { s with pc := Function.update s.pc t pc }

def setWork (s : QueueState τ ω) (w : ω) (v : RtWork) : QueueState τ ω :=
  { s with works := Function.update s.works w v }

/-- `rt_list_remove`; a node that is in no list stays so. -/
def listRemove (s : QueueState τ ω) (w : ω) : QueueState τ ω := { s with workList := s.workList.erase w }

/-! ## Submission -/

/-- The critical section of `_workqueue_submit_work`. -/
def submitWork (s : QueueState τ ω) (t : τ) (queue : Bool) (w : ω) : QueueState τ ω :=
  if (s.works w).pending then s.setPc t .idle
  else if !queue then s.setPc t .halted
  else if s.workCurrent = some w then s.setPc t .idle
  else
    let s' := { (s.listRemove w).setWork w { s.works w with pending := true } with
      workList := s.workList.erase w ++ [w] }
    s'.setPc t (if s.workCurrent = none then .resumeThread else .idle)

/-- `rt_thread_resume`: it fails for a thread that is not suspended. -/
def resumeThread (s : QueueState τ ω) : QueueState τ ω := { s with suspended := false }

def addTimeout (s : QueueState τ ω) (t : τ) (w : ω) : QueueState τ ω :=
  if (s.works w).timer = .detached then
    (s.setWork w { s.works w with submitting := true, timer := .stopped }).setPc t (.startTimer w)
  else (s.setWork w { s.works w with submitting := true }).setPc t .halted

def startTimer (s : QueueState τ ω) (t : τ) (w : ω) : QueueState τ ω :=
  if (s.works w).timer = .detached then s.setPc t .halted
  else (s.setWork w { s.works w with timer := .activated }).setPc t .idle

/-- `rt_timer_stop` and `rt_timer_detach` in the critical section of the timeout handler. -/
def timeoutHandler (s : QueueState τ ω) (t : τ) (w : ω) : QueueState τ ω :=
  if (s.works w).timer = .detached then s.setPc t .halted
  else
    (s.setWork w { s.works w with timer := .detached, submitting := false, delayed := false }).setPc t
      (.readQueue true w)

/-! ## Cancellation -/

/-- The critical section of `_workqueue_cancel_work`. -/
def cancelWork (s : QueueState τ ω) (t : τ) (queue : Bool) (by' : CancelBy) (w : ω) : QueueState τ ω :=
  if !queue then s.setPc t .halted
  else if s.workCurrent = some w then s.setPc t .idle
  else
    ((s.listRemove w).setWork w { s.works w with pending := false }).setPc t
      (if by' = .direct then .idle else .detach by' w)

def stopTimer (s : QueueState τ ω) (t : τ) (by' : CancelBy) (w : ω) : QueueState τ ω :=
  if (s.works w).timer = .detached then s.setPc t .halted
  else (s.setWork w { s.works w with timer := .detached, submitting := false }).setPc t (.detach by' w)

/-- The last critical section of `_workqueue_cancel_delayed_work`. -/
def detach (s : QueueState τ ω) (t : τ) (by' : CancelBy) (w : ω) : QueueState τ ω :=
  (s.setWork w { s.works w with workqueue := false, pending := false }).setPc t
    (match by' with
    | .submit ticks => .attach w ticks
    | _ => .idle)

/-! ## The steps -/

/-- The next step of the call of `t`. -/
def goOn (s : QueueState τ ω) (t : τ) : Option (QueueState τ ω) :=
  match s.pc t with
  | .idle | .halted => none
  | .testType w ticks =>
    some (s.setPc t (if (s.works w).delayed then .submitDelayed w ticks else .submitWork true false w))
  | .submitWork queue _ w => some (s.submitWork t queue w)
  | .resumeThread => some (s.resumeThread.setPc t .idle)
  | .submitDelayed w ticks =>
    some (s.setPc t (if (s.works w).workqueue then .cancelDelayed (.submit ticks) w else .attach w ticks))
  | .attach w ticks =>
    some ((s.setWork w { s.works w with workqueue := true }).setPc t
      (if ticks = 0 then .readQueue false w else .addTimeout w))
  | .addTimeout w => some (s.addTimeout t w)
  | .startTimer w => some (s.startTimer t w)
  | .readQueue byTimer w => some (s.setPc t (.submitWork (s.works w).workqueue byTimer w))
  | .testCancel w =>
    some (s.setPc t (if (s.works w).delayed then .cancelDelayed .user w else .cancelWork true .direct w))
  | .cancelWork queue by' w => some (s.cancelWork t queue by' w)
  | .cancelDelayed by' w => some (s.setPc t (if (s.works w).workqueue then .testPending by' w else .idle))
  | .testPending by' w =>
    some (s.setPc t (if (s.works w).pending then .readCancel by' w else .testSubmitting by' w))
  | .readCancel by' w => some (s.setPc t (.cancelWork (s.works w).workqueue by' w))
  | .testSubmitting by' w =>
    some (s.setPc t (if (s.works w).submitting then .stopTimer by' w else .detach by' w))
  | .stopTimer by' w => some (s.stopTimer t by' w)
  | .detach by' w => some (s.detach t by' w)
  | .timeoutHandler w => some (s.timeoutHandler t w)

/-- The next step of `_workqueue_thread_entry`. The completion of a work leaves the semaphore at zero and has no step
of its own. The first work of an empty list is the list's head, which is not a work. -/
def threadStep (s : QueueState τ ω) : Option (QueueState τ ω) :=
  match s.thread with
  | .test => some { s with thread := if s.workList = [] then .suspend else .take }
  | .suspend => some { s with thread := .schedule, suspended := true }
  | .schedule => if s.suspended then none else some { s with thread := .take }
  | .take =>
    match s.workList with
    | [] => some { s with thread := .halted }
    | w :: _ =>
      some { (s.listRemove w).setWork w { s.works w with pending := false, workqueue := false } with
        workCurrent := some w, thread := .run w }
  | .run _ => some { s with workCurrent := none, thread := .test }
  | .halted => none

end QueueState

/-- The calls of the threads and interrupts, and the steps of what has been called. `timeout w`: the timer thread
finds that the timer of `w` has expired and calls its timeout function. -/
inductive QueueAction (τ ω : Type) where
  | dowork (t : τ) (w : ω)
  | submit (t : τ) (w : ω) (ticks : Nat)
  | cancel (t : τ) (w : ω)
  | goOn (t : τ)
  | timeout (w : ω)
  | thread
  deriving DecidableEq

/-- One step; `timer` is the timer thread. -/
def queueStep (timer : τ) (s : QueueState τ ω) : QueueAction τ ω → Option (QueueState τ ω)
  | .dowork t w => if s.pc t = .idle then some (s.setPc t (.submitWork true false w)) else none
  | .submit t w ticks =>
    if s.pc t = .idle then
      some ((s.setWork w { s.works w with delayed := (s.works w).delayed || ticks != 0 }).setPc t (.testType w ticks))
    else none
  | .cancel t w => if s.pc t = .idle then some (s.setPc t (.testCancel w)) else none
  | .goOn t => s.goOn t
  | .timeout w =>
    if s.pc timer = .idle ∧ (s.works w).timer = .activated then
      some ((s.setWork w { s.works w with timer := .stopped }).setPc timer (.timeoutHandler w))
    else none
  | .thread => s.threadStep

/-- `rt_workqueue_create`, and works that have been initialised. -/
def workQueue (τ ω : Type) [DecidableEq τ] [DecidableEq ω] (timer : τ) :
    System (QueueState τ ω) (QueueAction τ ω) where
  init s := (∀ w, s.works w = rtWorkInit) ∧ s.workList = [] ∧ s.workCurrent = none ∧ s.thread = .test ∧
    s.suspended = false ∧ ∀ t, s.pc t = .idle
  step := queueStep timer

/-! ## Submissions and cancellations of a run -/

/-- The step accepts a submission of `w`: `_workqueue_submit_work` returns `RT_EOK` to a user, or the timer of a
delayed work is started. -/
def accepted (s : QueueState τ ω) (w : ω) : QueueAction τ ω → Bool
  | .goOn t =>
    match s.pc t with
    | .submitWork true false v => v = w && !(s.works w).pending && s.workCurrent ≠ some w
    | .startTimer v => v = w && (s.works w).timer ≠ .detached
    | _ => false
  | _ => false

/-- With the step, a call of `rt_workqueue_cancel_work` for `w` succeeds. -/
def cancelled (s : QueueState τ ω) (w : ω) : QueueAction τ ω → Bool
  | .goOn t =>
    match s.pc t with
    | .cancelWork true .direct v => v = w && s.workCurrent ≠ some w
    | .detach .user v => v = w
    | _ => false
  | _ => false

/-- The step takes the first entry of the list. -/
def takes (s : QueueState τ ω) (a : QueueAction τ ω) : Prop := a = .thread ∧ s.thread = .take

instance (s : QueueState τ ω) (a : QueueAction τ ω) : Decidable (takes s a) := by
  unfold takes
  infer_instance

/-- How many submissions of `w` have been neither cancelled nor run. -/
def submissions (w : ω) : History (QueueState τ ω) (QueueAction τ ω) → Nat
  | [] => 0
  | (s, a) :: h =>
    if cancelled s w a then 0
    else if accepted s w a then submissions w h + 1
    else if takes s a ∧ s.workList.head? = some w then submissions w h - 1
    else submissions w h

/-! ## The condition -/

/-- The timeout handler of `w` is under way in this call. -/
def CallPc.handles (w : ω) : CallPc ω → Bool
  | .timeoutHandler v | .readQueue true v | .submitWork _ true v => v = w
  | _ => false

/-- The queue's thread has found a work, or has been resumed: it will take the first entry of the list. -/
def QueueState.AboutToTake (s : QueueState τ ω) : Prop :=
  s.thread = .take ∨ (s.thread = .schedule ∧ s.suspended = false)

instance (s : QueueState τ ω) : Decidable s.AboutToTake := by
  unfold QueueState.AboutToTake
  infer_instance

/-- The timer of `w` is not running, and its timeout handler is not under way. -/
def QueueState.TimerOff (timer : τ) (s : QueueState τ ω) (w : ω) : Prop :=
  (s.works w).timer ≠ .activated ∧ (s.pc timer).handles w = false

instance (timer : τ) (s : QueueState τ ω) (w : ω) : Decidable (s.TimerOff timer w) := by
  unfold QueueState.TimerOff
  infer_instance

/-- The next step of the call of `t`, at `pc`, meets neither a test of the queue's thread nor a timeout. A submission
that resumes the thread finds it still waiting for a work, and does not resume it between its test and its suspension,
or another submission is still to resume it. A cancellation does not remove the only work when the thread is about to
take it, and when it succeeds, the work is neither in the list nor about to be submitted by its timer. -/
def ProperCall (timer : τ) (s : QueueState τ ω) (t : τ) : CallPc ω → Prop
  | .resumeThread =>
    (s.suspended → s.workList ≠ []) ∧
      (s.thread = .suspend → s.workList ≠ [] → ∃ u, u ≠ t ∧ s.pc u = .resumeThread)
  | .cancelWork queue _ w =>
    (queue → s.AboutToTake → s.workList.erase w ≠ []) ∧ (cancelled s w (.goOn t) → s.TimerOff timer w)
  | .detach .user w => s.TimerOff timer w ∧ w ∉ s.workList
  | _ => True

def Proper (timer : τ) (s : QueueState τ ω) : QueueAction τ ω → Prop
  | .goOn t => ProperCall timer s t (s.pc t)
  | _ => True

/-! ## The invariant -/

/-- How often `w` may still be run: it is in the list, its timer is running, its timeout handler is under way. -/
def QueueState.held (timer : τ) (s : QueueState τ ω) (w : ω) : Nat :=
  (if w ∈ s.workList then 1 else 0) + (if (s.works w).timer = .activated then 1 else 0) +
    if (s.pc timer).handles w then 1 else 0

structure Ok (timer : τ) (h : History (QueueState τ ω) (QueueAction τ ω)) (s : QueueState τ ω) : Prop where
  suspended : s.suspended = true → s.thread = .schedule
  nonempty : s.AboutToTake → s.workList ≠ []
  waked : s.workList ≠ [] → s.suspended = true ∨ s.thread = .suspend → ∃ t, s.pc t = .resumeThread
  current : s.workCurrent ≠ none → ∃ w, s.thread = .run w
  nodup : s.workList.Nodup
  handles : ∀ t w, (s.pc t).handles w = true → t = timer
  held : ∀ w, s.held timer w ≤ submissions w h

section steps

variable {timer t : τ} {w : ω} {s s' : QueueState τ ω} {a : QueueAction τ ω} {pc : CallPc ω}
  {h : History (QueueState τ ω) (QueueAction τ ω)}

omit [DecidableEq ω] in
@[simp] theorem setPc_self (s : QueueState τ ω) (t : τ) (pc : CallPc ω) : (s.setPc t pc).pc t = pc :=
  Function.update_self _ _ _

omit [DecidableEq ω] in
theorem setPc_of_ne {u : τ} (s : QueueState τ ω) (pc : CallPc ω) (hu : u ≠ t) : (s.setPc t pc).pc u = s.pc u :=
  Function.update_of_ne hu _ _

omit [DecidableEq τ] in
theorem setWork_of_ne {x : ω} (s : QueueState τ ω) (v : RtWork) (hx : x ≠ w) :
    (s.setWork w v).works x = s.works x :=
  Function.update_of_ne hx _ _

theorem submissions_cons (ha : accepted s w a = false) (hc : cancelled s w a = false)
    (ht : takes s a → s.workList.head? ≠ some w) : submissions w ((s, a) :: h) = submissions w h := by
  have hnot : ¬ (takes s a ∧ s.workList.head? = some w) := fun ⟨htake, hhead⟩ => ht htake hhead
  simp only [submissions, ha, hc, if_neg hnot, Bool.false_eq_true, if_false]

theorem submissions_accepted (ha : accepted s w a = true) (hc : cancelled s w a = false) :
    submissions w ((s, a) :: h) = submissions w h + 1 := by
  simp only [submissions, ha, hc, Bool.false_eq_true, if_false, if_true]

omit [DecidableEq τ] [DecidableEq ω] in
theorem not_takes (ha : a ≠ .thread) : ¬ takes s a := fun ⟨he, _⟩ => ha he

/-! ### How often a work may still be run -/

omit [DecidableEq τ] [DecidableEq ω] in
theorem ite_mono {p q : Prop} [Decidable p] [Decidable q] (hpq : p → q) :
    (if p then 1 else 0) ≤ if q then 1 else 0 := by
  by_cases hp : p
  · rw [if_pos hp, if_pos (hpq hp)]
  · rw [if_neg hp]
    exact Nat.zero_le _

omit [DecidableEq τ] in
theorem held_mono (hlist : w ∈ s'.workList → w ∈ s.workList)
    (htimer : (s'.works w).timer = .activated → (s.works w).timer = .activated)
    (hhandles : (s'.pc timer).handles w = true → (s.pc timer).handles w = true) :
    s'.held timer w ≤ s.held timer w :=
  Nat.add_le_add (Nat.add_le_add (ite_mono hlist) (ite_mono htimer)) (ite_mono hhandles)

omit [DecidableEq τ] in
theorem held_removed (hwas : w ∈ s.workList) (hgone : w ∉ s'.workList)
    (htimer : (s'.works w).timer = .activated → (s.works w).timer = .activated)
    (hhandles : (s'.pc timer).handles w = true → (s.pc timer).handles w = true) :
    s'.held timer w < s.held timer w := by
  have htimer := ite_mono htimer
  have hhandles := ite_mono hhandles
  unfold QueueState.held
  rw [if_pos hwas, if_neg hgone]
  omega

omit [DecidableEq τ] in
theorem held_started (hlist : w ∈ s'.workList → w ∈ s.workList)
    (hhandles : (s'.pc timer).handles w = true → (s.pc timer).handles w = true) :
    s'.held timer w ≤ s.held timer w + 1 := by
  have hlist := ite_mono hlist
  have hhandles := ite_mono hhandles
  have htimer : (if (s'.works w).timer = .activated then 1 else 0) ≤ 1 := by
    split_ifs
    · exact Nat.le_refl 1
    · exact Nat.zero_le 1
  unfold QueueState.held
  omega

omit [DecidableEq τ] in
theorem timer_update {works : ω → RtWork} {v : RtWork} {x : ω}
    (hv : v.timer = .activated → (works w).timer = .activated)
    (hx : (Function.update works w v x).timer = .activated) : (works x).timer = .activated := by
  by_cases he : x = w
  · subst he
    rw [Function.update_self] at hx
    exact hv hx
  · rwa [Function.update_of_ne he] at hx

theorem handles_update {calls : τ → CallPc ω} {u : τ} {x : ω}
    (hpc : pc.handles x = true → (calls t).handles x = true)
    (hx : (Function.update calls t pc u).handles x = true) : (calls u).handles x = true := by
  by_cases he : u = t
  · subst he
    rw [Function.update_self] at hx
    exact hpc hx
  · rwa [Function.update_of_ne he] at hx

/-! ### The steps of the calls -/

theorem Ok.call (hok : Ok timer h s) (ht : s.pc t ≠ .resumeThread) (hthread : s'.thread = s.thread)
    (hsuspended : s'.suspended = s.suspended) (hcurrent : s'.workCurrent = s.workCurrent)
    (hpc : ∀ u, u ≠ t → s'.pc u = s.pc u) (hhandles : ∀ w, (s'.pc t).handles w = true → t = timer)
    (hnodup : s'.workList.Nodup) (habout : s.AboutToTake → s'.workList ≠ [])
    (hwaked : s'.workList ≠ [] → s.workList = [] → s'.pc t = .resumeThread ∨ s.workCurrent ≠ none)
    (hheld : ∀ w, s'.held timer w ≤ submissions w ((s, a) :: h)) : Ok timer ((s, a) :: h) s' where
  suspended hs := by
    rw [hsuspended] at hs
    rw [hthread]
    exact hok.suspended hs
  nonempty hs := by
    apply habout
    unfold QueueState.AboutToTake at hs ⊢
    rwa [hthread, hsuspended] at hs
  waked hne hs := by
    rw [hthread, hsuspended] at hs
    by_cases hempty : s.workList = []
    · rcases hwaked hne hempty with hres | hcur
      · exact ⟨t, hres⟩
      · -- while a work is run, the thread is neither suspended nor about to be
        obtain ⟨v, hrun⟩ := hok.current hcur
        rcases hs with hs | hs
        · have hsched := hok.suspended hs
          rw [hrun] at hsched
          contradiction
        · rw [hrun] at hs
          contradiction
    · obtain ⟨u, hu⟩ := hok.waked hempty hs
      have hne' : u ≠ t := by
        rintro rfl
        exact ht hu
      exact ⟨u, (hpc u hne').trans hu⟩
  current hs := by
    rw [hcurrent] at hs
    rw [hthread]
    exact hok.current hs
  nodup := hnodup
  handles u w hu := by
    by_cases hut : u = t
    · subst hut
      exact hhandles w hu
    · rw [hpc u hut] at hu
      exact hok.handles u w hu
  held := hheld

/-- The step of a call that leaves the list alone, and starts no timer and no handler. -/
theorem Ok.quiet {v : RtWork} (hok : Ok timer h s) (ht : s.pc t ≠ .resumeThread)
    (htimer : v.timer = .activated → (s.works w).timer = .activated)
    (hhandles : ∀ x, pc.handles x = true → (s.pc t).handles x = true)
    (hsub : ∀ x, submissions x ((s, a) :: h) = submissions x h) :
    Ok timer ((s, a) :: h) ((s.setWork w v).setPc t pc) := by
  refine Ok.call (t := t) hok ht ?_ ?_ ?_ ?_ ?_ hok.nodup hok.nonempty ?_ ?_
  · rfl
  · rfl
  · rfl
  · intro u hu
    exact setPc_of_ne _ _ hu
  · intro x hx
    rw [setPc_self] at hx
    exact hok.handles t x (hhandles x hx)
  · intro hne hempty
    exact absurd hempty hne
  · intro x
    rw [hsub]
    refine Nat.le_trans ?_ (hok.held x)
    exact held_mono id (timer_update htimer) (handles_update (hhandles x))

theorem Ok.setPc (hok : Ok timer h s) (ht : s.pc t ≠ .resumeThread)
    (hhandles : ∀ x, pc.handles x = true → (s.pc t).handles x = true)
    (hsub : ∀ x, submissions x ((s, a) :: h) = submissions x h) : Ok timer ((s, a) :: h) (s.setPc t pc) := by
  refine Ok.call (t := t) hok ht ?_ ?_ ?_ ?_ ?_ hok.nodup hok.nonempty ?_ ?_
  · rfl
  · rfl
  · rfl
  · intro u hu
    exact setPc_of_ne _ _ hu
  · intro x hx
    rw [setPc_self] at hx
    exact hok.handles t x (hhandles x hx)
  · intro hne hempty
    exact absurd hempty hne
  · intro x
    rw [hsub]
    refine Nat.le_trans ?_ (hok.held x)
    exact held_mono id id (handles_update (hhandles x))

omit [DecidableEq τ] in
theorem accepted_submitWork {queue byTimer : Bool} (ht : s.pc t = .submitWork queue byTimer w) (x : ω) :
    accepted s x (.goOn t) = true ↔ queue = true ∧ byTimer = false ∧ w = x ∧ (s.works x).pending = false ∧
      s.workCurrent ≠ some x := by
  simp only [accepted, ht]
  cases queue with
  | false => simp
  | true =>
    cases byTimer with
    | true => simp
    | false => simp [and_assoc]

omit [DecidableEq τ] in
theorem cancelled_submitWork {queue byTimer : Bool} (ht : s.pc t = .submitWork queue byTimer w) (x : ω) :
    cancelled s x (.goOn t) = false := by
  simp only [cancelled, ht]

theorem submissions_goOn (ha : ¬ accepted s w (.goOn t) = true) (hc : cancelled s w (.goOn t) = false) :
    submissions w ((s, .goOn t) :: h) = submissions w h := by
  apply submissions_cons (Bool.eq_false_iff.mpr ha) hc
  intro htake
  exact absurd htake (not_takes fun he => by contradiction)

theorem Ok.refused {queue byTimer : Bool} (hok : Ok timer h s) (ht : s.pc t = .submitWork queue byTimer w)
    (hrefused : (s.works w).pending = true ∨ queue = false ∨ s.workCurrent = some w)
    (hpc : ∀ x, pc.handles x = false) :
    Ok timer ((s, .goOn t) :: h) (s.setPc t pc) := by
  apply hok.setPc
  · rw [ht]
    exact fun he => by contradiction
  · intro x hx
    rw [hpc x] at hx
    contradiction
  · intro x
    apply submissions_goOn _ (cancelled_submitWork ht x)
    rw [accepted_submitWork ht]
    rintro ⟨hqueue, -, rfl, hpend, hcur⟩
    rcases hrefused with hp | hq | hc
    · rw [hpend] at hp
      contradiction
    · rw [hqueue] at hq
      contradiction
    · exact hcur hc

theorem held_submit {queue byTimer : Bool} (hok : Ok timer h s) (ht : s.pc t = .submitWork queue byTimer w)
    (hqueue : queue = true) (hpend : (s.works w).pending = false) (hcur : s.workCurrent ≠ some w)
    (hlist : ∀ x, x ≠ w → x ∈ s'.workList → x ∈ s.workList)
    (htimer : ∀ x, (s'.works x).timer = .activated → (s.works x).timer = .activated)
    (hpc : ∀ u, u ≠ t → s'.pc u = s.pc u) (hidle : ∀ x, (s'.pc t).handles x = false) (x : ω) :
    s'.held timer x ≤ submissions x ((s, .goOn t) :: h) := by
  have hhandles : ∀ x, (s'.pc timer).handles x = true → (s.pc timer).handles x = true := by
    intro x hx
    by_cases he : timer = t
    · rw [he, hidle x] at hx
      contradiction
    · rwa [hpc timer he] at hx
  have hold := hok.held x
  by_cases hx : x = w
  · subst hx
    have hone : (if x ∈ s'.workList then 1 else 0) ≤ 1 := by
      by_cases hmem : x ∈ s'.workList
      · rw [if_pos hmem]
      · rw [if_neg hmem]
        exact Nat.zero_le 1
    have hactive := ite_mono (htimer x)
    have hhandle := ite_mono (hhandles x)
    unfold QueueState.held at hold ⊢
    cases byTimer with
    | false =>
      rw [submissions_accepted ((accepted_submitWork ht x).mpr ⟨hqueue, rfl, rfl, hpend, hcur⟩)
        (cancelled_submitWork ht x)]
      omega
    | true =>
      -- the handler that was under way becomes the entry of the list
      have hown : t = timer := hok.handles t x (by simp [ht, CallPc.handles])
      have hwas : (s.pc timer).handles x = true := by simp [← hown, ht, CallPc.handles]
      have hnow : (s'.pc timer).handles x = false := hown ▸ hidle x
      rw [submissions_goOn (fun ha => by simpa using (accepted_submitWork ht x).mp ha) (cancelled_submitWork ht x)]
      rw [if_pos hwas] at hold
      rw [hnow, if_neg Bool.false_ne_true]
      omega
  · rw [submissions_goOn (fun ha => hx ((accepted_submitWork ht x).mp ha).2.2.1.symm) (cancelled_submitWork ht x)]
    exact Nat.le_trans (held_mono (hlist x hx) (htimer x) (hhandles x)) hold

theorem step_submitWork {queue byTimer : Bool} (hok : Ok timer h s) (ht : s.pc t = .submitWork queue byTimer w) :
    Ok timer ((s, .goOn t) :: h) (s.submitWork t queue w) := by
  unfold QueueState.submitWork
  by_cases hpend : (s.works w).pending = true
  · rw [if_pos hpend]
    exact hok.refused ht (.inl hpend) fun x => rfl
  rw [if_neg hpend]
  by_cases hqueue : queue = true
  swap
  · rw [if_pos (by simpa using hqueue)]
    exact hok.refused ht (.inr (.inl (by simpa using hqueue))) fun x => rfl
  rw [if_neg (by simpa using hqueue)]
  by_cases hcur : s.workCurrent = some w
  · rw [if_pos hcur]
    exact hok.refused ht (.inr (.inr hcur)) fun x => rfl
  rw [if_neg hcur]
  dsimp only
  have hidle : ∀ x, (if s.workCurrent = none then (.resumeThread : CallPc ω) else .idle).handles x = false := by
    intro x
    split_ifs <;> rfl
  refine Ok.call (t := t) hok ?_ ?_ ?_ ?_ ?_ ?_ ?_ ?_ ?_ ?_
  · rw [ht]
    exact fun he => by contradiction
  · rfl
  · rfl
  · rfl
  · intro u hu
    exact setPc_of_ne _ _ hu
  · intro x hx
    rw [setPc_self, hidle x] at hx
    contradiction
  · show (s.workList.erase w ++ [w]).Nodup
    rw [List.nodup_append]
    refine ⟨hok.nodup.erase w, List.nodup_singleton w, ?_⟩
    intro x hx y hy
    rw [List.mem_singleton] at hy
    rintro rfl
    subst hy
    exact hok.nodup.not_mem_erase hx
  · intro _
    exact List.append_ne_nil_of_right_ne_nil _ (List.cons_ne_nil _ _)
  · intro _ _
    rw [setPc_self]
    by_cases hnone : s.workCurrent = none
    · exact .inl (if_pos hnone)
    · exact .inr hnone
  · apply held_submit hok ht hqueue (by simpa using hpend) hcur
    · intro x hx hmem
      rcases List.mem_append.mp hmem with hmem | hmem
      · exact List.mem_of_mem_erase hmem
      · exact absurd (List.mem_singleton.mp hmem) hx
    · intro x hx
      have hkeep : ({ s.works w with pending := true } : RtWork).timer = .activated →
          (s.works w).timer = .activated := fun hv => hv
      exact timer_update hkeep hx
    · intro u hu
      exact setPc_of_ne _ _ hu
    · intro x
      rw [setPc_self]
      exact hidle x

omit [DecidableEq τ] in
theorem held_cancelled (hnot : w ∉ s'.workList) (hoff : s'.TimerOff timer w) : s'.held timer w = 0 := by
  unfold QueueState.held
  rw [if_neg hnot, if_neg hoff.1, if_neg (Bool.eq_false_iff.mp hoff.2)]

omit [DecidableEq τ] in
/-- A timer that is off stays off, unless it is started or its handler runs. -/
theorem timerOff_mono (hoff : s.TimerOff timer w)
    (htimer : (s'.works w).timer = .activated → (s.works w).timer = .activated)
    (hhandles : (s'.pc timer).handles w = true → (s.pc timer).handles w = true) : s'.TimerOff timer w := by
  refine ⟨fun hx => hoff.1 (htimer hx), ?_⟩
  rw [← Bool.not_eq_true]
  intro hx
  exact Bool.false_ne_true (hoff.2.symm.trans (hhandles hx))

omit [DecidableEq τ] in
theorem accepted_cancelWork {queue : Bool} {by' : CancelBy} (ht : s.pc t = .cancelWork queue by' w) (x : ω) :
    accepted s x (.goOn t) = false := by
  simp only [accepted, ht]

omit [DecidableEq τ] in
theorem cancelled_cancelWork {queue : Bool} {by' : CancelBy} (ht : s.pc t = .cancelWork queue by' w) (x : ω) :
    cancelled s x (.goOn t) = true ↔ queue = true ∧ by' = .direct ∧ w = x ∧ s.workCurrent ≠ some x := by
  simp only [cancelled, ht]
  cases queue with
  | false => simp
  | true => cases by' <;> simp

theorem submissions_cancelled (hc : cancelled s w a = true) : submissions w ((s, a) :: h) = 0 := by
  simp only [submissions, hc, if_true]

theorem step_cancelWork {queue : Bool} {by' : CancelBy} (hok : Ok timer h s) (ht : s.pc t = .cancelWork queue by' w)
    (hP : Proper timer s (.goOn t)) : Ok timer ((s, .goOn t) :: h) (s.cancelWork t queue by' w) := by
  simp only [Proper, ProperCall, ht] at hP
  obtain ⟨hlast, hoff⟩ := hP
  have hne : s.pc t ≠ .resumeThread := by
    rw [ht]
    exact fun he => by contradiction
  have hsub : ∀ x, ¬ cancelled s x (.goOn t) = true → submissions x ((s, .goOn t) :: h) = submissions x h := by
    intro x hc
    exact submissions_goOn (Bool.eq_false_iff.mp (accepted_cancelWork ht x)) (Bool.eq_false_iff.mpr hc)
  unfold QueueState.cancelWork
  by_cases hqueue : queue = true
  swap
  · rw [if_pos (by simpa using hqueue)]
    apply hok.setPc hne (fun x hx => by contradiction)
    intro x
    exact hsub x fun hc => hqueue ((cancelled_cancelWork ht x).mp hc).1
  rw [if_neg (by simpa using hqueue)]
  by_cases hcur : s.workCurrent = some w
  · rw [if_pos hcur]
    apply hok.setPc hne (fun x hx => by contradiction)
    intro x
    apply hsub x
    intro hc
    obtain ⟨-, -, rfl, hc⟩ := (cancelled_cancelWork ht x).mp hc
    exact hc hcur
  rw [if_neg hcur]
  have hidle : ∀ x, (if by' = .direct then CallPc.idle else .detach by' w).handles x = false := by
    intro x
    split_ifs <;> rfl
  have hkeep : ({ s.works w with pending := false } : RtWork).timer = .activated →
      (s.works w).timer = .activated := fun hv => hv
  refine Ok.call (t := t) hok hne ?_ ?_ ?_ ?_ ?_ ?_ ?_ ?_ ?_
  · rfl
  · rfl
  · rfl
  · intro u hu
    exact setPc_of_ne _ _ hu
  · intro x hx
    rw [setPc_self, hidle x] at hx
    contradiction
  · exact hok.nodup.erase w
  · intro habout
    exact hlast hqueue habout
  · intro hlist hempty
    refine absurd ?_ hlist
    show s.workList.erase w = []
    rw [hempty]
    rfl
  · intro x
    have hmono : QueueState.held timer (((s.listRemove w).setWork w { s.works w with pending := false }).setPc t
        (if by' = .direct then .idle else .detach by' w)) x ≤ s.held timer x := by
      apply held_mono
      · exact List.mem_of_mem_erase
      · exact timer_update hkeep
      · apply handles_update
        intro hx
        rw [hidle x] at hx
        contradiction
    by_cases hc : cancelled s x (.goOn t) = true
    · rw [submissions_cancelled hc]
      obtain ⟨-, -, rfl, -⟩ := (cancelled_cancelWork ht x).mp hc
      apply Nat.le_of_eq
      apply held_cancelled
      · exact hok.nodup.not_mem_erase
      · apply timerOff_mono (hoff hc)
        · exact timer_update hkeep
        · apply handles_update
          rw [hidle w]
          exact fun hx => by contradiction
    · rw [hsub x hc]
      exact Nat.le_trans hmono (hok.held x)

theorem step_detach {by' : CancelBy} (hok : Ok timer h s) (ht : s.pc t = .detach by' w)
    (hP : Proper timer s (.goOn t)) : Ok timer ((s, .goOn t) :: h) (s.detach t by' w) := by
  have hidle : ∀ x, (match by' with
      | .submit ticks => (.attach w ticks : CallPc ω)
      | _ => .idle).handles x = false := by
    intro x
    cases by' <;> rfl
  have hkeep : ({ s.works w with workqueue := false, pending := false } : RtWork).timer = .activated →
      (s.works w).timer = .activated := fun hv => hv
  have haccepted : ∀ x, accepted s x (.goOn t) = false := by
    intro x
    simp only [accepted, ht]
  refine Ok.call (t := t) hok ?_ ?_ ?_ ?_ ?_ ?_ hok.nodup hok.nonempty ?_ ?_
  · rw [ht]
    exact fun he => by contradiction
  · rfl
  · rfl
  · rfl
  · intro u hu
    exact setPc_of_ne _ _ hu
  · intro x hx
    unfold QueueState.detach at hx
    rw [setPc_self, hidle x] at hx
    contradiction
  · intro hlist hempty
    exact absurd hempty hlist
  · intro x
    have hhandles : ((s.detach t by' w).pc timer).handles x = true → (s.pc timer).handles x = true := by
      apply handles_update
      intro hx
      rw [hidle x] at hx
      contradiction
    by_cases hc : cancelled s x (.goOn t) = true
    · rw [submissions_cancelled hc]
      have hby : by' = .user ∧ w = x := by
        simp only [cancelled, ht] at hc
        cases by' with
        | user => exact ⟨rfl, by simpa using hc⟩
        | direct => contradiction
        | submit ticks => contradiction
      obtain ⟨rfl, rfl⟩ := hby
      simp only [Proper, ProperCall, ht] at hP
      obtain ⟨hoff, hlist⟩ := hP
      apply Nat.le_of_eq
      apply held_cancelled
      · exact hlist
      · exact timerOff_mono hoff (timer_update hkeep) hhandles
    · rw [submissions_goOn (Bool.eq_false_iff.mp (haccepted x)) (Bool.eq_false_iff.mpr hc)]
      refine Nat.le_trans ?_ (hok.held x)
      exact held_mono (fun hx => hx) (timer_update hkeep) hhandles

theorem step_startTimer (hok : Ok timer h s) (ht : s.pc t = .startTimer w) :
    Ok timer ((s, .goOn t) :: h) (s.startTimer t w) := by
  have hne : s.pc t ≠ .resumeThread := by
    rw [ht]
    exact fun he => by contradiction
  have haccepted : ∀ x, accepted s x (.goOn t) = true ↔ w = x ∧ (s.works x).timer ≠ .detached := by
    intro x
    simp only [accepted, ht]
    simp
  have hcancelled : ∀ x, cancelled s x (.goOn t) = false := by
    intro x
    simp only [cancelled, ht]
  unfold QueueState.startTimer
  by_cases hdet : (s.works w).timer = .detached
  · rw [if_pos hdet]
    apply hok.setPc hne (fun x hx => by contradiction)
    intro x
    apply submissions_goOn _ (hcancelled x)
    rw [haccepted x]
    rintro ⟨rfl, hx⟩
    exact hx hdet
  rw [if_neg hdet]
  refine Ok.call (t := t) hok hne ?_ ?_ ?_ ?_ ?_ hok.nodup hok.nonempty ?_ ?_
  · rfl
  · rfl
  · rfl
  · intro u hu
    exact setPc_of_ne _ _ hu
  · intro x hx
    rw [setPc_self] at hx
    contradiction
  · intro hlist hempty
    exact absurd hempty hlist
  · intro x
    have hold := hok.held x
    have hhandles : (((s.setWork w { s.works w with timer := .activated }).setPc t .idle).pc timer).handles x = true →
        (s.pc timer).handles x = true :=
      handles_update fun hx => by contradiction
    by_cases hx : w = x
    · subst hx
      rw [submissions_accepted ((haccepted w).mpr ⟨rfl, hdet⟩) (hcancelled w)]
      refine Nat.le_trans ?_ (Nat.succ_le_succ hold)
      exact held_started (fun hm => hm) hhandles
    · rw [submissions_goOn (fun ha => hx ((haccepted x).mp ha).1) (hcancelled x)]
      refine Nat.le_trans ?_ hold
      refine held_mono (fun hm => hm) ?_ hhandles
      intro hact
      rwa [show ((s.setWork w { s.works w with timer := .activated }).setPc t .idle).works x = s.works x from
        setWork_of_ne _ _ (Ne.symm hx)] at hact

/-- The step neither submits nor cancels: it tests or changes a flag of a work. -/
def CallPc.flags : CallPc ω → Bool
  | .submitWork .. | .startTimer _ | .cancelWork .. | .detach .. | .resumeThread => false
  | _ => true

omit [DecidableEq τ] in
theorem no_event (hflags : (s.pc t).flags = true) (x : ω) :
    accepted s x (.goOn t) = false ∧ cancelled s x (.goOn t) = false := by
  cases ht : s.pc t with
  | submitWork queue byTimer w | startTimer w | cancelWork queue by' w | detach by' w =>
    rw [ht] at hflags
    contradiction
  | _ => simp only [accepted, cancelled, ht, and_self]

omit [DecidableEq τ] [DecidableEq ω] in
theorem not_resume (hflags : (s.pc t).flags = true) : s.pc t ≠ .resumeThread := by
  intro ht
  rw [ht] at hflags
  contradiction

theorem step_flag {v : RtWork} (hok : Ok timer h s) (hflags : (s.pc t).flags = true)
    (htimer : v.timer = .activated → (s.works w).timer = .activated)
    (hhandles : ∀ x, pc.handles x = true → (s.pc t).handles x = true) :
    Ok timer ((s, .goOn t) :: h) ((s.setWork w v).setPc t pc) := by
  apply hok.quiet (not_resume hflags) htimer hhandles
  intro x
  obtain ⟨ha, hc⟩ := no_event hflags x
  exact submissions_goOn (Bool.eq_false_iff.mp ha) hc

theorem step_test (hok : Ok timer h s) (hflags : (s.pc t).flags = true)
    (hhandles : ∀ x, pc.handles x = true → (s.pc t).handles x = true) :
    Ok timer ((s, .goOn t) :: h) (s.setPc t pc) := by
  apply hok.setPc (not_resume hflags) hhandles
  intro x
  obtain ⟨ha, hc⟩ := no_event hflags x
  exact submissions_goOn (Bool.eq_false_iff.mp ha) hc

theorem step_resumeThread (hok : Ok timer h s) (ht : s.pc t = .resumeThread) (hP : Proper timer s (.goOn t)) :
    Ok timer ((s, .goOn t) :: h) (s.resumeThread.setPc t .idle) := by
  simp only [Proper, ProperCall, ht] at hP
  obtain ⟨hwaiting, hearly⟩ := hP
  have hhandles : ∀ x, ((s.resumeThread.setPc t .idle).pc timer).handles x = true → (s.pc timer).handles x = true :=
    fun x => handles_update fun hx => by contradiction
  constructor
  · intro hs
    contradiction
  · rintro (htake | ⟨hsched, -⟩)
    · exact hok.nonempty (.inl htake)
    · by_cases hs : s.suspended = true
      · exact hwaiting hs
      · exact hok.nonempty (.inr ⟨hsched, by simpa using hs⟩)
  · rintro hlist (hs | hs)
    · contradiction
    · obtain ⟨u, hu, hres⟩ := hearly hs hlist
      exact ⟨u, (setPc_of_ne s.resumeThread .idle hu).trans hres⟩
  · exact hok.current
  · exact hok.nodup
  · intro u x hx
    exact hok.handles u x (handles_update (fun hx => by contradiction) hx)
  · intro x
    rw [submissions_goOn]
    · refine Nat.le_trans ?_ (hok.held x)
      exact held_mono (fun hm => hm) (fun hm => hm) (hhandles x)
    · simp [accepted, ht]
    · simp only [cancelled, ht]

theorem step_goOn (hok : Ok timer h s) (hP : Proper timer s (.goOn t)) (hs : s.goOn t = some s') :
    Ok timer ((s, .goOn t) :: h) s' := by
  unfold QueueState.goOn at hs
  have hflags : ∀ pc, s.pc t = pc → pc.flags = true → (s.pc t).flags = true := fun _ ht hpc => by rwa [ht]
  cases ht : s.pc t with
  | idle | halted =>
    rw [ht] at hs
    contradiction
  | submitWork queue byTimer w =>
    rw [ht, Option.some.injEq] at hs
    subst hs
    exact step_submitWork hok ht
  | resumeThread =>
    rw [ht, Option.some.injEq] at hs
    subst hs
    exact step_resumeThread hok ht hP
  | startTimer w =>
    rw [ht, Option.some.injEq] at hs
    subst hs
    exact step_startTimer hok ht
  | cancelWork queue by' w =>
    rw [ht, Option.some.injEq] at hs
    subst hs
    exact step_cancelWork hok ht hP
  | detach by' w =>
    rw [ht, Option.some.injEq] at hs
    subst hs
    exact step_detach hok ht hP
  | testType w ticks | submitDelayed w ticks | testCancel w | cancelDelayed by' w | testPending by' w
  | readCancel by' w | testSubmitting by' w =>
    rw [ht, Option.some.injEq] at hs
    subst hs
    apply step_test hok (hflags _ ht rfl)
    intro x hx
    try split_ifs at hx
    all_goals contradiction
  | attach w ticks =>
    rw [ht, Option.some.injEq] at hs
    subst hs
    refine step_flag hok (hflags _ ht rfl) (fun hv => hv) ?_
    intro x hx
    split_ifs at hx <;> contradiction
  | addTimeout w =>
    rw [ht, Option.some.injEq] at hs
    subst hs
    unfold QueueState.addTimeout
    split_ifs
    · exact step_flag hok (hflags _ ht rfl) (fun hv => by contradiction) fun x hx => by contradiction
    · exact step_flag hok (hflags _ ht rfl) (fun hv => hv) fun x hx => by contradiction
  | readQueue byTimer w =>
    rw [ht, Option.some.injEq] at hs
    subst hs
    apply step_test hok (hflags _ ht rfl)
    intro x hx
    rw [ht]
    cases byTimer with
    | false => contradiction
    | true => exact hx
  | stopTimer by' w =>
    rw [ht, Option.some.injEq] at hs
    subst hs
    unfold QueueState.stopTimer
    split_ifs
    · exact step_test hok (hflags _ ht rfl) fun x hx => by contradiction
    · exact step_flag hok (hflags _ ht rfl) (fun hv => by contradiction) fun x hx => by contradiction
  | timeoutHandler w =>
    rw [ht, Option.some.injEq] at hs
    subst hs
    unfold QueueState.timeoutHandler
    split_ifs
    · exact step_test hok (hflags _ ht rfl) fun x hx => by contradiction
    · refine step_flag hok (hflags _ ht rfl) (fun hv => by contradiction) ?_
      intro x hx
      rwa [ht]

theorem step_call {v : RtWork} (hok : Ok timer h s) (ht : s.pc t = .idle)
    (htimer : v.timer = .activated → (s.works w).timer = .activated) (hpc : ∀ x, pc.handles x = false)
    (haccepted : ∀ x, accepted s x a = false) (hcancelled : ∀ x, cancelled s x a = false) (ha : a ≠ .thread) :
    Ok timer ((s, a) :: h) ((s.setWork w v).setPc t pc) := by
  apply hok.quiet
  · rw [ht]
    exact fun he => by contradiction
  · exact htimer
  · intro x hx
    rw [hpc x] at hx
    contradiction
  · intro x
    exact submissions_cons (haccepted x) (hcancelled x) fun htake => absurd htake (not_takes ha)

theorem step_timeout (hok : Ok timer h s) (ht : s.pc timer = .idle) (hw : (s.works w).timer = .activated) :
    Ok timer ((s, .timeout w) :: h)
      ((s.setWork w { s.works w with timer := .stopped }).setPc timer (.timeoutHandler w)) := by
  refine Ok.call (t := timer) hok ?_ ?_ ?_ ?_ ?_ ?_ hok.nodup hok.nonempty ?_ ?_
  · rw [ht]
    exact fun he => by contradiction
  · rfl
  · rfl
  · rfl
  · intro u hu
    exact setPc_of_ne _ _ hu
  · exact fun _ _ => rfl
  · intro hlist hempty
    exact absurd hempty hlist
  · intro x
    rw [submissions_cons rfl rfl fun htake => absurd htake (not_takes fun he => by contradiction)]
    refine Nat.le_trans ?_ (hok.held x)
    by_cases hx : x = w
    · -- the running timer becomes the handler
      subst hx
      have hstopped : ¬ (((s.setWork x { s.works x with timer := .stopped }).setPc timer (.timeoutHandler x)).works
          x).timer = .activated := by
        show ¬ (Function.update s.works x _ x).timer = .activated
        rw [Function.update_self]
        exact fun hv => by contradiction
      have hidle : ¬ (s.pc timer).handles x = true := by
        rw [ht]
        exact fun hx => by contradiction
      unfold QueueState.held
      rw [if_neg hstopped, if_pos hw, if_neg hidle, Nat.add_assoc, Nat.add_assoc, Nat.zero_add]
      apply Nat.add_le_add_left
      split_ifs
      · exact Nat.le_refl 1
      · exact Nat.zero_le 1
    · apply held_mono
      · exact fun hm => hm
      · exact timer_update fun hv => by contradiction
      · apply handles_update
        intro hx'
        exact absurd (by simpa [CallPc.handles] using hx') (Ne.symm hx)

/-! ### The steps of the queue's thread -/

theorem Ok.thread {pc : ThreadPc ω} {suspended : Bool} {current : Option ω} (hok : Ok timer h s)
    (hne : s.thread ≠ .take) (hsuspended : suspended = true → pc = .schedule)
    (habout : pc = .take ∨ (pc = .schedule ∧ suspended = false) → s.workList ≠ [])
    (hwaked : s.workList ≠ [] → suspended = true ∨ pc = .suspend → s.thread = .suspend)
    (hcurrent : current ≠ none → ∃ w, pc = .run w) :
    Ok timer ((s, .thread) :: h) { s with thread := pc, suspended := suspended, workCurrent := current } where
  suspended := hsuspended
  nonempty := habout
  waked hlist hs := hok.waked hlist (.inr (hwaked hlist hs))
  current := hcurrent
  nodup := hok.nodup
  handles := hok.handles
  held x := by
    rw [submissions_cons rfl rfl fun htake => absurd htake.2 hne]
    exact hok.held x

theorem step_take {rest : List ω} (hok : Ok timer h s) (ht : s.thread = .take) (hlist : s.workList = w :: rest) :
    Ok timer ((s, .thread) :: h) { (s.listRemove w).setWork w
      { s.works w with pending := false, workqueue := false } with workCurrent := some w, thread := .run w } := by
  have hkeep : ({ s.works w with pending := false, workqueue := false } : RtWork).timer = .activated →
      (s.works w).timer = .activated := fun hv => hv
  constructor
  · intro hs
    have hsched := hok.suspended hs
    rw [ht] at hsched
    contradiction
  · rintro (hs | ⟨hs, -⟩) <;> contradiction
  · rintro - (hs | hs)
    · have hsched := hok.suspended hs
      rw [ht] at hsched
      contradiction
    · contradiction
  · exact fun _ => ⟨w, rfl⟩
  · exact hok.nodup.erase w
  · exact hok.handles
  · intro x
    have hold := hok.held x
    by_cases hx : x = w
    · subst hx
      have hgone : ¬ x ∈ s.workList.erase x := hok.nodup.not_mem_erase
      have hwas : x ∈ s.workList := by
        rw [hlist]
        exact List.mem_cons_self
      have hsub : submissions x ((s, .thread) :: h) = submissions x h - 1 := by
        have htakes : takes s .thread ∧ s.workList.head? = some x := ⟨⟨rfl, ht⟩, by rw [hlist]; rfl⟩
        simp only [submissions, accepted, cancelled, if_pos htakes, Bool.false_eq_true, if_false]
      rw [hsub]
      apply Nat.le_sub_one_of_lt
      refine Nat.lt_of_lt_of_le ?_ hold
      exact held_removed hwas hgone (timer_update hkeep) fun hh => hh
    · rw [submissions_cons rfl rfl]
      · refine Nat.le_trans ?_ hold
        exact held_mono List.mem_of_mem_erase (timer_update hkeep) fun hh => hh
      · rw [hlist]
        exact fun _ hhead => hx (Option.some.inj hhead).symm

theorem step_thread (hok : Ok timer h s) (hs : s.threadStep = some s') : Ok timer ((s, .thread) :: h) s' := by
  have hcurrent : (∀ w, s.thread ≠ .run w) → s.workCurrent = none := by
    intro hrun
    by_contra hcur
    obtain ⟨w, hw⟩ := hok.current hcur
    exact hrun w hw
  have hawake : s.thread ≠ .schedule → s.suspended = false := by
    intro hne
    by_contra hs
    exact hne (hok.suspended (by simpa using hs))
  unfold QueueState.threadStep at hs
  cases ht : s.thread with
  | test =>
    rw [ht, Option.some.injEq] at hs
    subst hs
    have hnot : s.suspended = false := hawake (by simp [ht])
    have hnone : s.workCurrent = none := hcurrent (by simp [ht])
    apply hok.thread
    · simp [ht]
    · simp [hnot]
    · by_cases hlist : s.workList = []
      · simp [hlist]
      · exact fun _ => hlist
    · intro hlist
      simp [hlist, hnot]
    · exact fun hne => absurd hnone hne
  | suspend =>
    rw [ht, Option.some.injEq] at hs
    subst hs
    have hnone : s.workCurrent = none := hcurrent (by simp [ht])
    apply hok.thread
    · simp [ht]
    · exact fun _ => rfl
    · rintro (hs | ⟨-, hs⟩) <;> contradiction
    · exact fun _ _ => ht
    · exact fun hne => absurd hnone hne
  | schedule =>
    rw [ht] at hs
    dsimp only at hs
    have hnone : s.workCurrent = none := hcurrent (by simp [ht])
    by_cases hsus : s.suspended = true
    · rw [if_pos hsus] at hs
      contradiction
    · rw [if_neg hsus, Option.some.injEq] at hs
      subst hs
      apply hok.thread
      · simp [ht]
      · exact fun hs => absurd hs hsus
      · exact fun _ => hok.nonempty (.inr ⟨ht, by simpa using hsus⟩)
      · rintro - (hs | hs)
        · exact absurd hs hsus
        · contradiction
      · exact fun hne => absurd hnone hne
  | take =>
    rw [ht] at hs
    dsimp only at hs
    cases hlist : s.workList with
    | nil => exact absurd hlist (hok.nonempty (.inl ht))
    | cons w rest =>
      rw [hlist] at hs
      obtain rfl := Option.some.inj hs
      exact step_take hok ht hlist
  | run w =>
    rw [ht, Option.some.injEq] at hs
    subst hs
    have hnot : s.suspended = false := hawake (by simp [ht])
    apply hok.thread
    · simp [ht]
    · simp [hnot]
    · rintro (hs | ⟨hs, -⟩) <;> contradiction
    · rintro - (hs | hs)
      · exact absurd hs (by simp [hnot])
      · contradiction
    · exact fun hne => absurd rfl hne
  | halted =>
    rw [ht] at hs
    contradiction

/-! ### The runs -/

theorem ok_init (hs : (workQueue τ ω timer).init s) : Ok timer [] s := by
  obtain ⟨hworks, hlist, hcur, hthread, hsus, hpc⟩ := hs
  constructor
  · simp [hsus]
  · unfold QueueState.AboutToTake
    simp [hthread]
  · exact fun hne => absurd hlist hne
  · exact fun hne => absurd hcur hne
  · simp [hlist]
  · intro t w ht
    rw [hpc t] at ht
    contradiction
  · intro w
    simp [QueueState.held, hworks w, hlist, hpc timer, rtWorkInit, CallPc.handles]

theorem step_ok (hok : Ok timer h s) (hP : Proper timer s a) (hs : queueStep timer s a = some s') :
    Ok timer ((s, a) :: h) s' := by
  cases a with
  | dowork t w =>
    obtain ⟨ht, hs⟩ := Option.ite_none_right_eq_some.mp hs
    obtain rfl := Option.some.inj hs
    apply hok.setPc
    · simp [ht]
    · exact fun x hx => by contradiction
    · exact fun x => submissions_cons rfl rfl fun htake => absurd htake (not_takes fun he => by contradiction)
  | submit t w ticks =>
    obtain ⟨ht, hs⟩ := Option.ite_none_right_eq_some.mp hs
    obtain rfl := Option.some.inj hs
    exact step_call hok ht (fun hv => hv) (fun x => rfl) (fun x => rfl) (fun x => rfl) fun he => by contradiction
  | cancel t w =>
    obtain ⟨ht, hs⟩ := Option.ite_none_right_eq_some.mp hs
    obtain rfl := Option.some.inj hs
    apply hok.setPc
    · simp [ht]
    · exact fun x hx => by contradiction
    · exact fun x => submissions_cons rfl rfl fun htake => absurd htake (not_takes fun he => by contradiction)
  | goOn t => exact step_goOn hok hP hs
  | timeout w =>
    obtain ⟨⟨ht, hw⟩, hs⟩ := Option.ite_none_right_eq_some.mp hs
    obtain rfl := Option.some.inj hs
    exact step_timeout hok ht hw
  | thread => exact step_thread hok hs

theorem ok_run (hrun : (workQueue τ ω timer).Run h s) (hP : Throughout (fun _ s a => Proper timer s a) h) :
    Ok timer h s :=
  hrun.invariant (fun _ => ok_init) (fun _ _ _ _ _ hok hP hs => step_ok hok hP hs) hP

/-- The queue's thread and a timer thread with number 1, works with numbers 0 and 1. -/
def emptyQueue : QueueState (Fin 2) (Fin 2) := ⟨fun _ => rtWorkInit, [], none, .test, false, fun _ => .idle⟩

theorem init_emptyQueue : (workQueue (Fin 2) (Fin 2) 1).init emptyQueue :=
  ⟨fun _ => rfl, rfl, rfl, rfl, rfl, fun _ => rfl⟩

/-- The thread is resumed between its test and its suspension, and sleeps with a work in its list; it is resumed behind
the run of the work that it is resumed for, and takes an entry of an empty list; so it does when its only work is
cancelled after it has been resumed; a delayed work is cancelled while its timeout handler is under way, and is run. -/
theorem work_queue_races :
    (∃ h s, (workQueue (Fin 2) (Fin 2) 1).Run h s ∧ s.workList = [0] ∧ s.suspended = true ∧
      ∀ t, s.pc t = .idle) ∧
    (∃ h s, (workQueue (Fin 2) (Fin 2) 1).Run h s ∧ s.thread = .take ∧ s.workList = [] ∧
      Throughout (fun _ s a => ∀ w, cancelled s w a = false) h) ∧
    (∃ h s, (workQueue (Fin 2) (Fin 2) 1).Run h s ∧ s.thread = .take ∧ s.workList = [] ∧
      Throughout (fun _ s a => s.pc 0 = .resumeThread → a = .goOn 0) h) ∧
    ∃ h s, (workQueue (Fin 2) (Fin 2) 1).Run h s ∧ s.thread = .run 0 ∧
      ¬ Throughout (fun h s a => takes s a → ∃ w, s.workList.head? = some w ∧ 0 < submissions w h) h := by
  refine ⟨?_, ?_, ?_, ?_⟩
  · exact System.exists_run init_emptyQueue [.dowork 0 0, .thread, .goOn 0, .goOn 0, .thread] _ (by decide +kernel)
  · exact System.exists_run init_emptyQueue
      [.dowork 0 0, .goOn 0, .thread, .thread, .thread, .thread, .thread, .goOn 0, .thread] _ (by decide +kernel)
  · exact System.exists_run init_emptyQueue
      [.thread, .thread, .dowork 0 0, .goOn 0, .goOn 0, .cancel 0 0, .goOn 0, .goOn 0, .thread] _ (by decide +kernel)
  · exact System.exists_run init_emptyQueue
      [.submit 0 0 1, .goOn 0, .goOn 0, .goOn 0, .goOn 0, .goOn 0, .timeout 0, .goOn 1, .cancel 0 0, .goOn 0, .goOn 0,
        .goOn 1, .goOn 1, .thread, .thread] _ (by decide +kernel)

/-- In every run without a resume that comes too early or too late and without a cancellation that comes too late,
each work that the queue's thread takes has been submitted, and neither cancelled nor run since; it never takes an
entry of an empty list; and when the list is not empty, it is not suspended, or it is being resumed. -/
theorem work_queue_runs (hrun : (workQueue τ ω timer).Run h s) (hP : Throughout (fun _ s a => Proper timer s a) h) :
    Throughout (fun h s a => takes s a → ∃ w, s.workList.head? = some w ∧ 0 < submissions w h) h ∧
      (s.workList ≠ [] → s.suspended = false ∨ ∃ t, s.pc t = .resumeThread) := by
  constructor
  · refine hrun.throughout (fun _ _ => ok_run) ?_ hP
    rintro h s a s' - hok - - ⟨rfl, ht⟩
    cases hlist : s.workList with
    | nil => exact absurd hlist (hok.nonempty (.inl ht))
    | cons w rest =>
      refine ⟨w, rfl, Nat.lt_of_lt_of_le ?_ (hok.held w)⟩
      unfold QueueState.held
      rw [hlist, if_pos List.mem_cons_self, Nat.add_assoc]
      exact Nat.lt_add_right _ Nat.one_pos
  · intro hlist
    by_cases hs : s.suspended = true
    · exact .inr ((ok_run hrun hP).waked hlist (.inl hs))
    · exact .inl (by simpa using hs)

instance [Fintype τ] (timer t : τ) (s : QueueState τ ω) (pc : CallPc ω) : Decidable (ProperCall timer s t pc) := by
  cases pc with
  | detach by' w =>
    cases by'
    all_goals
      unfold ProperCall
      dsimp only
      infer_instance
  | _ =>
    unfold ProperCall
    dsimp only
    infer_instance

instance [Fintype τ] (timer : τ) (s : QueueState τ ω) (a : QueueAction τ ω) : Decidable (Proper timer s a) := by
  cases a with
  | goOn t => exact inferInstanceAs (Decidable (ProperCall timer s t (s.pc t)))
  | _ => exact .isTrue trivial

/-- One work is submitted and cancelled before the thread waits, another one is submitted with a delay and run. -/
theorem work_queue_runs_run : ∃ h s, (workQueue (Fin 2) (Fin 2) 1).Run h s ∧ s.thread = .run 1 ∧
    Throughout (fun h s a => takes s a → ∃ w, s.workList.head? = some w ∧ 0 < submissions w h) h := by
  obtain ⟨h, s, hrun, hP, hthread⟩ := System.exists_run init_emptyQueue
    [.dowork 0 0, .goOn 0, .goOn 0, .cancel 0 0, .goOn 0, .goOn 0, .submit 0 1 1, .goOn 0, .goOn 0, .goOn 0, .goOn 0,
      .goOn 0, .thread, .thread, .timeout 1, .goOn 1, .goOn 1, .goOn 1, .goOn 1, .thread, .thread]
    (fun h s => Throughout (fun _ s a => Proper 1 s a) h ∧ s.thread = .run 1) (by decide +kernel)
  exact ⟨h, s, hrun, hthread, (work_queue_runs hrun hP).1⟩

end steps

end ThyristorController.WorkQueues
