import ThyristorController.Kernel.SemThreads
import ThyristorController.Lib.Clock
import Mathlib.Data.Prod.Lex
import Mathlib.Data.Fintype.Option

/-!
# Suspend lists by priority (`src/ipc.c`, `src/thread.c`)

`rt_ipc_list_suspend` and `rt_ipc_list_resume` over the scheduler, for the lists of all kernel objects, with their
flags. `rt_thread_control`, which `rt_mutex_take` and `rt_mutex_release` call too, sets the priority of a suspended
thread where it is: the thread keeps its place in the list.

`resumes_first` says which changes of priority leave the lists sorted.
-/

namespace ThyristorController.PrioWait

open Transition
open SemThreads (IpcFlag suspendPlace)

variable {τ ι : Type} [DecidableEq τ] [DecidableEq ι]

/-! ## The system -/

/-- The running thread suspends itself into a list; the first thread of a list is resumed; any other operation. -/
inductive PrioAction (τ ι : Type) where
  | suspend (q : ι)
  | resume (q : ι)
  | op (a : SchedAction τ ι)

/-- The operations that are in no list function of `ipc.c`. -/
def IsOp : SchedAction τ ι → Bool
  | .insert _ | .remove _ | .ipcSuspend _ _ => false
  | .startup _ | .suspend _ | .resume _ | .timeout _ | .yield | .changePriority _ _ | .detach _ | .delete _
  | .schedule | .start | .enterCritical | .exitCritical => true

/-- `rt_ipc_list_resume` of a list that is not empty. -/
def rtIpcListResume (k : Kernel τ ι) (q : ι) : Option (Kernel τ ι) :=
  (k.waiting q).head?.map fun t => rtThreadResume k t

def prioStep (flag : ι → IpcFlag) (k : Kernel τ ι) : PrioAction τ ι → Option (Kernel τ ι)
  | .suspend q => k.current.bind fun t => rtIpcListSuspend k q (suspendPlace (flag q) k q t)
  | .resume q => rtIpcListResume k q
  | .op a => if IsOp a then schedStep k a else none

def prioWait (τ : Type) {ι : Type} [DecidableEq τ] [DecidableEq ι] (flag : ι → IpcFlag) :
    System (Kernel τ ι) (PrioAction τ ι) where
  init := SchedInit
  step := prioStep flag

/-! ## What happened in a run -/

/-- The thread that suspends itself in a step. -/
def suspends (k : Kernel τ ι) : PrioAction τ ι → Option τ
  | .suspend _ => k.current
  | _ => none

/-- The number of the step in which a thread last suspended itself. -/
def suspendedAt : History (Kernel τ ι) (PrioAction τ ι) → τ → Nat
  | [], _ => 0
  | (k, a) :: h, t => if suspends k a = some t then h.length + 1 else suspendedAt h t

/-- Threads are resumed by priority, and those of the same one in the order in which they came. -/
def rank (prio : τ → Priority) (at_ : τ → Nat) (t : τ) : Nat ×ₗ Nat := toLex ((prio t).val, at_ t)

/-- The priorities of the threads. -/
def prios (k : Kernel τ ι) (t : τ) : Priority := (k.tcb t).currentPriority

/-- A thread that waits in a list by priority gets no other priority than one with which it belongs behind those that
are before it there, and before those that are behind it. -/
def KeepsPlace (flag : ι → IpcFlag) (h : History (Kernel τ ι) (PrioAction τ ι)) (k : Kernel τ ι) : PrioAction τ ι → Prop
  | .op (.changePriority t prio) => ∀ q, flag q = .prio → t ∈ k.waiting q → ∀ u ∈ k.waiting q, u ≠ t →
    (rank (prios k) (suspendedAt h) u < rank (prios k) (suspendedAt h) t →
      rank (prios k) (suspendedAt h) u < toLex (prio.val, suspendedAt h t)) ∧
    (rank (prios k) (suspendedAt h) t < rank (prios k) (suspendedAt h) u →
      toLex (prio.val, suspendedAt h t) < rank (prios k) (suspendedAt h) u)
  | _ => True

instance [Fintype ι] (flag : ι → IpcFlag) (h : History (Kernel τ ι) (PrioAction τ ι)) (k : Kernel τ ι) :
    (a : PrioAction τ ι) → Decidable (KeepsPlace flag h k a)
  | .op (.changePriority t prio) => inferInstanceAs (Decidable (∀ q, flag q = .prio → t ∈ k.waiting q →
    ∀ u ∈ k.waiting q, u ≠ t →
    (rank (prios k) (suspendedAt h) u < rank (prios k) (suspendedAt h) t →
      rank (prios k) (suspendedAt h) u < toLex (prio.val, suspendedAt h t)) ∧
    (rank (prios k) (suspendedAt h) t < rank (prios k) (suspendedAt h) u →
      toLex (prio.val, suspendedAt h t) < rank (prios k) (suspendedAt h) u)))
  | .suspend _ | .resume _ | .op (.startup _) | .op (.insert _) | .op (.remove _) | .op (.suspend _) | .op (.resume _)
  | .op (.timeout _) | .op .yield | .op (.detach _) | .op (.delete _) | .op .schedule | .op .start
  | .op (.ipcSuspend _ _) | .op .enterCritical | .op .exitCritical => isTrue trivial

/-- The lists by priority are sorted. -/
structure PrioInv (flag : ι → IpcFlag) (h : History (Kernel τ ι) (PrioAction τ ι)) (k : Kernel τ ι) : Prop where
  sched : SchedInv k
  suspendedAt : ∀ t, suspendedAt h t ≤ h.length
  sorted : ∀ q, flag q = .prio → (k.waiting q).Pairwise fun t u =>
    rank (prios k) (PrioWait.suspendedAt h) t < rank (prios k) (PrioWait.suspendedAt h) u

/-! ## The other operations -/

/-- Threads leave lists, and those that stay keep their priorities. -/
structure Leaves (k k' : Kernel τ ι) : Prop where
  waiting : ∀ q, (k'.waiting q).Sublist (k.waiting q)
  prio : ∀ q, ∀ u ∈ k'.waiting q, prios k' u = prios k u

section leaves

variable {k k' : Kernel τ ι} {t u : τ} {q : ι}

omit [DecidableEq τ] [DecidableEq ι] in
theorem Leaves.refl (k : Kernel τ ι) : Leaves k k := ⟨fun _ => .refl _, fun _ _ _ => rfl⟩

omit [DecidableEq τ] [DecidableEq ι] in
theorem Leaves.trans {k₁ k₂ k₃ : Kernel τ ι} (h₁ : Leaves k₁ k₂) (h₂ : Leaves k₂ k₃) : Leaves k₁ k₃ where
  waiting q := (h₂.waiting q).trans (h₁.waiting q)
  prio q u hu := (h₂.prio q u hu).trans (h₁.prio q u ((h₂.waiting q).subset hu))

omit [DecidableEq τ] [DecidableEq ι] in
theorem Leaves.same (htcb : k'.tcb = k.tcb) (hwaiting : k'.waiting = k.waiting) : Leaves k k' :=
  ⟨fun q => by rw [hwaiting], fun q u _ => by rw [prios, prios, htcb]⟩

omit [DecidableEq ι] in
theorem Leaves.one (h : SchedInv k) (hwaiting : ∀ q, k'.waiting q = (k.waiting q).erase t)
    (hother : ∀ u, u ≠ t → k'.tcb u = k.tcb u) : Leaves k k' where
  waiting q := hwaiting q ▸ List.erase_sublist
  prio q u hu := by
    have hne : u ≠ t := fun he => (h.waiting_nodup q).not_mem_erase (he ▸ hwaiting q ▸ hu)
    rw [prios, prios, hother u hne]

omit [DecidableEq ι] in
theorem leaves_schedule (hs : rtSchedule k = some k') : Leaves k k' := by
  obtain ⟨htcb, -, -, hwaiting, -, -⟩ := rtSchedule_frame hs
  exact .same htcb hwaiting

omit [DecidableEq ι] in
theorem leaves_resume (h : SchedInv k) (t : τ) : Leaves k (rtThreadResume k t) := by
  unfold rtThreadResume
  split_ifs
  · exact .refl k
  · exact .one h (fun _ => rfl) fun u hu => Function.update_of_ne hu ..

omit [DecidableEq ι] in
theorem leaves_suspend (h : SchedInv k) (t : τ) : Leaves k (rtThreadSuspend k t) := by
  unfold rtThreadSuspend
  split_ifs
  · exact .refl k
  · refine .one h (fun q => ?_) fun u hu => (untouched_remove k hu).tcb ▸ Function.update_of_ne hu ..
    rw [rtScheduleRemoveThread_eq]
    rfl

omit [DecidableEq ι] in
theorem leaves_close (h : SchedInv k) (t : τ) : Leaves k (closeThread k t) := by
  have hother (u : τ) (hu : u ≠ t) : (closeThread k t).tcb u = k.tcb u := by
    unfold closeThread
    dsimp only
    split_ifs
    · rw [Kernel.setTcb_other _ _ hu, rtScheduleRemoveThread_tcb]
    · rw [Kernel.setTcb_other _ _ hu]
  refine .one h (fun q => ?_) hother
  unfold closeThread
  dsimp only
  split_ifs with hstat
  · rw [rtScheduleRemoveThread_eq]
    rfl
  · exact (List.erase_of_not_mem ((unlinked_of_init h (not_not.mp hstat)).2.1 q)).symm

omit [DecidableEq ι] in
theorem rtThreadChangePriority_waiting (h : SchedInv k) (t : τ) (prio : Priority) :
    (rtThreadChangePriority k t prio).waiting = k.waiting ∧
      prios (rtThreadChangePriority k t prio) = Function.update (prios k) t prio := by
  unfold rtThreadChangePriority
  split_ifs with hstat
  · constructor
    · funext q
      have hnot : t ∉ k.waiting q := fun hm => by simp [(h.waiting t q hm).2] at hstat
      show (rtScheduleRemoveThread k t).waiting q = _
      rw [rtScheduleRemoveThread_eq]
      exact List.erase_of_not_mem hnot
    · funext u
      by_cases hu : u = t
      · subst hu
        rw [Function.update_self, prios, rtScheduleInsertThread_self, Kernel.setTcb_self]
      · rw [Function.update_of_ne hu, prios, (untouched_insert _ hu).tcb, Kernel.setTcb_other _ _ hu,
          rtScheduleRemoveThread_tcb]
        rfl
  · refine ⟨rfl, ?_⟩
    funext u
    by_cases hu : u = t
    · subst hu
      rw [Function.update_self, prios, Kernel.setTcb_self]
    · rw [Function.update_of_ne hu, prios, Kernel.setTcb_other _ _ hu]
      rfl

theorem leaves_op {a : SchedAction τ ι} (h : SchedInv k) (ha : IsOp a = true)
    (hprio : ∀ t prio, a ≠ .changePriority t prio) (hs : schedStep k a = some k') : Leaves k k' := by
  cases a with
  | startup t =>
    obtain ⟨hstat, hs⟩ := Option.ite_none_right_eq_some.mp hs
    have hnot (q : ι) : t ∉ k.waiting q := (unlinked_of_init h hstat).2.1 q
    have hstart : Leaves k (rtThreadResume (k.setTcb t { k.tcb t with
        currentPriority := (k.tcb t).initPriority
        numberMask := prioMask (k.tcb t).initPriority
        stat := .suspend }) t) := by
      refine Leaves.trans ?_ (leaves_resume (inv_setTcb_idle h (by simp [hstat]) (.inr ⟨hstat, rfl⟩) rfl) t)
      exact .one h (fun q => (List.erase_of_not_mem (hnot q)).symm) fun u hu => k.setTcb_other _ hu
    dsimp only at hs
    split_ifs at hs
    · exact hstart.trans (leaves_schedule hs)
    · exact Option.some.inj hs ▸ hstart
  | suspend t => exact Option.some.inj hs ▸ leaves_suspend h t
  | resume t => exact Option.some.inj hs ▸ leaves_resume h t
  | timeout t =>
    obtain ⟨-, hs⟩ := Option.ite_none_right_eq_some.mp hs
    dsimp only at hs
    refine Leaves.trans (.one h (fun _ => rfl) fun u hu => ?_) (leaves_schedule hs)
    exact (Function.update_of_ne hu ..).trans (Function.update_of_ne hu ..)
  | yield =>
    obtain ⟨t, -, ⟨k₁, hmove, hs⟩ | ⟨-, rfl⟩⟩ := rtThreadYield_cases hs
    · obtain ⟨-, hmove⟩ := Option.ite_none_right_eq_some.mp hmove
      obtain rfl := Option.some.inj hmove
      refine Leaves.trans ?_ (leaves_schedule hs)
      exact .same rfl rfl
    · exact .refl _
  | changePriority t prio => exact absurd rfl (hprio t prio)
  | detach t =>
    rcases rtThreadDetach_cases hs with rfl | rfl
    · exact .refl _
    · exact leaves_close h t
  | delete t =>
    rcases rtThreadDelete_cases hs with rfl | rfl
    · exact .refl _
    · exact (leaves_close h t).trans (.same rfl rfl)
  | schedule => exact leaves_schedule hs
  | start =>
    obtain ⟨⟨p, t⟩, -, rfl⟩ := Option.map_eq_some_iff.mp hs
    exact .same rfl rfl
  | enterCritical => exact Option.some.inj hs ▸ .same rfl rfl
  | exitCritical =>
    rcases rtExitCritical_cases hs with hs | rfl
    · refine Leaves.trans ?_ (leaves_schedule hs)
      exact .same rfl rfl
    · exact .same rfl rfl
  | insert t | remove t | ipcSuspend q i => simp [IsOp] at ha

end leaves

/-! ## All runs -/

section runs

variable {flag : ι → IpcFlag} {h : History (Kernel τ ι) (PrioAction τ ι)} {k k' : Kernel τ ι} {a : PrioAction τ ι}
  {t u : τ} {q : ι}

omit [DecidableEq τ] [DecidableEq ι] in
theorem rank_lt {prio : τ → Priority} {n : τ → Nat} :
    rank prio n t < rank prio n u ↔ prio t < prio u ∨ prio t = prio u ∧ n t < n u := by
  rw [rank, rank, Prod.Lex.toLex_lt_toLex, Fin.lt_def, Fin.ext_iff]

omit [DecidableEq τ] in
theorem sorted_congr {l l' : List τ} {r r' : τ → Nat ×ₗ Nat} (hl : l.Pairwise fun t u => r t < r u)
    (hsub : l'.Sublist l) (hr : ∀ u ∈ l', r' u = r u) : l'.Pairwise fun t u => r' t < r' u :=
  (hl.sublist hsub).imp_of_mem fun ht hu hlt => by rwa [hr _ ht, hr _ hu]

omit [DecidableEq ι] in
theorem suspendedAt_le (hi : ∀ t, suspendedAt h t ≤ h.length) (t : τ) :
    suspendedAt ((k, a) :: h) t ≤ ((k, a) :: h).length := by
  rw [suspendedAt]
  split_ifs
  · exact le_rfl
  · exact (hi t).trans (Nat.le_succ _)

omit [DecidableEq ι] in
/-- A step in which no thread suspends itself, and threads leave lists. -/
theorem PrioInv.leave (hi : PrioInv flag h k) (hnone : suspends k a = none) (hsched : SchedInv k')
    (hleaves : Leaves k k') : PrioInv flag ((k, a) :: h) k' where
  sched := hsched
  suspendedAt := suspendedAt_le hi.suspendedAt
  sorted q hq := by
    refine sorted_congr (hi.sorted q hq) (hleaves.waiting q) fun u hu => ?_
    rw [rank, rank, hleaves.prio q u hu, PrioWait.suspendedAt, if_neg (by simp [hnone])]

/-- The running thread finds its place: behind those of its priority, that have waited longer. -/
theorem prioInv_suspend (hi : PrioInv flag h k) (hcur : k.current = some t)
    (hs : rtIpcListSuspend k q (suspendPlace (flag q) k q t) = some k') : PrioInv flag ((k, .suspend q) :: h) k' := by
  have hsched := inv_ipcSuspend hi.sched hs
  obtain ⟨t', ht', hstat, -, rfl⟩ := rtIpcListSuspend_cases hs
  obtain rfl := Option.some.inj (hcur.symm.trans ht')
  obtain ⟨hself, hwaiting, -⟩ := rtThreadSuspend_eq hstat
  have hnot (r : ι) : t ∉ k.waiting r := fun hm => by simp [(hi.sched.waiting t r hm).2] at hstat
  have hsame (r : ι) : (rtThreadSuspend k t).waiting r = k.waiting r := by
    rw [hwaiting, List.erase_of_not_mem (hnot r)]
  have hprio (u : τ) : prios (rtThreadSuspend k t) u = prios k u := by
    by_cases hu : u = t
    · rw [hu, prios, hself, prios]
    · rw [prios, (untouched_suspend k hu).tcb, prios]
  have hat (u : τ) : suspendedAt ((k, .suspend q) :: h) u = if u = t then h.length + 1 else suspendedAt h u := by
    simp only [suspendedAt, suspends, hcur, Option.some.injEq, eq_comm]
  refine ⟨hsched, suspendedAt_le hi.suspendedAt, fun r hr => ?_⟩
  have hold (u : τ) (hu : u ∈ k.waiting r) : rank (prios k) (suspendedAt ((k, .suspend q) :: h)) u =
      rank (prios k) (suspendedAt h) u := by
    rw [rank, rank, hat, if_neg fun he : u = t => hnot r (he ▸ hu)]
  have hsorted : (k.waiting r).Pairwise fun u v => rank (prios k) (suspendedAt ((k, .suspend q) :: h)) u <
      rank (prios k) (suspendedAt ((k, .suspend q) :: h)) v := sorted_congr (hi.sorted r hr) (.refl _) hold
  have hranks (waiting : ι → List τ) : prios { rtThreadSuspend k t with waiting := waiting } = prios k := funext hprio
  rw [hranks]
  dsimp only
  by_cases hrq : r = q
  · subst hrq
    have hplace : suspendPlace (flag r) k r t = (k.waiting r).findIdx fun u => decide (prios k t < prios k u) := by
      rw [hr]
      rfl
    rw [Function.update_self, hsame, hplace, Ordered.insertIdx_findIdx]
    refine Ordered.pairwise_insert hsorted (fun u hu hstop => ?_) fun u hu hgo => ?_
    · exact rank_lt.mpr (.inl (of_decide_eq_true hstop))
    · have hle : prios k u ≤ prios k t := not_lt.mp (of_decide_eq_false hgo)
      rw [rank_lt, hat, hat, if_pos rfl, if_neg fun he : u = t => hnot r (he ▸ hu)]
      rcases lt_or_eq_of_le hle with hlt | heq
      · exact .inl hlt
      · exact .inr ⟨heq, Nat.lt_succ_of_le (hi.suspendedAt u)⟩
  · rw [Function.update_of_ne hrq, hsame]
    exact hsorted

omit [DecidableEq ι] in
theorem prioInv_changePriority {prio : Priority} (hi : PrioInv flag h k)
    (hkeeps : KeepsPlace flag h k (.op (.changePriority t prio))) :
    PrioInv flag ((k, .op (.changePriority t prio)) :: h) (rtThreadChangePriority k t prio) := by
  obtain ⟨hwaiting, hprios⟩ := rtThreadChangePriority_waiting hi.sched t prio
  have hat : suspendedAt ((k, .op (.changePriority t prio)) :: h) = suspendedAt h := by
    funext u
    simp [suspendedAt, suspends]
  refine ⟨inv_changePriority hi.sched t prio, suspendedAt_le hi.suspendedAt, fun q hq => ?_⟩
  rw [hwaiting, hprios, hat]
  have hother (u : τ) (hu : u ≠ t) : rank (Function.update (prios k) t prio) (suspendedAt h) u =
      rank (prios k) (suspendedAt h) u := by
    rw [rank, rank, Function.update_of_ne hu]
  have hself : rank (Function.update (prios k) t prio) (suspendedAt h) t = toLex (prio.val, suspendedAt h t) := by
    rw [rank, Function.update_self]
  have hne {u v : τ} (hlt : rank (prios k) (suspendedAt h) u < rank (prios k) (suspendedAt h) v) : u ≠ v :=
    fun he => lt_irrefl _ (he ▸ hlt)
  refine (hi.sorted q hq).imp_of_mem fun {u v} hu hv hlt => ?_
  by_cases hut : u = t
  · subst hut
    have hvu := (hne hlt).symm
    rw [hself, hother v hvu]
    exact (hkeeps q hq hu v hv hvu).2 hlt
  · rw [hother u hut]
    by_cases hvt : v = t
    · subst hvt
      rw [hself]
      exact (hkeeps q hq hv u hu hut).1 hlt
    · rwa [hother v hvt]

theorem prioInv_step (hi : PrioInv flag h k) (hkeeps : KeepsPlace flag h k a) (hs : prioStep flag k a = some k') :
    PrioInv flag ((k, a) :: h) k' := by
  cases a with
  | suspend q =>
    obtain ⟨t, hcur, hs⟩ := Option.bind_eq_some_iff.mp hs
    exact prioInv_suspend hi hcur hs
  | resume q =>
    obtain ⟨t, -, rfl⟩ := Option.map_eq_some_iff.mp hs
    exact hi.leave rfl (inv_resume hi.sched t) (leaves_resume hi.sched t)
  | op b =>
    obtain ⟨hop, hs⟩ := Option.ite_none_right_eq_some.mp hs
    by_cases hprio : ∃ t prio, b = .changePriority t prio
    · obtain ⟨t, prio, rfl⟩ := hprio
      obtain rfl := Option.some.inj hs
      exact prioInv_changePriority hi hkeeps
    · have hvalid : ValidUse k b := by
        cases b with
        | insert t | remove t => simp [IsOp] at hop
        | _ => trivial
      exact hi.leave rfl (schedInv_step hi.sched hvalid hs)
        (leaves_op hi.sched hop (fun t prio he => hprio ⟨t, prio, he⟩) hs)

theorem prioInv_run (hrun : (prioWait τ flag).Run h k) (hkeeps : Throughout (KeepsPlace flag) h) :
    PrioInv flag h k := by
  refine hrun.invariant (I := fun h k => PrioInv flag h k) ?_ ?_ hkeeps
  · intro k hinit
    have hsched : SchedInv k := schedInv (.init hinit : (scheduler τ ι).Run [] k) trivial
    exact ⟨hsched, fun _ => le_rfl, fun q _ => by simp [hinit.waiting]⟩
  · exact fun _ _ _ _ _ hi hk hs => prioInv_step hi hk hs

/-- In every run in which a thread that waits in a list by priority keeps its place when its priority is changed,
`rt_ipc_list_resume` of such a list makes the thread ready that has the smallest priority number of those that wait
there, and of those with this number the one that suspended itself first. -/
theorem resumes_first (hrun : (prioWait τ flag).Run h k) (hkeeps : Throughout (KeepsPlace flag) h)
    (hflag : flag q = .prio) (hs : rtIpcListResume k q = some k') :
    ∃ t ∈ k.waiting q, (k.tcb t).stat = .suspend ∧ (k'.tcb t).stat = .ready ∧
      k'.waiting q = (k.waiting q).erase t ∧ ∀ u ∈ k.waiting q, u ≠ t →
        (k.tcb t).currentPriority < (k.tcb u).currentPriority ∨
        (k.tcb t).currentPriority = (k.tcb u).currentPriority ∧ suspendedAt h t < suspendedAt h u := by
  have hi := prioInv_run hrun hkeeps
  obtain ⟨t, hhead, rfl⟩ := Option.map_eq_some_iff.mp hs
  obtain ⟨rest, hlist⟩ : ∃ rest, k.waiting q = t :: rest := by
    cases hw : k.waiting q with
    | nil => simp [hw] at hhead
    | cons v rest =>
      rw [hw] at hhead
      exact ⟨rest, by rw [Option.some.inj hhead]⟩
  have ht : t ∈ k.waiting q := by simp [hlist]
  have hstat := (hi.sched.waiting t q ht).2
  obtain ⟨htcb, hwaiting, -⟩ := SemThreads.rtThreadResume_spec (ι := ι) hstat
  refine ⟨t, ht, hstat, by rw [htcb], hwaiting q, fun u hu hut => ?_⟩
  have hsorted := hi.sorted q hflag
  rw [hlist] at hu hsorted
  have hlt := (List.pairwise_cons.mp hsorted).1 u ((List.mem_cons.mp hu).resolve_left hut)
  exact rank_lt.mp hlt

/-- Three threads, before they are started. -/
def prioStart : Kernel (Option Bool) Unit where
  tcb t :=
    { stat := .init
      initPriority := t.elim (priority 31) fun b => if b then priority 10 else priority 20
      currentPriority := priority 31
      numberMask := 0
      initTick := 1
      remainingTick := 1
      error := rtEok
      isSystem := false }
  table _ := []
  group := 0
  current := none
  currentPriority := priority 0
  lockNest := 0
  waiting _ := []
  defunct := []

theorem prioInit_start : SchedInit prioStart where
  stat _ := rfl
  mask _ := rfl
  table _ := rfl
  group := rfl
  current := rfl
  waiting _ := rfl
  defunct := rfl

/-- The threads of the priorities 10 and 20 wait; the first one gets the priority 30, and is still resumed first. -/
theorem resumed_before_smaller : ∃ h k, (prioWait (Option Bool) fun _ : Unit => .prio).Run h k ∧
    k.waiting () = [some true, some false] ∧ (k.tcb (some true)).currentPriority = priority 30 ∧
    (k.tcb (some false)).currentPriority = priority 20 ∧
    (rtIpcListResume k ()).map (fun k' => ((k'.tcb (some true)).stat, (k'.tcb (some false)).stat)) =
      some (.ready, .suspend) :=
  System.exists_run (S := prioWait (Option Bool) fun _ : Unit => .prio) prioInit_start
    [.op (.startup (some true)), .op (.startup (some false)), .op (.startup none), .op .start, .suspend (),
      .op .schedule, .suspend (), .op .schedule, .op (.changePriority (some true) (priority 30))]
    (fun _ k => k.waiting () = [some true, some false] ∧ (k.tcb (some true)).currentPriority = priority 30 ∧
      (k.tcb (some false)).currentPriority = priority 20 ∧
      (rtIpcListResume k ()).map (fun k' => ((k'.tcb (some true)).stat, (k'.tcb (some false)).stat)) =
        some (.ready, .suspend)) (by decide +kernel)

/-- All three threads wait, the one of the priority 20 first; its new priority 15 is still behind 10. -/
theorem resumes_first_run : ∃ h k, (prioWait (Option Bool) fun _ : Unit => .prio).Run h k ∧
    ∃ t ∈ k.waiting (), ∀ u ∈ k.waiting (), u ≠ t → (k.tcb t).currentPriority < (k.tcb u).currentPriority ∨
      (k.tcb t).currentPriority = (k.tcb u).currentPriority ∧ suspendedAt h t < suspendedAt h u := by
  obtain ⟨h, k, hrun, hkeeps, hsome⟩ := System.exists_run (S := prioWait (Option Bool) fun _ : Unit => .prio)
    prioInit_start
    [.op (.startup (some false)), .op (.startup none), .op .start, .suspend (), .op .schedule,
      .op (.startup (some true)), .suspend (), .op .schedule, .suspend (),
      .op (.changePriority (some false) (priority 15))]
    (fun h k => Throughout (KeepsPlace fun _ => .prio) h ∧ (rtIpcListResume k ()).isSome = true) (by decide +kernel)
  obtain ⟨k', hs⟩ := Option.isSome_iff_exists.mp hsome
  obtain ⟨t, ht, -, -, -, hfirst⟩ := resumes_first hrun hkeeps rfl hs
  exact ⟨h, k, hrun, t, ht, hfirst⟩

end runs

end ThyristorController.PrioWait
