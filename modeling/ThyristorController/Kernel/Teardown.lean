import ThyristorController.Kernel.ReadyTable
import Mathlib.Data.Fintype.Option

/-!
# Tearing a thread down (`src/thread.c`, `src/idle.c`)

`rt_thread_delete` and `rt_thread_detach` test the state of the thread, remove it from the ready table, run its
cleanup function, detach its timer and change its state; each of these is a step of the calling thread, and
interrupts and other threads may come between them. `rt_thread_exit` does all of it in one critical section,
`rt_thread_timeout` is called with interrupts disabled, and the idle thread frees one thread of
`rt_thread_defunct` in each critical section.

`torn_down_once` says what holds as long as no second teardown starts and the thread's timer does not fire while
one is in progress; `cleaned_up_twice` is a run in which the thread exits between the test and the removal.
-/

namespace ThyristorController

open Transition

/-! ## The system -/

/-- Where a call of `rt_thread_delete` or `rt_thread_detach` is: `init` is before the second test of the state,
`detachObject` is before the call of `rt_object_detach` for a static thread. -/
inductive DeletePc (τ : Type) where
  | idle
  | init (t : τ)
  | remove (t : τ)
  | cleanup (t : τ)
  | detachTimer (t : τ)
  | close (t : τ)
  | detachObject (t : τ)
deriving DecidableEq

namespace DeletePc

variable {τ : Type}

/-- The thread that is being torn down, until its state is changed. -/
def target : DeletePc τ → Option τ
  | init t | remove t | cleanup t | detachTimer t | close t => some t
  | idle | detachObject _ => none

/-- The same, once it has been removed from the ready table. -/
def removed : DeletePc τ → Option τ
  | cleanup t | detachTimer t | close t => some t
  | idle | init _ | remove _ | detachObject _ => none

/-- The same, once its cleanup function has run. -/
def cleaned : DeletePc τ → Option τ
  | detachTimer t | close t => some t
  | idle | init _ | remove _ | cleanup _ | detachObject _ => none

theorem target_of_removed {pc : DeletePc τ} {t : τ} (h : pc.removed = some t) : pc.target = some t := by
  cases pc with
  | cleanup u => exact h
  | detachTimer u => exact h
  | close u => exact h
  | _ => cases h

theorem removed_of_cleaned {pc : DeletePc τ} {t : τ} (h : pc.cleaned = some t) : pc.removed = some t := by
  cases pc with
  | detachTimer u => exact h
  | close u => exact h
  | _ => cases h

end DeletePc

/-- `detached` is a timer that is no longer an object. -/
inductive TimerStat where
  | stopped | running | detached
deriving DecidableEq

/-- `object t` is whether the thread is in the list of the kernel's objects, with its type. -/
structure TeardownState (τ ι : Type) where
  kernel : Kernel τ ι
  timer : τ → TimerStat
  object : τ → Bool
  pc : τ → DeletePc τ

/-- `check` is the running thread entering `rt_thread_delete` or `rt_thread_detach`, whichever is for the thread,
and `next` is its next statement there; `idle` is a turn of the idle thread's loop. -/
inductive TeardownAction (τ ι : Type) where
  | check (t : τ)
  | next
  | exit
  | timeout (t : τ)
  | idle
  | suspend (place : Option (ι × Nat)) (timed : Bool)
  | schedule

variable {τ ι : Type} [DecidableEq τ] [DecidableEq ι]

/-- Change the state to `RT_THREAD_CLOSE`. -/
def closeStat (k : Kernel τ ι) (t : τ) : Kernel τ ι := k.setTcb t { k.tcb t with stat := .close }

/-- Insert the thread into `rt_thread_defunct`. -/
def insertDefunct (k : Kernel τ ι) (t : τ) : Kernel τ ι := { k with defunct := t :: k.defunct }

/-- The next statement of a call of `rt_thread_delete` or `rt_thread_detach` by `d`. -/
def deleteNext (s : TeardownState τ ι) (d : τ) : Option (TeardownState τ ι) :=
  match s.pc d with
  | .idle => none
  | .init t =>
    some { s with
      pc := Function.update s.pc d (if (s.kernel.tcb t).stat ≠ .init then .remove t else .cleanup t) }
  | .remove t =>
    some { s with kernel := rtScheduleRemoveThread s.kernel t, pc := Function.update s.pc d (.cleanup t) }
  | .cleanup t => some { s with pc := Function.update s.pc d (.detachTimer t) }
  | .detachTimer t =>
    if s.timer t = .detached then none
    else
      some { s with
        timer := Function.update s.timer t .detached
        pc := Function.update s.pc d (.close t) }
  | .close t =>
    let k := closeStat s.kernel t
    if (s.kernel.tcb t).isSystem then some { s with kernel := k, pc := Function.update s.pc d (.detachObject t) }
    else some { s with kernel := insertDefunct k t, pc := Function.update s.pc d .idle }
  | .detachObject t =>
    some { s with object := Function.update s.object t false, pc := Function.update s.pc d .idle }

/-- `rt_thread_exit` of the thread `t`. -/
def rtThreadExit (s : TeardownState τ ι) (t : τ) : Option (TeardownState τ ι) :=
  let k := closeStat (rtScheduleRemoveThread s.kernel t) t
  if s.timer t = .detached then none
  else
    let timer := Function.update s.timer t .detached
    if (s.kernel.tcb t).isSystem then
      (rtSchedule k).map fun k =>
        { s with kernel := k, timer := timer, object := Function.update s.object t false }
    else
      (rtSchedule (insertDefunct k t)).map fun k => { s with kernel := k, timer := timer }

/-- A turn of the loop of `rt_thread_idle_excute`. -/
def rtThreadIdleExcute (s : TeardownState τ ι) : Option (TeardownState τ ι) :=
  match s.kernel.defunct with
  | [] => none
  | t :: _ => some { s with kernel := s.kernel.unlink t, object := Function.update s.object t false }

/-- `tidle` is the idle thread. Only the running thread takes steps, outside calls of the teardown functions
unless it is in one. -/
def teardownStep (tidle : τ) (s : TeardownState τ ι) : TeardownAction τ ι → Option (TeardownState τ ι)
  | .check t =>
    s.kernel.current.bind fun d =>
      if s.pc d = .idle ∧ s.object t = true then
        some (if (s.kernel.tcb t).stat = .close then s else { s with pc := Function.update s.pc d (.init t) })
      else none
  | .next => s.kernel.current.bind fun d => deleteNext s d
  | .exit => s.kernel.current.bind fun t => if s.pc t = .idle then rtThreadExit s t else none
  | .timeout t =>
    if s.timer t = .running then
      (rtThreadTimeout s.kernel t).map fun k => { s with kernel := k, timer := Function.update s.timer t .stopped }
    else none
  | .idle => if s.kernel.current = some tidle ∧ s.pc tidle = .idle then rtThreadIdleExcute s else none
  | .suspend place timed =>
    s.kernel.current.bind fun t =>
      if s.pc t = .idle ∧ s.timer t ≠ .detached then
        (suspendSelf s.kernel place).map fun k =>
          { s with kernel := k, timer := Function.update s.timer t (if timed then .running else .stopped) }
      else none
  | .schedule => (rtSchedule s.kernel).map fun k => { s with kernel := k }

/-- No thread has been torn down yet. -/
structure TeardownInit (s : TeardownState τ ι) : Prop where
  sched : SchedInv s.kernel
  stat : ∀ t, (s.kernel.tcb t).stat ≠ .close
  timer : ∀ t, s.timer t = .stopped ∨ s.timer t = .running ∧ (s.kernel.tcb t).stat = .suspend
  object : ∀ t, s.object t = true
  pc : ∀ d, s.pc d = .idle

def teardown (τ ι : Type) [DecidableEq τ] [DecidableEq ι] (tidle : τ) :
    System (TeardownState τ ι) (TeardownAction τ ι) where
  init := TeardownInit
  step := teardownStep tidle

/-! ## The events -/

/-- The cleanup function of the thread runs. -/
def Cleans (t : τ) (s : TeardownState τ ι) : TeardownAction τ ι → Prop
  | .next => s.kernel.current.map s.pc = some (.cleanup t)
  | .exit => s.kernel.current = some t
  | _ => False

/-- The thread's stack and control block are freed. -/
def Frees (t : τ) (s : TeardownState τ ι) : TeardownAction τ ι → Prop
  | .idle => s.kernel.defunct.head? = some t
  | _ => False

/-- No teardown of a thread starts while a call of `rt_thread_delete` or `rt_thread_detach` on it is in progress,
or, by `rt_thread_exit`, when one is over; the timer of a thread does not fire between its removal from the ready
table and the detaching of the timer. -/
def OneTeardown (s : TeardownState τ ι) : TeardownAction τ ι → Prop
  | .check t => (s.kernel.tcb t).stat ≠ .close → ∀ d, (s.pc d).target ≠ some t
  | .exit => ∀ t, s.kernel.current = some t → (s.kernel.tcb t).stat ≠ .close ∧ ∀ d, (s.pc d).target ≠ some t
  | .timeout t => ∀ d, s.pc d ≠ .cleanup t ∧ s.pc d ≠ .detachTimer t
  | _ => True

instance (t : τ) (s : TeardownState τ ι) : (a : TeardownAction τ ι) → Decidable (Cleans t s a)
  | .next => inferInstanceAs (Decidable (s.kernel.current.map s.pc = some (.cleanup t)))
  | .exit => inferInstanceAs (Decidable (s.kernel.current = some t))
  | .check _ | .timeout _ | .idle | .suspend _ _ | .schedule => isFalse id

instance (t : τ) (s : TeardownState τ ι) : (a : TeardownAction τ ι) → Decidable (Frees t s a)
  | .idle => inferInstanceAs (Decidable (s.kernel.defunct.head? = some t))
  | .check _ | .next | .exit | .timeout _ | .suspend _ _ | .schedule => isFalse id

instance [Fintype τ] (s : TeardownState τ ι) : (a : TeardownAction τ ι) → Decidable (OneTeardown s a)
  | .check t => inferInstanceAs (Decidable ((s.kernel.tcb t).stat ≠ .close → ∀ d, (s.pc d).target ≠ some t))
  | .exit => inferInstanceAs (Decidable (∀ t, s.kernel.current = some t →
      (s.kernel.tcb t).stat ≠ .close ∧ ∀ d, (s.pc d).target ≠ some t))
  | .timeout t => inferInstanceAs (Decidable (∀ d, s.pc d ≠ .cleanup t ∧ s.pc d ≠ .detachTimer t))
  | .next | .idle | .suspend _ _ | .schedule => isTrue trivial

/-! ## The node of a thread -/

/-- The thread's node is in at most one place of each list, and its state says in which kind of list. -/
structure NodeOk (k : Kernel τ ι) (t : τ) : Prop where
  table_le : ∀ p, (k.table p).count t ≤ 1
  waiting_le : ∀ q, (k.waiting q).count t ≤ 1
  defunct_le : k.defunct.count t ≤ 1
  table : ∀ p, t ∈ k.table p → (k.tcb t).stat = .ready
  waiting : ∀ q, t ∈ k.waiting q → (k.tcb t).stat = .suspend
  defunct : t ∈ k.defunct → (k.tcb t).stat = .close

section nodes

variable {k k' : Kernel τ ι} {t : τ}

omit [DecidableEq ι]

theorem NodeOk.of_unlinked (h : k.Unlinked t) : NodeOk k t where
  table_le p := by rw [List.count_eq_zero.mpr (h.1 p)]; exact Nat.zero_le 1
  waiting_le q := by rw [List.count_eq_zero.mpr (h.2.1 q)]; exact Nat.zero_le 1
  defunct_le := by rw [List.count_eq_zero.mpr h.2.2]; exact Nat.zero_le 1
  table p hm := absurd hm (h.1 p)
  waiting q hm := absurd hm (h.2.1 q)
  defunct hm := absurd hm h.2.2

theorem SchedInv.nodeOk (h : SchedInv k) (t : τ) : NodeOk k t where
  table_le p := List.nodup_iff_count_le_one.mp (h.nodup p) t
  waiting_le q := List.nodup_iff_count_le_one.mp (h.waiting_nodup q) t
  defunct_le := List.nodup_iff_count_le_one.mp h.defunct_nodup t
  table p hm := (h.mem t p hm).2.1
  waiting q hm := (h.waiting t q hm).2
  defunct hm := (h.defunct t hm).2

theorem mem_of_count_eq {l l' : List τ} (h : l'.count t = l.count t) (hm : t ∈ l') : t ∈ l :=
  List.count_pos_iff.mp (h ▸ List.count_pos_iff.mpr hm)

theorem NodeOk.frame (h : NodeOk k t) (hu : Untouched k k' t) : NodeOk k' t where
  table_le p := hu.table p ▸ h.table_le p
  waiting_le q := hu.waiting q ▸ h.waiting_le q
  defunct_le := hu.defunct ▸ h.defunct_le
  table p hm := hu.tcb ▸ h.table p (mem_of_count_eq (hu.table p) hm)
  waiting q hm := hu.tcb ▸ h.waiting q (mem_of_count_eq (hu.waiting q) hm)
  defunct hm := hu.tcb ▸ h.defunct (mem_of_count_eq hu.defunct hm)

theorem not_mem_erase_of_count {l : List τ} (h : l.count t ≤ 1) : t ∉ l.erase t := by
  rw [← List.count_eq_zero, List.count_erase_self]
  omega

theorem NodeOk.unlink (h : NodeOk k t) : (k.unlink t).Unlinked t :=
  ⟨fun p => not_mem_erase_of_count (h.table_le p), fun q => not_mem_erase_of_count (h.waiting_le q),
    not_mem_erase_of_count h.defunct_le⟩

theorem NodeOk.unlinked_of_init (h : NodeOk k t) (hstat : (k.tcb t).stat = .init) : k.Unlinked t := by
  refine ⟨fun p hm => ?_, fun q hm => ?_, fun hm => ?_⟩
  · exact absurd (hstat.symm.trans (h.table p hm)) (by simp)
  · exact absurd (hstat.symm.trans (h.waiting q hm)) (by simp)
  · exact absurd (hstat.symm.trans (h.defunct hm)) (by simp)

theorem NodeOk.remove (h : NodeOk k t) : (rtScheduleRemoveThread k t).Unlinked t := by
  rw [rtScheduleRemoveThread_eq]
  exact h.unlink

theorem nodeOk_insert (h : k.Unlinked t) : NodeOk (rtScheduleInsertThread k t) t where
  table_le p := by
    unfold rtScheduleInsertThread
    dsimp only
    by_cases hp : p = (k.tcb t).currentPriority
    · subst hp
      rw [Function.update_self, List.count_append, List.count_eq_zero.mpr (h.1 _)]
      simp
    · rw [Function.update_of_ne hp, List.count_eq_zero.mpr (h.1 p)]
      exact Nat.zero_le 1
  waiting_le q := (NodeOk.of_unlinked h).waiting_le q
  defunct_le := (NodeOk.of_unlinked h).defunct_le
  table p _ := by rw [rtScheduleInsertThread_self]
  waiting q hm := absurd hm (h.2.1 q)
  defunct hm := absurd hm h.2.2

theorem NodeOk.setTcb (h : NodeOk k t) {tcb : Tcb} (hstat : tcb.stat = (k.tcb t).stat) :
    NodeOk (k.setTcb t tcb) t :=
  { h with
    table := fun p hm => by
      rw [Kernel.setTcb_self, hstat]
      exact h.table p hm
    waiting := fun q hm => by
      rw [Kernel.setTcb_self, hstat]
      exact h.waiting q hm
    defunct := fun hm => by
      rw [Kernel.setTcb_self, hstat]
      exact h.defunct hm }

theorem NodeOk.defunct_zero (h : NodeOk k t) (hstat : (k.tcb t).stat ≠ .close) : k.defunct.count t = 0 :=
  List.count_eq_zero.mpr fun hm => hstat (h.defunct hm)

theorem NodeOk.timeout (h : NodeOk k t) (hs : rtThreadTimeout k t = some k') :
    (k.tcb t).stat = .suspend ∧ NodeOk k' t ∧ (k'.tcb t).stat = .ready ∧
      (k'.tcb t).isSystem = (k.tcb t).isSystem := by
  obtain ⟨hstat, hs⟩ := Option.ite_none_right_eq_some.mp hs
  have hsame := untouched_schedule hs t
  have hset : NodeOk (k.setTcb t { k.tcb t with error := rtEtimeout }) t := h.setTcb rfl
  refine ⟨hstat, (nodeOk_insert hset.unlink).frame hsame, ?_, ?_⟩
  · rw [hsame.tcb, rtScheduleInsertThread_self]
  · rw [hsame.tcb, rtScheduleInsertThread_self]
    show ((k.setTcb t _).tcb t).isSystem = _
    rw [Kernel.setTcb_self]

theorem NodeOk.suspend (h : NodeOk k t) (hstat : (k.tcb t).stat = .ready) :
    (rtThreadSuspend k t).Unlinked t ∧ (rtThreadSuspend k t).tcb t = { k.tcb t with stat := .suspend } := by
  refine ⟨?_, (rtThreadSuspend_eq hstat).1⟩
  rw [rtThreadSuspend, if_neg (not_not.mpr hstat)]
  exact h.remove

theorem count_insertIdx_le {l : List τ} (hm : t ∉ l) (i : Nat) : (l.insertIdx i t).count t ≤ 1 := by
  by_cases hi : i ≤ l.length
  · rw [(List.perm_insertIdx t l hi).count_eq, List.count_cons_self, List.count_eq_zero.mpr hm]
  · rw [List.insertIdx_of_length_lt (by omega), List.count_eq_zero.mpr hm]
    exact Nat.zero_le 1

theorem NodeOk.suspendSelf [DecidableEq ι] {place : Option (ι × Nat)} (h : NodeOk k t) (hcur : k.current = some t)
    (hs : suspendSelf k place = some k') :
    (k.tcb t).stat = .ready ∧ NodeOk k' t ∧ (k'.tcb t).stat = .suspend ∧
      (k'.tcb t).isSystem = (k.tcb t).isSystem := by
  cases place with
  | none =>
    obtain ⟨t', ht', hstat, rfl⟩ := suspendSelf_none hs
    obtain rfl := Option.some.inj (hcur.symm.trans ht')
    obtain ⟨hun, htcb⟩ := h.suspend hstat
    exact ⟨hstat, .of_unlinked hun, by rw [htcb], by rw [htcb]⟩
  | some place =>
    obtain ⟨q, i⟩ := place
    obtain ⟨t', ht', hstat, -, rfl⟩ := rtIpcListSuspend_cases hs
    obtain rfl := Option.some.inj (hcur.symm.trans ht')
    obtain ⟨hun, htcb⟩ := h.suspend hstat
    refine ⟨hstat, { NodeOk.of_unlinked hun with
      waiting_le := fun r => ?_, waiting := fun r hm => ?_ }, by rw [htcb], by rw [htcb]⟩
    · dsimp only
      by_cases hr : r = q
      · subst hr
        rw [Function.update_self]
        exact count_insertIdx_le (hun.2.1 r) i
      · rw [Function.update_of_ne hr, List.count_eq_zero.mpr (hun.2.1 r)]
        exact Nat.zero_le 1
    · dsimp only
      rw [htcb]

/-- A thread whose state becomes `RT_THREAD_CLOSE`, and that is inserted into `rt_thread_defunct`. -/
theorem nodeOk_close (h : k.Unlinked t) : NodeOk (closeStat k t) t := .of_unlinked h

theorem nodeOk_insertDefunct (h : k.Unlinked t) : NodeOk (insertDefunct (closeStat k t) t) t :=
  { nodeOk_close h with
    defunct_le := by
      show (t :: k.defunct).count t ≤ 1
      rw [List.count_cons_self, List.count_eq_zero.mpr h.2.2]
    defunct := fun _ => by
      show ((k.setTcb t _).tcb t).stat = .close
      rw [Kernel.setTcb_self] }

theorem untouched_close (k : Kernel τ ι) {u : τ} (hu : u ≠ t) : Untouched k (closeStat k t) u :=
  untouched_setTcb k _ hu

theorem untouched_insertDefunct (k : Kernel τ ι) {u : τ} (hu : u ≠ t) : Untouched k (insertDefunct k t) u :=
  ⟨rfl, fun _ => rfl, fun _ => rfl, List.count_cons_of_ne (Ne.symm hu)⟩

@[simp] theorem closeStat_self (k : Kernel τ ι) (t : τ) :
    (closeStat k t).tcb t = { k.tcb t with stat := .close } := k.setTcb_self t _

omit [DecidableEq τ] in
@[simp] theorem insertDefunct_tcb (k : Kernel τ ι) (t : τ) : (insertDefunct k t).tcb = k.tcb := rfl

end nodes

/-! ## The invariant -/

/-- The invariant of one thread. -/
structure ThreadInv (h : History (TeardownState τ ι) (TeardownAction τ ι)) (s : TeardownState τ ι) (t : τ) :
    Prop where
  node : NodeOk s.kernel t
  running : s.timer t = .running → (s.kernel.tcb t).stat = .suspend
  unique : ∀ c d, (s.pc c).target = some t → (s.pc d).target = some t → c = d
  alive : ∀ c, (s.pc c).target = some t → (s.kernel.tcb t).stat ≠ .close
  removed : ∀ c, (s.pc c).removed = some t → s.kernel.Unlinked t ∧ (s.kernel.current = some t → c = t)
  detached : ∀ c, s.pc c = .close t → s.timer t = .detached
  static : ∀ c, s.pc c = .detachObject t → (s.kernel.tcb t).isSystem = true
  closed : (s.kernel.tcb t).stat = .close → s.timer t = .detached
  cleaned : (s.kernel.tcb t).stat = .close ∨ (∃ c, (s.pc c).cleaned = some t) → count (Cleans t) h = 1
  uncleaned : (s.kernel.tcb t).stat ≠ .close → (∀ c, (s.pc c).cleaned ≠ some t) → count (Cleans t) h = 0
  frees : count (Frees t) h + s.kernel.defunct.count t =
    if (s.kernel.tcb t).stat = .close ∧ (s.kernel.tcb t).isSystem = false then 1 else 0
  object : (s.kernel.tcb t).isSystem = false → (s.object t = true ↔ count (Frees t) h = 0)

section invariant

variable {h : History (TeardownState τ ι) (TeardownAction τ ι)} {s s' : TeardownState τ ι}
  {a : TeardownAction τ ι} {t u d : τ}

omit [DecidableEq ι]

theorem ThreadInv.frame (hi : ThreadInv h s u) (hun : Untouched s.kernel s'.kernel u)
    (htimer : s'.timer u = s.timer u)
    (hobject : (s.kernel.tcb u).isSystem = false → s'.object u = s.object u)
    (hpc : ∀ d, s'.pc d = s.pc d ∨
      (s.pc d).target ≠ some u ∧ (s'.pc d).target ≠ some u ∧ s'.pc d ≠ .detachObject u)
    (hcur : s.kernel.Unlinked u → s'.kernel.current = some u → s.kernel.current = some u)
    (hcleans : ¬ Cleans u s a) (hfrees : ¬ Frees u s a) : ThreadInv ((s, a) :: h) s' u := by
  have hsame {c : τ} (hc : (s'.pc c).target = some u) : s'.pc c = s.pc c :=
    (hpc c).resolve_right fun hn => hn.2.1 hc
  have hback {c : τ} (hc : (s.pc c).target = some u) : s'.pc c = s.pc c :=
    (hpc c).resolve_right fun hn => hn.1 hc
  have hcleaned {c : τ} (hc : (s'.pc c).cleaned = some u) : (s.pc c).cleaned = some u :=
    hsame (DeletePc.target_of_removed (DeletePc.removed_of_cleaned hc)) ▸ hc
  exact
    { node := hi.node.frame hun
      running := fun hr => by
        rw [hun.tcb]
        exact hi.running (htimer ▸ hr)
      unique := fun c d hc hd => hi.unique c d (hsame hc ▸ hc) (hsame hd ▸ hd)
      alive := fun c hc => by
        rw [hun.tcb]
        exact hi.alive c (hsame hc ▸ hc)
      removed := fun c hc => by
        have heq := hsame (DeletePc.target_of_removed hc)
        obtain ⟨hul, hc'⟩ := hi.removed c (heq ▸ hc)
        exact ⟨hun.unlinked hul, fun hcu => hc' (hcur hul hcu)⟩
      detached := fun c hc => by
        have heq := hsame (c := c) (by rw [hc]; rfl)
        rw [htimer]
        exact hi.detached c (heq ▸ hc)
      static := fun c hc => by
        rw [hun.tcb]
        exact hi.static c (((hpc c).resolve_right fun hn => hn.2.2 hc) ▸ hc)
      closed := fun hs => by
        rw [htimer]
        exact hi.closed (hun.tcb ▸ hs)
      cleaned := fun hc => by
        rw [count_cons, if_neg hcleans]
        refine hi.cleaned (hc.imp (fun hs => hun.tcb ▸ hs) fun ⟨c, hc⟩ => ⟨c, hcleaned hc⟩)
      uncleaned := fun hs hc => by
        rw [count_cons, if_neg hcleans]
        refine hi.uncleaned (hun.tcb ▸ hs) fun c hcl => hc c ?_
        rw [hback (DeletePc.target_of_removed (DeletePc.removed_of_cleaned hcl))]
        exact hcl
      frees := by
        rw [count_cons, if_neg hfrees, hun.tcb, hun.defunct]
        exact hi.frees
      object := fun hs => by
        rw [hun.tcb] at hs
        rw [count_cons, if_neg hfrees, hobject hs]
        exact hi.object hs }

/-- A timeout or a suspension of the thread, while no teardown of it is past the removal. -/
theorem ThreadInv.of_not_removed (hi : ThreadInv h s t) (hpc : s'.pc = s.pc) (hobject : s'.object = s.object)
    (hfree : ∀ c, (s.pc c).removed ≠ some t) (hnode : NodeOk s'.kernel t)
    (hstat : (s.kernel.tcb t).stat ≠ .close) (hstat' : (s'.kernel.tcb t).stat ≠ .close)
    (hsys : (s'.kernel.tcb t).isSystem = (s.kernel.tcb t).isSystem)
    (hrun : s'.timer t = .running → (s'.kernel.tcb t).stat = .suspend)
    (hcleans : ¬ Cleans t s a) (hfrees : ¬ Frees t s a) : ThreadInv ((s, a) :: h) s' t := by
  have hnone (c : τ) : (s.pc c).cleaned ≠ some t := fun hc => hfree c (DeletePc.removed_of_cleaned hc)
  exact
    { node := hnode
      running := hrun
      unique := by
        rw [hpc]
        exact hi.unique
      alive := fun c _ => hstat'
      removed := fun c hc => by
        rw [hpc] at hc
        exact absurd hc (hfree c)
      detached := fun c hc => by
        rw [hpc] at hc
        exact absurd (by rw [hc]; rfl) (hfree c)
      static := fun c hc => by
        rw [hpc] at hc
        rw [hsys]
        exact hi.static c hc
      closed := fun hs => absurd hs hstat'
      cleaned := fun hc => by
        rcases hc with hs | ⟨c, hc⟩
        · exact absurd hs hstat'
        · rw [hpc] at hc
          exact absurd hc (hnone c)
      uncleaned := fun _ _ => by
        rw [count_cons, if_neg hcleans]
        exact hi.uncleaned hstat hnone
      frees := by
        have hold := hi.frees
        rw [hi.node.defunct_zero hstat, if_neg fun hc => hstat hc.1] at hold
        rw [count_cons, if_neg hfrees, hnode.defunct_zero hstat', if_neg fun hc => hstat' hc.1]
        exact hold
      object := fun hs => by
        rw [hsys] at hs
        rw [count_cons, if_neg hfrees, hobject]
        exact hi.object hs }

/-- A step by which the call of `d` comes to `p`, where no other call is in a teardown of the thread. -/
theorem ThreadInv.advance (hi : ThreadInv h s t) {p : DeletePc τ} (hpc : s'.pc = Function.update s.pc d p)
    (hsole : ∀ c, (s.pc c).target = some t → c = d) (hnode : NodeOk s'.kernel t)
    (hsys : (s'.kernel.tcb t).isSystem = (s.kernel.tcb t).isSystem)
    (hrun : s'.timer t = .running → (s'.kernel.tcb t).stat = .suspend)
    (halive : p.target = some t → (s'.kernel.tcb t).stat ≠ .close)
    (hremoved : p.removed = some t → s'.kernel.Unlinked t ∧ (s'.kernel.current = some t → d = t))
    (hdetached : p = .close t → s'.timer t = .detached)
    (hstatic : p = .detachObject t → (s.kernel.tcb t).isSystem = true)
    (hclosed : (s'.kernel.tcb t).stat = .close → s'.timer t = .detached)
    (hcleans : count (Cleans t) ((s, a) :: h) =
      if (s'.kernel.tcb t).stat = .close ∨ p.cleaned = some t then 1 else 0)
    (hfrees : count (Frees t) ((s, a) :: h) + s'.kernel.defunct.count t =
      if (s'.kernel.tcb t).stat = .close ∧ (s.kernel.tcb t).isSystem = false then 1 else 0)
    (hobject : (s.kernel.tcb t).isSystem = false →
      (s'.object t = true ↔ count (Frees t) ((s, a) :: h) = 0)) : ThreadInv ((s, a) :: h) s' t := by
  have hself : s'.pc d = p := by rw [hpc, Function.update_self]
  have hother {c : τ} (hc : c ≠ d) : s'.pc c = s.pc c := by rw [hpc, Function.update_of_ne hc]
  have hsole' (c : τ) (hc : (s'.pc c).target = some t) : c = d := by
    by_contra hcd
    exact hcd (hsole c (hother hcd ▸ hc))
  exact
    { node := hnode
      running := hrun
      unique := fun c c' hc hc' => (hsole' c hc).trans (hsole' c' hc').symm
      alive := fun c hc => by
        obtain rfl := hsole' c hc
        exact halive (hself ▸ hc)
      removed := fun c hc => by
        obtain rfl := hsole' c (DeletePc.target_of_removed hc)
        exact hremoved (hself ▸ hc)
      detached := fun c hc => by
        obtain rfl := hsole' c (by rw [hc]; rfl)
        exact hdetached (hself.symm.trans hc)
      static := fun c hc => by
        rw [hsys]
        by_cases hcd : c = d
        · subst hcd
          exact hstatic (hself.symm.trans hc)
        · exact hi.static c (hother hcd ▸ hc)
      closed := hclosed
      cleaned := fun hc => by
        rw [hcleans, if_pos]
        refine hc.imp id fun ⟨c, hc⟩ => ?_
        obtain rfl := hsole' c (DeletePc.target_of_removed (DeletePc.removed_of_cleaned hc))
        exact hself ▸ hc
      uncleaned := fun hs hc => by
        rw [hcleans, if_neg (not_or.mpr ⟨hs, hself ▸ hc d⟩)]
      frees := by
        rw [hsys]
        exact hfrees
      object := fun hs => hobject (hsys ▸ hs) }

theorem ThreadInv.advance_same (hi : ThreadInv h s t) {p : DeletePc τ} (hpc : s'.pc = Function.update s.pc d p)
    (hsole : ∀ c, (s.pc c).target = some t → c = d) (hstat : (s.kernel.tcb t).stat ≠ .close)
    (hkernel : s'.kernel = s.kernel) (hobject : s'.object = s.object) (hfrees : ¬ Frees t s a)
    (hrun : s'.timer t = .running → s.timer t = .running)
    (hremoved : p.removed = some t → s.kernel.Unlinked t ∧ (s.kernel.current = some t → d = t))
    (hdetached : p = .close t → s'.timer t = .detached) (hp : p ≠ .detachObject t)
    (hcleans : count (Cleans t) ((s, a) :: h) = if p.cleaned = some t then 1 else 0) :
    ThreadInv ((s, a) :: h) s' t := by
  refine hi.advance hpc hsole ?_ ?_ (fun hr => ?_) (fun _ => ?_) (fun hr => ?_) hdetached (fun hc => absurd hc hp)
    (fun hc => ?_) ?_ ?_ ?_
  · rw [hkernel]
    exact hi.node
  · rw [hkernel]
  · rw [hkernel]
    exact hi.running (hrun hr)
  · rwa [hkernel]
  · rw [hkernel]
    exact hremoved hr
  · rw [hkernel] at hc
    exact absurd hc hstat
  · rw [hcleans, hkernel]
    simp only [hstat, false_or]
  · rw [count_cons, if_neg hfrees, hkernel]
    exact hi.frees
  · rw [count_cons, if_neg hfrees, hobject]
    exact hi.object

theorem ThreadInv.not_cleaned (hi : ThreadInv h s t) (hd : (s.pc d).target = some t)
    (hnot : (s.pc d).cleaned ≠ some t) : count (Cleans t) h = 0 := by
  refine hi.uncleaned (hi.alive d hd) fun c hc => hnot ?_
  rwa [← hi.unique c d (DeletePc.target_of_removed (DeletePc.removed_of_cleaned hc)) hd]

theorem ThreadInv.not_freed (hi : ThreadInv h s t) (hstat : (s.kernel.tcb t).stat ≠ .close) :
    count (Frees t) h = 0 ∧ s.kernel.defunct.count t = 0 := by
  have hfrees := hi.frees
  rw [if_neg fun hc => hstat hc.1] at hfrees
  omega

theorem pc_update_other {pc : DeletePc τ} (hold : (s.pc d).target ≠ some u) (htarget : pc.target ≠ some u)
    (hobject : pc ≠ .detachObject u) (c : τ) :
    Function.update s.pc d pc c = s.pc c ∨ (s.pc c).target ≠ some u ∧
      (Function.update s.pc d pc c).target ≠ some u ∧ Function.update s.pc d pc c ≠ .detachObject u := by
  by_cases hcd : c = d
  · subst hcd
    rw [Function.update_self]
    exact .inr ⟨hold, htarget, hobject⟩
  · exact .inl (Function.update_of_ne hcd _ _)

end invariant

/-! ## The calls of `rt_thread_delete` and `rt_thread_detach` -/

section calls

variable {h : History (TeardownState τ ι) (TeardownAction τ ι)} {s s' : TeardownState τ ι} {t u d : τ}

theorem inv_check (hi : ∀ u, ThreadInv h s u) (hG : OneTeardown s (.check t))
    (hs : teardownStep d s (.check t) = some s') (u : τ) : ThreadInv ((s, .check t) :: h) s' u := by
  obtain ⟨c, -, hs⟩ := Option.bind_eq_some_iff.mp hs
  obtain ⟨⟨hidle, -⟩, hs⟩ := Option.ite_none_right_eq_some.mp hs
  have hold (v : τ) : (s.pc c).target ≠ some v := by rw [hidle]; simp [DeletePc.target]
  split_ifs at hs with hstat
  · obtain rfl := Option.some.inj hs
    exact (hi u).frame (.refl _ u) rfl (fun _ => rfl) (fun _ => .inl rfl) (fun _ => id) id id
  · obtain rfl := Option.some.inj hs
    have hfree := hG hstat
    by_cases hut : u = t
    · subst hut
      refine (hi u).advance_same (p := .init u) rfl (fun e he => absurd he (hfree e)) hstat rfl rfl id id
        (by simp [DeletePc.removed]) (by simp) (by simp) ?_
      rw [count_cons, if_neg (show ¬ Cleans u s (.check u) from id), if_neg (by simp [DeletePc.cleaned])]
      exact (hi u).uncleaned hstat fun e he =>
        hfree e (DeletePc.target_of_removed (DeletePc.removed_of_cleaned he))
    · refine (hi u).frame (.refl _ u) rfl (fun _ => rfl) (pc_update_other (hold u) ?_ ?_) (fun _ => id) id id
      · simpa [DeletePc.target] using Ne.symm hut
      · simp

section next

omit [DecidableEq ι]

omit [DecidableEq τ] in
theorem cleans_next (hcur : s.kernel.current = some d) (v : τ) :
    Cleans v s .next ↔ s.pc d = .cleanup v := by simp [Cleans, hcur]

omit [DecidableEq τ] in
theorem not_frees_next (v : τ) : ¬ Frees v s .next := id

/-- The other threads, in a step from a program point about `t` to another one about `t`. -/
theorem inv_next_other (hi : ThreadInv h s u) (hcur : s.kernel.current = some d) {pc : DeletePc τ} (hut : u ≠ t)
    (hold : (s.pc d).target = some t) (hpc : s'.pc = Function.update s.pc d pc)
    (hnew : pc = .idle ∨ pc.target = some t ∨ pc = .detachObject t) (hun : Untouched s.kernel s'.kernel u)
    (htimer : s'.timer u = s.timer u) (hobject : s'.object = s.object)
    (hcurrent : s'.kernel.current = s.kernel.current) : ThreadInv ((s, .next) :: h) s' u := by
  refine hi.frame hun htimer (fun _ => by rw [hobject]) (fun c => ?_) (fun _ hc => hcurrent ▸ hc) (fun hc => ?_)
    (not_frees_next u)
  · rw [hpc]
    refine pc_update_other ?_ ?_ ?_ c
    · rw [hold]
      simpa using Ne.symm hut
    · rcases hnew with rfl | hnew | rfl
      · simp [DeletePc.target]
      · rw [hnew]
        simpa using Ne.symm hut
      · simp [DeletePc.target]
    · rcases hnew with rfl | hnew | rfl
      · simp
      · rintro rfl
        cases hnew
      · simpa using Ne.symm hut
  · rw [(cleans_next hcur u).mp hc] at hold
    exact hut (Option.some.inj hold)

variable (hi : ∀ u, ThreadInv h s u) (hcur : s.kernel.current = some d)
include hi hcur

theorem inv_init (hpc : s.pc d = .init t) (u : τ) :
    ThreadInv ((s, .next) :: h) { s with
      pc := Function.update s.pc d (if (s.kernel.tcb t).stat ≠ .init then .remove t else .cleanup t) } u := by
  have htarget : (s.pc d).target = some t := by rw [hpc]; rfl
  have hstat := (hi t).alive d htarget
  by_cases hut : u = t
  · subst hut
    refine (hi u).advance_same rfl (fun c hc => (hi u).unique c d hc htarget) hstat rfl rfl (not_frees_next u) id
      (fun hr => ?_) (fun hc => ?_) (fun hc => ?_) ?_
    · split_ifs at hr with hinit
      · cases hr
      · exact ⟨(hi u).node.unlinked_of_init (not_not.mp hinit), fun hc => Option.some.inj (hcur.symm.trans hc)⟩
    · split_ifs at hc
    · split_ifs at hc
    · rw [count_cons, if_neg (by simp [cleans_next hcur, hpc]),
        (hi u).not_cleaned htarget (by rw [hpc]; simp [DeletePc.cleaned]), if_neg]
      split_ifs <;> simp [DeletePc.cleaned]
  · refine inv_next_other (hi u) hcur hut htarget rfl (.inr (.inl ?_)) (.refl _ u) rfl rfl rfl
    split_ifs <;> rfl

theorem inv_remove_next (hpc : s.pc d = .remove t) (u : τ) :
    ThreadInv ((s, .next) :: h) { s with
      kernel := rtScheduleRemoveThread s.kernel t, pc := Function.update s.pc d (.cleanup t) } u := by
  have htarget : (s.pc d).target = some t := by rw [hpc]; rfl
  have hstat := (hi t).alive d htarget
  have hcurrent := rtScheduleRemoveThread_current s.kernel t
  by_cases hut : u = t
  · subst hut
    have hun := (hi u).node.remove
    obtain ⟨hf, -⟩ := (hi u).not_freed hstat
    have htcb : (rtScheduleRemoveThread s.kernel u).tcb u = s.kernel.tcb u := by rw [rtScheduleRemoveThread_tcb]
    refine (hi u).advance rfl (fun c hc => (hi u).unique c d hc htarget) (.of_unlinked hun) (by rw [htcb])
      (fun hr => ?_) (fun _ => ?_) (fun _ => ⟨hun, fun hc => ?_⟩) (by simp) (by simp) (fun hc => ?_) ?_ ?_ ?_
    · rw [htcb]
      exact (hi u).running hr
    · rw [htcb]
      exact hstat
    · exact Option.some.inj (hcur.symm.trans (hcurrent.symm.trans hc))
    · rw [htcb] at hc
      exact absurd hc hstat
    · rw [count_cons, if_neg (by simp [cleans_next hcur, hpc]),
        (hi u).not_cleaned htarget (by rw [hpc]; simp [DeletePc.cleaned]), htcb,
        if_neg (by simp [hstat, DeletePc.cleaned])]
    · rw [count_cons, if_neg (not_frees_next u), htcb, if_neg fun hc => hstat hc.1, hf,
        List.count_eq_zero.mpr hun.2.2]
    · rw [count_cons, if_neg (not_frees_next u)]
      exact (hi u).object
  · exact inv_next_other (hi u) hcur hut htarget rfl (.inr (.inl rfl)) (untouched_remove _ hut) rfl rfl hcurrent

theorem inv_cleanup (hpc : s.pc d = .cleanup t) (u : τ) :
    ThreadInv ((s, .next) :: h) { s with pc := Function.update s.pc d (.detachTimer t) } u := by
  have htarget : (s.pc d).target = some t := by rw [hpc]; rfl
  have hstat := (hi t).alive d htarget
  by_cases hut : u = t
  · subst hut
    refine (hi u).advance_same rfl (fun c hc => (hi u).unique c d hc htarget) hstat rfl rfl (not_frees_next u) id
      (fun _ => (hi u).removed d (by rw [hpc]; rfl)) (by simp) (by simp) ?_
    rw [count_cons, if_pos ((cleans_next hcur u).mpr hpc),
      (hi u).not_cleaned htarget (by rw [hpc]; simp [DeletePc.cleaned]),
      if_pos (show (DeletePc.detachTimer u).cleaned = some u from rfl)]
  · exact inv_next_other (hi u) hcur hut htarget rfl (.inr (.inl rfl)) (.refl _ u) rfl rfl rfl

theorem inv_detachTimer (hpc : s.pc d = .detachTimer t) (u : τ) :
    ThreadInv ((s, .next) :: h) { s with
      timer := Function.update s.timer t .detached, pc := Function.update s.pc d (.close t) } u := by
  have htarget : (s.pc d).target = some t := by rw [hpc]; rfl
  have hstat := (hi t).alive d htarget
  by_cases hut : u = t
  · subst hut
    have htimer : Function.update s.timer u .detached u = TimerStat.detached := Function.update_self _ _ _
    refine (hi u).advance_same rfl (fun c hc => (hi u).unique c d hc htarget) hstat rfl rfl (not_frees_next u)
      (fun hr => absurd (htimer.symm.trans hr) (by simp)) (fun _ => (hi u).removed d (by rw [hpc]; rfl))
      (fun _ => htimer) (by simp) ?_
    rw [count_cons, if_neg (by simp [cleans_next hcur, hpc]),
      if_pos (show (DeletePc.close u).cleaned = some u from rfl)]
    exact (hi u).cleaned (.inr ⟨d, by rw [hpc]; rfl⟩)
  · exact inv_next_other (hi u) hcur hut htarget rfl (.inr (.inl rfl)) (.refl _ u) (Function.update_of_ne hut _ _)
      rfl rfl

theorem inv_close_static (hpc : s.pc d = .close t) (hsys : (s.kernel.tcb t).isSystem = true) (u : τ) :
    ThreadInv ((s, .next) :: h) { s with
      kernel := closeStat s.kernel t, pc := Function.update s.pc d (.detachObject t) } u := by
  have htarget : (s.pc d).target = some t := by rw [hpc]; rfl
  have hstat := (hi t).alive d htarget
  by_cases hut : u = t
  · subst hut
    obtain ⟨hf, hd⟩ := (hi u).not_freed hstat
    refine (hi u).advance rfl (fun c hc => (hi u).unique c d hc htarget)
      (nodeOk_close ((hi u).removed d (by rw [hpc]; rfl)).1) (by simp) (fun hr => ?_) (by simp [DeletePc.target])
      (by simp [DeletePc.removed]) (by simp) (fun _ => hsys) (fun _ => (hi u).detached d hpc) ?_ ?_ ?_
    · exact absurd (((hi u).detached d hpc).symm.trans hr) (by simp)
    · rw [count_cons, if_neg (by simp [cleans_next hcur, hpc]), if_pos (.inl (by simp))]
      exact (hi u).cleaned (.inr ⟨d, by rw [hpc]; rfl⟩)
    · rw [count_cons, if_neg (not_frees_next u), hf, if_neg (by simp [hsys])]
      show 0 + 0 + s.kernel.defunct.count u = 0
      rw [hd]
    · rw [hsys]
      exact Bool.noConfusion
  · exact inv_next_other (hi u) hcur hut htarget rfl (.inr (.inr rfl)) (untouched_close _ hut) rfl rfl rfl

theorem inv_close_dynamic (hpc : s.pc d = .close t) (hsys : (s.kernel.tcb t).isSystem = false) (u : τ) :
    ThreadInv ((s, .next) :: h) { s with
      kernel := insertDefunct (closeStat s.kernel t) t, pc := Function.update s.pc d .idle } u := by
  have htarget : (s.pc d).target = some t := by rw [hpc]; rfl
  have hstat := (hi t).alive d htarget
  by_cases hut : u = t
  · subst hut
    obtain ⟨hf, hd⟩ := (hi u).not_freed hstat
    have hun := ((hi u).removed d (by rw [hpc]; rfl)).1
    refine (hi u).advance rfl (fun c hc => (hi u).unique c d hc htarget) (nodeOk_insertDefunct hun) (by simp)
      (fun hr => ?_) (by simp [DeletePc.target]) (by simp [DeletePc.removed]) (by simp) (by simp)
      (fun _ => (hi u).detached d hpc) ?_ ?_ ?_
    · exact absurd (((hi u).detached d hpc).symm.trans hr) (by simp)
    · rw [count_cons, if_neg (by simp [cleans_next hcur, hpc]), if_pos (.inl (by simp))]
      exact (hi u).cleaned (.inr ⟨d, by rw [hpc]; rfl⟩)
    · rw [count_cons, if_neg (not_frees_next u), hf, if_pos ⟨by simp, hsys⟩]
      show 0 + 0 + (u :: s.kernel.defunct).count u = 1
      rw [List.count_cons_self, hd]
    · rw [count_cons, if_neg (not_frees_next u)]
      exact (hi u).object
  · exact inv_next_other (hi u) hcur hut htarget rfl (.inl rfl)
      ((untouched_close _ hut).trans (untouched_insertDefunct _ hut)) rfl rfl rfl

theorem inv_detachObject (hpc : s.pc d = .detachObject t) (u : τ) :
    ThreadInv ((s, .next) :: h) { s with
      object := Function.update s.object t false, pc := Function.update s.pc d .idle } u := by
  refine (hi u).frame (.refl _ u) rfl (fun hsys => ?_) (pc_update_other ?_ ?_ ?_) (fun _ => id) ?_
    (not_frees_next u)
  · refine Function.update_of_ne (fun hut => ?_) _ _
    subst hut
    exact absurd (((hi u).static d hpc).symm.trans hsys) (by simp)
  · simp [hpc, DeletePc.target]
  · simp [DeletePc.target]
  · simp
  · simp [cleans_next hcur, hpc]

end next

omit [DecidableEq ι] in
theorem inv_deleteNext (hi : ∀ u, ThreadInv h s u) (hcur : s.kernel.current = some d)
    (hs : deleteNext s d = some s') (u : τ) : ThreadInv ((s, .next) :: h) s' u := by
  unfold deleteNext at hs
  split at hs
  · cases hs
  · next t hpc => exact Option.some.inj hs ▸ inv_init hi hcur hpc u
  · next t hpc => exact Option.some.inj hs ▸ inv_remove_next hi hcur hpc u
  · next t hpc => exact Option.some.inj hs ▸ inv_cleanup hi hcur hpc u
  · next t hpc =>
    split_ifs at hs
    exact Option.some.inj hs ▸ inv_detachTimer hi hcur hpc u
  · next t hpc =>
    dsimp only at hs
    split_ifs at hs with hsys
    · exact Option.some.inj hs ▸ inv_close_static hi hcur hpc hsys u
    · exact Option.some.inj hs ▸ inv_close_dynamic hi hcur hpc (by simpa using hsys) u
  · next t hpc => exact Option.some.inj hs ▸ inv_detachObject hi hcur hpc u

end calls

/-! ## The other steps -/

section steps

variable {h : History (TeardownState τ ι) (TeardownAction τ ι)} {s s' : TeardownState τ ι} {t u tidle : τ}

omit [DecidableEq ι] in
/-- `rt_thread_exit`, up to its call of `rt_schedule` in the kernel `k`. -/
theorem inv_exit_kernel (hi : ∀ u, ThreadInv h s u) (hcur : s.kernel.current = some t) (hidle : s.pc t = .idle)
    (hG : OneTeardown s .exit) {k k' : Kernel τ ι} {object : τ → Bool} (hs : rtSchedule k = some k')
    (hk : k = closeStat (rtScheduleRemoveThread s.kernel t) t ∧ (s.kernel.tcb t).isSystem = true ∨
      k = insertDefunct (closeStat (rtScheduleRemoveThread s.kernel t) t) t ∧
        (s.kernel.tcb t).isSystem = false ∧ object t = s.object t)
    (hobject : ∀ u, u ≠ t → object u = s.object u) (u : τ) :
    ThreadInv ((s, .exit) :: h)
      { s with kernel := k', timer := Function.update s.timer t .detached, object := object } u := by
  obtain ⟨hstat, hfree⟩ := hG t hcur
  have hun := (hi t).node.remove
  have hsame := untouched_schedule hs
  by_cases hut : u = t
  · subst hut
    obtain ⟨hf, -⟩ := (hi u).not_freed hstat
    have htimer : Function.update s.timer u .detached u = TimerStat.detached := Function.update_self _ _ _
    have hktcb : k.tcb u = { s.kernel.tcb u with stat := .close } := by
      rcases hk with ⟨rfl, -⟩ | ⟨rfl, -⟩ <;> simp
    have hnode : NodeOk k u := by
      rcases hk with ⟨rfl, -⟩ | ⟨rfl, -⟩
      · exact nodeOk_close hun
      · exact nodeOk_insertDefunct hun
    have hclose : (k'.tcb u).stat = .close := by rw [(hsame u).tcb, hktcb]
    have hnone : count (Cleans u) h = 0 := (hi u).uncleaned hstat fun c hc =>
      hfree c (DeletePc.target_of_removed (DeletePc.removed_of_cleaned hc))
    refine (hi u).advance (d := u) (p := .idle) (by rw [← hidle, Function.update_eq_self])
      (fun c hc => absurd hc (hfree c)) (hnode.frame (hsame u)) ?_ (fun hr => ?_) (by simp [DeletePc.target])
      (by simp [DeletePc.removed]) (by simp) (by simp) (fun _ => htimer) ?_ ?_ (fun hsys => ?_)
    · show (k'.tcb u).isSystem = _
      rw [(hsame u).tcb, hktcb]
    · exact absurd (htimer.symm.trans hr) (by simp)
    · rw [count_cons, if_pos (show Cleans u s .exit from hcur), if_pos (.inl hclose), hnone]
    · rw [count_cons, if_neg (show ¬ Frees u s .exit from id), hf]
      show 0 + 0 + k'.defunct.count u = _
      rw [(hsame u).defunct]
      rcases hk with ⟨rfl, hsys⟩ | ⟨rfl, hsys, -⟩
      · rw [if_neg (by simp [hsys])]
        show 0 + 0 + (rtScheduleRemoveThread s.kernel u).defunct.count u = 0
        rw [List.count_eq_zero.mpr hun.2.2]
      · rw [if_pos ⟨hclose, hsys⟩]
        show 0 + 0 + (u :: (rtScheduleRemoveThread s.kernel u).defunct).count u = 1
        rw [List.count_cons_self, List.count_eq_zero.mpr hun.2.2]
    · rw [count_cons, if_neg (show ¬ Frees u s .exit from id)]
      rcases hk with ⟨-, hsys'⟩ | ⟨-, -, hobj⟩
      · exact absurd (hsys'.symm.trans hsys) (by simp)
      · show object u = true ↔ _
        rw [hobj]
        exact (hi u).object hsys
  · have hk' : Untouched s.kernel k u := by
      have hclose := (untouched_remove s.kernel hut).trans (untouched_close _ hut)
      rcases hk with ⟨rfl, -⟩ | ⟨rfl, -⟩
      · exact hclose
      · exact hclose.trans (untouched_insertDefunct _ hut)
    refine (hi u).frame (hk'.trans (hsame u)) (Function.update_of_ne hut _ _) (fun _ => hobject u hut)
      (fun _ => .inl rfl) (fun hul hc => ?_) (fun hc => hut (Option.some.inj (hc.symm.trans hcur))) id
    have hkcur : k.current = s.kernel.current := by
      rcases hk with ⟨rfl, -⟩ | ⟨rfl, -⟩ <;> exact rtScheduleRemoveThread_current s.kernel t
    exact hkcur.symm.trans (rtSchedule_current hs (hk'.unlinked hul) hc)

theorem inv_exit (hi : ∀ u, ThreadInv h s u) (hG : OneTeardown s .exit)
    (hs : teardownStep tidle s .exit = some s') (u : τ) : ThreadInv ((s, .exit) :: h) s' u := by
  obtain ⟨t, hcur, hs⟩ := Option.bind_eq_some_iff.mp hs
  obtain ⟨hidle, hs⟩ := Option.ite_none_right_eq_some.mp hs
  unfold rtThreadExit at hs
  dsimp only at hs
  split_ifs at hs with _ hsys
  · obtain ⟨k', hk', rfl⟩ := Option.map_eq_some_iff.mp hs
    exact inv_exit_kernel hi hcur hidle hG hk' (.inl ⟨rfl, hsys⟩) (fun v hv => Function.update_of_ne hv _ _) u
  · obtain ⟨k', hk', rfl⟩ := Option.map_eq_some_iff.mp hs
    exact inv_exit_kernel hi hcur hidle hG hk' (.inr ⟨rfl, by simpa using hsys, rfl⟩) (fun _ _ => rfl) u

theorem inv_timeout_teardown (hi : ∀ u, ThreadInv h s u) (hG : OneTeardown s (.timeout t))
    (hs : teardownStep tidle s (.timeout t) = some s') (u : τ) : ThreadInv ((s, .timeout t) :: h) s' u := by
  obtain ⟨hrun, hs⟩ := Option.ite_none_right_eq_some.mp hs
  obtain ⟨k, hk, rfl⟩ := Option.map_eq_some_iff.mp hs
  by_cases hut : u = t
  · subst hut
    obtain ⟨hstat, hnode, hready, hsys⟩ := (hi u).node.timeout hk
    refine (hi u).of_not_removed rfl rfl (fun c hc => ?_) hnode (by simp [hstat]) (by simp [hready]) hsys
      (fun hr => ?_) id id
    · cases hpc : s.pc c with
      | cleanup v =>
        obtain rfl : v = u := by simpa [hpc, DeletePc.removed] using hc
        exact (hG c).1 hpc
      | detachTimer v =>
        obtain rfl : v = u := by simpa [hpc, DeletePc.removed] using hc
        exact (hG c).2 hpc
      | close v =>
        -- the timer has been detached
        obtain rfl : v = u := by simpa [hpc, DeletePc.removed] using hc
        exact absurd (((hi v).detached c hpc).symm.trans hrun) (by simp)
      | _ => simp [hpc, DeletePc.removed] at hc
    · have hstop : Function.update s.timer u .stopped u = TimerStat.stopped := Function.update_self _ _ _
      exact absurd (hstop.symm.trans hr) (by simp)
  · refine (hi u).frame (untouched_timeout hk hut) (Function.update_of_ne hut _ _) (fun _ => rfl)
      (fun _ => .inl rfl) (fun hul hc => rtThreadTimeout_current hk hut hul hc) id id

theorem inv_suspend_teardown {place : Option (ι × Nat)} {timed : Bool} (hi : ∀ u, ThreadInv h s u)
    (hs : teardownStep tidle s (.suspend place timed) = some s') (u : τ) :
    ThreadInv ((s, .suspend place timed) :: h) s' u := by
  obtain ⟨t, hcur, hs⟩ := Option.bind_eq_some_iff.mp hs
  obtain ⟨⟨hidle, -⟩, hs⟩ := Option.ite_none_right_eq_some.mp hs
  obtain ⟨k, hk, rfl⟩ := Option.map_eq_some_iff.mp hs
  by_cases hut : u = t
  · subst hut
    obtain ⟨hstat, hnode, hnew, hsys⟩ := (hi u).node.suspendSelf hcur hk
    refine (hi u).of_not_removed rfl rfl (fun c hc => ?_) hnode (by simp [hstat]) (by simp [hnew]) hsys
      (fun _ => hnew) id id
    -- a thread that has been removed runs only in its own call
    obtain rfl := ((hi u).removed c hc).2 hcur
    simp [hidle, DeletePc.removed] at hc
  · have hne : s.kernel.current ≠ some u := fun hc => hut (Option.some.inj (hc.symm.trans hcur))
    refine (hi u).frame (untouched_suspendSelf hk hne) (Function.update_of_ne hut _ _) (fun _ => rfl)
      (fun _ => .inl rfl) (fun _ hc => ?_) id id
    rwa [suspendSelf_current hk] at hc

theorem inv_idle (hi : ∀ u, ThreadInv h s u) (hs : teardownStep tidle s .idle = some s') (u : τ) :
    ThreadInv ((s, .idle) :: h) s' u := by
  obtain ⟨-, hs⟩ := Option.ite_none_right_eq_some.mp hs
  unfold rtThreadIdleExcute at hs
  split at hs
  · cases hs
  · next t rest hdef =>
    obtain rfl := Option.some.inj hs
    have hmem : t ∈ s.kernel.defunct := by simp [hdef]
    have hstat := (hi t).node.defunct hmem
    have hfree (c : τ) : (s.pc c).target ≠ some t := fun hc => (hi t).alive c hc hstat
    by_cases hut : u = t
    · subst hut
      have hone : s.kernel.defunct.count u = 1 := by
        have := List.count_pos_iff.mpr hmem
        have := (hi u).node.defunct_le
        omega
      have hfrees := (hi u).frees
      have hhead : Frees u s .idle := by
        show s.kernel.defunct.head? = some u
        rw [hdef]
        rfl
      have hcount : count (Frees u) ((s, TeardownAction.idle) :: h) = count (Frees u) h + 1 := by
        rw [count_cons, if_pos hhead]
      refine (hi u).advance (d := u) (p := s.pc u) (Function.update_eq_self _ _).symm
        (fun c hc => absurd hc (hfree c)) (.of_unlinked (hi u).node.unlink) rfl (hi u).running
        (fun hc => absurd hc (hfree u)) (fun hc => absurd (DeletePc.target_of_removed hc) (hfree u))
        (fun hc => absurd (by rw [hc]; rfl) (hfree u)) ((hi u).static u) (hi u).closed ?_ ?_ (fun hsys => ?_)
      · rw [count_cons, if_neg (show ¬ Cleans u s .idle from id), if_pos (.inl hstat)]
        exact (hi u).cleaned (.inl hstat)
      · show count (Frees u) ((s, TeardownAction.idle) :: h) + (s.kernel.unlink u).defunct.count u =
          if (s.kernel.tcb u).stat = .close ∧ (s.kernel.tcb u).isSystem = false then 1 else 0
        rw [hcount, ← hfrees, hone, List.count_eq_zero.mpr (hi u).node.unlink.2.2]
      · rw [hcount]
        show Function.update s.object u false u = true ↔ _
        rw [Function.update_self]
        simp
    · refine (hi u).frame (untouched_unlink _ hut) rfl (fun _ => Function.update_of_ne hut _ _)
        (fun _ => .inl rfl) (fun _ => id) id (fun hc => ?_)
      change s.kernel.defunct.head? = some u at hc
      rw [hdef] at hc
      exact hut (Option.some.inj hc).symm

theorem inv_teardown_step {a : TeardownAction τ ι} (hi : ∀ u, ThreadInv h s u) (hG : OneTeardown s a)
    (hs : teardownStep tidle s a = some s') (u : τ) : ThreadInv ((s, a) :: h) s' u := by
  cases a with
  | check t => exact inv_check hi hG hs u
  | next =>
    obtain ⟨d, hcur, hs⟩ := Option.bind_eq_some_iff.mp hs
    exact inv_deleteNext hi hcur hs u
  | exit => exact inv_exit hi hG hs u
  | timeout t => exact inv_timeout_teardown hi hG hs u
  | idle => exact inv_idle hi hs u
  | suspend place timed => exact inv_suspend_teardown hi hs u
  | schedule =>
    obtain ⟨k, hk, rfl⟩ := Option.map_eq_some_iff.mp hs
    exact (hi u).frame (untouched_schedule hk u) rfl (fun _ => rfl) (fun _ => .inl rfl)
      (fun hul hc => rtSchedule_current hk hul hc) id id

omit [DecidableEq ι] in
theorem threadInv_init (hs : TeardownInit s) (u : τ) : ThreadInv [] s u := by
  have hnone (c : τ) : s.pc c = .idle := hs.pc c
  exact
    { node := hs.sched.nodeOk u
      running := fun hr => (hs.timer u).elim (fun hst => absurd (hst.symm.trans hr) (by simp)) And.right
      unique := fun c _ hc => by simp [hnone, DeletePc.target] at hc
      alive := fun c hc => by simp [hnone, DeletePc.target] at hc
      removed := fun c hc => by simp [hnone, DeletePc.removed] at hc
      detached := fun c hc => by simp [hnone] at hc
      static := fun c hc => by simp [hnone] at hc
      closed := fun hc => absurd hc (hs.stat u)
      cleaned := fun hc => hc.elim (fun hc => absurd hc (hs.stat u))
        fun ⟨c, hc⟩ => by simp [hnone, DeletePc.cleaned] at hc
      uncleaned := fun _ _ => rfl
      frees := by
        rw [if_neg fun hc => hs.stat u hc.1, (hs.sched.nodeOk u).defunct_zero (hs.stat u)]
        rfl
      object := fun _ => by simp [hs.object u] }

theorem threadInv (hrun : (teardown τ ι tidle).Run h s) (hG : Throughout (fun _ s a => OneTeardown s a) h) :
    ∀ u, ThreadInv h s u :=
  hrun.invariant (I := fun h s => ∀ u, ThreadInv h s u) (fun _ hs => threadInv_init hs)
    (fun _ _ _ _ _ hi hG hs => inv_teardown_step hi hG hs) hG

/-! ## All runs -/

/-- As long as the teardowns of a thread do not overlap: its cleanup function runs at most once; it is not in a
ready list and in `rt_thread_defunct` at the same time; once a dynamic thread is closed it is in
`rt_thread_defunct` or has been freed, exactly once; and then no list contains it. -/
theorem torn_down_once (hrun : (teardown τ ι tidle).Run h s) (hG : Throughout (fun _ s a => OneTeardown s a) h)
    (t : τ) :
    count (Cleans t) h ≤ 1 ∧ (∀ p, t ∈ s.kernel.table p → t ∉ s.kernel.defunct) ∧
    ((s.kernel.tcb t).isSystem = false → count (Frees t) h + (if t ∈ s.kernel.defunct then 1 else 0) =
      if (s.kernel.tcb t).stat = .close then 1 else 0) ∧
    (0 < count (Frees t) h → s.kernel.Unlinked t ∧ s.timer t = .detached ∧ s.object t = false) := by
  have hi := threadInv hrun hG t
  have hdefunct : s.kernel.defunct.count t = if t ∈ s.kernel.defunct then 1 else 0 := by
    split_ifs with hm
    · have := List.count_pos_iff.mpr hm
      have := hi.node.defunct_le
      omega
    · exact List.count_eq_zero.mpr hm
  refine ⟨?_, fun p hm hd => ?_, fun hsys => ?_, fun hpos => ?_⟩
  · by_cases hc : (s.kernel.tcb t).stat = .close ∨ ∃ c, (s.pc c).cleaned = some t
    · exact (hi.cleaned hc).le
    · rw [not_or, not_exists] at hc
      rw [hi.uncleaned hc.1 hc.2]
      exact Nat.zero_le 1
  · exact absurd ((hi.node.table p hm).symm.trans (hi.node.defunct hd)) (by simp)
  · have hfrees := hi.frees
    simp only [hsys, and_true] at hfrees
    rw [← hdefunct]
    exact hfrees
  · have hfrees := hi.frees
    have hcond : (s.kernel.tcb t).stat = .close ∧ (s.kernel.tcb t).isSystem = false := by
      by_contra hn
      rw [if_neg hn] at hfrees
      omega
    rw [if_pos hcond] at hfrees
    refine ⟨⟨fun p hm => ?_, fun q hm => ?_, fun hm => ?_⟩, hi.closed hcond.1, ?_⟩
    · exact absurd ((hi.node.table p hm).symm.trans hcond.1) (by simp)
    · exact absurd ((hi.node.waiting q hm).symm.trans hcond.1) (by simp)
    · have := List.count_pos_iff.mpr hm
      omega
    · have hobj := (hi.object hcond.2).not.mpr (by omega)
      simpa using hobj

end steps

/-- The running thread, another one, and the idle thread `none`. -/
def threeRunning : Kernel (Option Bool) Unit where
  tcb t :=
    let prio : Priority := match t with
      | some true => priority 10
      | some false => priority 20
      | none => priority 31
    { stat := .ready, initPriority := prio, currentPriority := prio, numberMask := prioMask prio
      initTick := 1, remainingTick := 1, error := rtEok, isSystem := false }
  table p := if p.val = 10 then [some true] else if p.val = 20 then [some false] else if p.val = 31 then [none] else []
  group := prioMask (priority 10) ||| prioMask (priority 20) ||| prioMask (priority 31)
  current := some (some true)
  currentPriority := priority 10
  lockNest := 0
  waiting _ := []
  defunct := []

/-- No teardown is in progress. -/
def teardownStart : TeardownState (Option Bool) Unit where
  kernel := threeRunning
  timer _ := .stopped
  object _ := true
  pc _ := .idle

theorem teardownInit_start : TeardownInit teardownStart where
  sched := by decide +kernel
  stat := by decide +kernel
  timer _ := .inl rfl
  object _ := rfl
  pc _ := rfl

/-- A thread that sleeps is deleted by another one, and freed by the idle thread. -/
theorem torn_down_once_run :
    ∃ h s, (teardown (Option Bool) Unit none).Run h s ∧ Throughout (fun _ s a => OneTeardown s a) h ∧
      count (Cleans (some true)) h ≤ 1 ∧ count (Frees (some true)) h = 1 := by
  obtain ⟨h, s, hrun, hG, hstat, hdefunct, hsys⟩ :=
    System.exists_run (S := teardown (Option Bool) Unit none) teardownInit_start
      [.suspend none true, .schedule, .check (some true), .next, .next, .next, .next, .next, .suspend none true,
        .schedule, .idle]
      (fun h s => Throughout (fun _ s a => OneTeardown s a) h ∧ (s.kernel.tcb (some true)).stat = .close ∧
        some true ∉ s.kernel.defunct ∧ (s.kernel.tcb (some true)).isSystem = false) (by decide +kernel)
  obtain ⟨hcleans, -, hfrees, -⟩ := torn_down_once hrun hG (some true)
  have hfreed := hfrees hsys
  rw [if_neg hdefunct, if_pos hstat] at hfreed
  exact ⟨h, s, hrun, hG, hcleans, hfreed⟩

/-- The timer of the thread fires after the test of its state, and the thread exits: its cleanup function runs in
`rt_thread_exit` and again in `rt_thread_delete`. -/
theorem cleaned_up_twice :
    ∃ h s, (teardown (Option Bool) Unit none).Run h s ∧ count (Cleans (some true)) h = 2 :=
  System.exists_run (S := teardown (Option Bool) Unit none) teardownInit_start
    [.suspend none true, .schedule, .check (some true), .timeout (some true), .exit, .next, .next, .next]
    (fun h _ => count (Cleans (some true)) h = 2) (by decide +kernel)

end ThyristorController
