import ThyristorController.Kernel.SemThreads

/-!
# Threads in blocking calls (`src/ipc.c`)

The calls that may block share what they do to threads: the running thread suspends itself into one of the
object's lists, starts its timer, leaves its critical section and calls `rt_schedule`; behind it the call goes
on. Another call resumes the first thread of the list, or the timer fires. `IpcThreads` is that part, over any
kind of call `κ`, each of which waits in the list `place`.

What an object sees of its threads is an `IpcView`: the lists, and of each thread its error number, the call it is
in, and its priority. Every operation acts on the view in a simple way (`view_*`), so that the invariants of the
objects are proved over the view alone.
-/

namespace ThyristorController

open Transition SemThreads

/-! ## The operations -/

/-- `-RT_ERROR`. -/
def rtError : Int := -1

/-- What is left of a waiting time behind `rt_schedule`; `delta` is when it began. -/
def remaining (timeout delta now : BitVec 32) : BitVec 32 :=
  if (0#32).slt timeout then
    let timeout := timeout - (now - delta)
    if timeout.slt 0#32 then 0 else timeout
  else timeout

/-- Where a thread is: outside of the calls, before `rt_schedule` in `rt_thread_sleep`, before `rt_schedule` in a
call, or behind it. -/
inductive WaitPc (κ : Type) where
  | idle
  | asleep
  | schedule (call : κ)
  | resumed (call : κ)
deriving DecidableEq

/-- The call that a thread is in. -/
def WaitPc.call {κ : Type} : WaitPc κ → Option κ
  | .idle | .asleep => none
  | .schedule c | .resumed c => some c

/-- `timer t` is whether the thread's timer is running. -/
structure IpcThreads (τ ι κ : Type) where
  kernel : Kernel τ ι
  timer : τ → Bool
  pc : τ → WaitPc κ

/-- What happens to threads apart from the calls; `next` is the call of `rt_schedule` of the running thread that
has suspended itself. -/
inductive EnvAction (τ : Type) where
  | timeout (t : τ)
  | next
  | sleep
  | yield
  | schedule

namespace IpcThreads

variable {τ ι κ : Type} [DecidableEq τ]

/-- `thread->error = e`. -/
def setError (w : IpcThreads τ ι κ) (t : τ) (e : Int) : IpcThreads τ ι κ :=
  { w with kernel := w.kernel.setTcb t { w.kernel.tcb t with error := e } }

/-- `rt_thread_control` with `RT_THREAD_CTRL_CHANGE_PRIORITY`. -/
def changePriority (w : IpcThreads τ ι κ) (t : τ) (prio : Priority) : IpcThreads τ ι κ :=
  { w with kernel := rtThreadChangePriority w.kernel t prio }

/-- `rt_ipc_list_resume` for the first thread `t` of a list; `rt_thread_resume` stops its timer. -/
def resume (w : IpcThreads τ ι κ) (t : τ) : IpcThreads τ ι κ :=
  { w with kernel := rtThreadResume w.kernel t, timer := Function.update w.timer t false }

/-- `rt_ipc_list_resume`, if a thread waits in the list. -/
def resumeFirst (w : IpcThreads τ ι κ) (q : ι) : IpcThreads τ ι κ :=
  match w.kernel.waiting q with
  | t :: _ => w.resume t
  | [] => w

/-- One round of `rt_ipc_list_resume_all`. -/
def cancel (w : IpcThreads τ ι κ) (t : τ) : IpcThreads τ ι κ := (w.setError t rtError).resume t

/-- `rt_ipc_list_resume_all`. -/
def resumeAll (w : IpcThreads τ ι κ) (q : ι) : IpcThreads τ ι κ := (w.kernel.waiting q).foldl cancel w

/-- `rt_ipc_list_suspend` of the running thread, and the start of its timer. -/
def suspendOn [DecidableEq ι] (w : IpcThreads τ ι κ) (t : τ) (q : ι) (flag : IpcFlag) (timed : Bool) (call : κ) :
    Option (IpcThreads τ ι κ) :=
  (rtIpcListSuspend w.kernel q (suspendPlace flag w.kernel q t)).map fun k =>
    { kernel := k, timer := Function.update w.timer t timed, pc := Function.update w.pc t (.schedule call) }

/-- The running thread suspends itself at a place of the list, and its timer is started. -/
def suspendAt [DecidableEq ι] (w : IpcThreads τ ι κ) (t : τ) (q : ι) (i : Nat) (timed : Bool) (call : κ) :
    Option (IpcThreads τ ι κ) :=
  (rtIpcListSuspend w.kernel q i).map fun k =>
    { kernel := k, timer := Function.update w.timer t timed, pc := Function.update w.pc t (.schedule call) }

/-- The thread goes on to another place. -/
def setPc (w : IpcThreads τ ι κ) (t : τ) (pc : WaitPc κ) : IpcThreads τ ι κ :=
  { w with pc := Function.update w.pc t pc }

/-- The running thread, if it is outside of the calls. -/
def caller (w : IpcThreads τ ι κ) : Option τ :=
  w.kernel.current.bind fun t =>
    match w.pc t with
    | .idle => some t
    | _ => none

/-- The running thread, if it is behind `rt_schedule` in a call. -/
def returning (w : IpcThreads τ ι κ) : Option (τ × κ) :=
  w.kernel.current.bind fun t =>
    match w.pc t with
    | .resumed c => some (t, c)
    | _ => none

def envStep [DecidableEq ι] (w : IpcThreads τ ι κ) : EnvAction τ → Option (IpcThreads τ ι κ)
  | .timeout t =>
    if w.timer t = true then
      (rtThreadTimeout w.kernel t).map fun k => { w with kernel := k, timer := Function.update w.timer t false }
    else none
  | .next =>
    w.kernel.current.bind fun t =>
      match w.pc t with
      | .asleep => (rtSchedule w.kernel).map fun k => { w with kernel := k, pc := Function.update w.pc t .idle }
      | .schedule c =>
        (rtSchedule w.kernel).map fun k => { w with kernel := k, pc := Function.update w.pc t (.resumed c) }
      | _ => none
  | .sleep =>
    w.caller.bind fun t =>
      (suspendSelf w.kernel none).map fun k =>
        { kernel := k, timer := Function.update w.timer t true, pc := Function.update w.pc t .asleep }
  | .yield => (rtThreadYield w.kernel).map fun k => { w with kernel := k }
  | .schedule => (rtSchedule w.kernel).map fun k => { w with kernel := k }

end IpcThreads

/-! ## The view -/

/-- What the objects see of the threads. -/
@[ext]
structure IpcView (τ ι κ : Type) where
  waiting : ι → List τ
  call : τ → Option κ
  error : τ → Int
  priority : τ → Priority
  initPriority : τ → Priority

namespace IpcView

variable {τ ι κ : Type} [DecidableEq τ]

@[simps]
def setError (v : IpcView τ ι κ) (t : τ) (e : Int) : IpcView τ ι κ :=
  { v with error := Function.update v.error t e }

@[simps]
def setPriority (v : IpcView τ ι κ) (t : τ) (prio : Priority) : IpcView τ ι κ :=
  { v with priority := Function.update v.priority t prio }

/-- The thread leaves the lists. -/
@[simps]
def resume (v : IpcView τ ι κ) (t : τ) : IpcView τ ι κ :=
  { v with waiting := fun q => (v.waiting q).erase t }

/-- The thread's timer fires. -/
@[simps!]
def expire (v : IpcView τ ι κ) (t : τ) : IpcView τ ι κ := (v.resume t).setError t rtEtimeout

@[simps]
def setCall (v : IpcView τ ι κ) (t : τ) (call : Option κ) : IpcView τ ι κ :=
  { v with call := Function.update v.call t call }

/-- The thread joins a list. -/
@[simps!]
def suspend [DecidableEq ι] (v : IpcView τ ι κ) (t : τ) (q : ι) (i : Nat) (call : κ) : IpcView τ ι κ :=
  { v.setCall t (some call) with waiting := Function.update v.waiting q ((v.waiting q).insertIdx i t) }

theorem mem_suspend [DecidableEq ι] {v : IpcView τ ι κ} {t u : τ} {q r : ι} {i : Nat} {call : κ}
    (hle : i ≤ (v.waiting q).length) : u ∈ (v.suspend t q i call).waiting r ↔ u = t ∧ r = q ∨ u ∈ v.waiting r := by
  rw [suspend_waiting]
  by_cases hr : r = q
  · subst hr
    rw [Function.update_self, List.mem_insertIdx hle]
    simp
  · rw [Function.update_of_ne hr]
    simp [hr]

end IpcView

namespace IpcView

/-! ### Resumed threads that have not run -/

variable {τ ι κ : Type}

/-- The thread waited in the list and was resumed without an error, and has not gone on yet. -/
def Woken (place : κ → ι) (v : IpcView τ ι κ) (q : ι) (t : τ) : Prop :=
  (∃ c, v.call t = some c ∧ place c = q) ∧ t ∉ v.waiting q ∧ v.error t = rtEok

/-- While threads wait in the list, at least `n` others have been resumed and not gone on yet. -/
def Covered (place : κ → ι) (v : IpcView τ ι κ) (q : ι) (n : Nat) : Prop :=
  v.waiting q ≠ [] → ∃ l : List τ, l.Nodup ∧ n ≤ l.length ∧ ∀ t ∈ l, v.Woken place q t

variable {place : κ → ι} {v v' : IpcView τ ι κ} {q : ι} {n m : Nat} {t : τ}

theorem covered_zero : v.Covered place q 0 := fun _ => ⟨[], List.nodup_nil, le_rfl, by simp⟩

theorem covered_nil (h : v.waiting q = []) : v.Covered place q n := fun hne => absurd h hne

/-- No thread joins the list, and the resumed threads go on waiting for the processor. -/
theorem Covered.keep (h : v.Covered place q n) (hle : m ≤ n) (hwaiting : v.waiting q = [] → v'.waiting q = [])
    (hwoken : ∀ t, v.Woken place q t → v'.Woken place q t) : v'.Covered place q m := fun hne => by
  obtain ⟨l, hnd, hlen, hl⟩ := h fun he => hne (hwaiting he)
  exact ⟨l, hnd, hle.trans hlen, fun t ht => hwoken t (hl t ht)⟩

theorem Covered.other (h : v.Covered place q n) (hwaiting : v'.waiting q = v.waiting q)
    (hsame : ∀ u, u ≠ t → v'.call u = v.call u ∧ v'.error u = v.error u) (ht : ¬ v.Woken place q t) :
    v'.Covered place q n := by
  refine h.keep le_rfl (fun he => hwaiting.trans he) fun u hu => ?_
  have hut : u ≠ t := fun he => ht (he ▸ hu)
  rw [Woken, hwaiting, (hsame u hut).1, (hsame u hut).2]
  exact hu

theorem Covered.runs [DecidableEq τ] (h : v.Covered place q n) (hwaiting : v'.waiting q = v.waiting q)
    (hsame : ∀ u, u ≠ t → v'.call u = v.call u ∧ v'.error u = v.error u) : v'.Covered place q (n - 1) := fun hne => by
  obtain ⟨l, hnd, hlen, hl⟩ := h fun he => hne (hwaiting.trans he)
  refine ⟨l.erase t, hnd.erase t, ?_, fun u hu => ?_⟩
  · by_cases ht : t ∈ l
    · rw [List.length_erase_of_mem ht]
      omega
    · rw [List.erase_of_not_mem ht]
      omega
  · obtain ⟨hut, hu⟩ := hnd.mem_erase_iff.mp hu
    rw [Woken, hwaiting, (hsame u hut).1, (hsame u hut).2]
    exact hl u hu

/-- The first thread of the list is resumed, if there is one. -/
def resumeFirst [DecidableEq τ] (v : IpcView τ ι κ) (q : ι) : IpcView τ ι κ :=
  match v.waiting q with
  | u :: _ => v.resume u
  | [] => v

section resumeFirst

variable [DecidableEq τ] {r : ι}

@[simp] theorem resumeFirst_call : (v.resumeFirst q).call = v.call := by
  unfold resumeFirst
  split <;> rfl

@[simp] theorem resumeFirst_error : (v.resumeFirst q).error = v.error := by
  unfold resumeFirst
  split <;> rfl

theorem mem_resumeFirst (h : t ∈ (v.resumeFirst q).waiting r) : t ∈ v.waiting r := by
  unfold resumeFirst at h
  split at h
  · exact List.mem_of_mem_erase h
  · exact h

theorem resumeFirst_nil (h : v.waiting r = []) : (v.resumeFirst q).waiting r = [] :=
  List.eq_nil_iff_forall_not_mem.mpr fun t ht => by
    have := mem_resumeFirst ht
    rw [h] at this
    cases this

theorem woken_resumeFirst (h : v.Woken place r t) : (v.resumeFirst q).Woken place r t := by
  refine ⟨?_, fun hm => h.2.1 (mem_resumeFirst hm), ?_⟩
  · rw [resumeFirst_call]
    exact h.1
  · rw [resumeFirst_error]
    exact h.2.2

theorem Covered.resumeFirst_other (h : v.Covered place r n) : (v.resumeFirst q).Covered place r n :=
  h.keep le_rfl resumeFirst_nil fun _ => woken_resumeFirst

theorem Covered.resumeFirst (h : v.Covered place q n) (hnodup : (v.waiting q).Nodup)
    (hcall : ∀ t ∈ v.waiting q, (∃ c, v.call t = some c ∧ place c = q) ∧ v.error t = rtEok) :
    (v.resumeFirst q).Covered place q (n + 1) := by
  cases hw : v.waiting q with
  | nil => exact covered_nil (resumeFirst_nil hw)
  | cons t rest =>
    intro _
    obtain ⟨l, hnd, hlen, hl⟩ := h (by simp [hw])
    have ht : t ∈ v.waiting q := by simp [hw]
    refine ⟨t :: l, List.nodup_cons.mpr ⟨fun hm => (hl t hm).2.1 ht, hnd⟩, by simpa using hlen, fun u hu => ?_⟩
    rcases List.mem_cons.mp hu with rfl | hu
    · rw [Woken, resumeFirst_call, resumeFirst_error]
      refine ⟨(hcall u ht).1, ?_, (hcall u ht).2⟩
      rw [IpcView.resumeFirst, hw]
      exact hnodup.not_mem_erase
    · exact woken_resumeFirst (hl u hu)

end resumeFirst

end IpcView

namespace IpcThreads

variable {τ ι κ : Type} [DecidableEq τ]

def view (w : IpcThreads τ ι κ) : IpcView τ ι κ where
  waiting := w.kernel.waiting
  call t := (w.pc t).call
  error t := (w.kernel.tcb t).error
  priority t := (w.kernel.tcb t).currentPriority
  initPriority t := (w.kernel.tcb t).initPriority

/-! ## The invariant -/

/-- A thread waits in the list of its call, without an error; in a call, it waits while it is suspended; and it is
ready when it runs a statement of its own. -/
structure ThreadOk (place : κ → ι) (w : IpcThreads τ ι κ) (t : τ) : Prop where
  waits : ∀ q, t ∈ w.kernel.waiting q → (∃ c, (w.pc t).call = some c ∧ place c = q) ∧ (w.kernel.tcb t).error = rtEok
  suspended : ∀ c, (w.pc t).call = some c → (w.kernel.tcb t).stat = .suspend → t ∈ w.kernel.waiting (place c)
  runs : w.kernel.current = some t → (∀ c, w.pc t ≠ .schedule c) → w.pc t ≠ .asleep → (w.kernel.tcb t).stat = .ready

/-- The invariant; the scheduler is unlocked. -/
structure Ok (place : κ → ι) (w : IpcThreads τ ι κ) : Prop where
  sched : SchedInv w.kernel
  lock : w.kernel.lockNest = 0
  thread : ∀ t, ThreadOk place w t

/-- No thread is in a call, and none waits. -/
structure Init (w : IpcThreads τ ι κ) : Prop where
  sched : SchedInv w.kernel
  lock : w.kernel.lockNest = 0
  waiting : ∀ q, w.kernel.waiting q = []
  pc : ∀ t, w.pc t = .idle
  running : ∀ t, w.kernel.current = some t → (w.kernel.tcb t).stat = .ready

section invariant

variable {place : κ → ι} {w w' : IpcThreads τ ι κ} {t u : τ} {q : ι} {c : κ}

omit [DecidableEq τ] in
theorem Init.ok (h : Init w) : Ok place w where
  sched := h.sched
  lock := h.lock
  thread t :=
    { waits := fun q hm => by simp [h.waiting] at hm
      suspended := fun c hc => by simp [h.pc, WaitPc.call] at hc
      runs := fun hc _ _ => h.running t hc }

theorem ThreadOk.frame (h : ThreadOk place w u) (hun : Untouched w.kernel w'.kernel u) (hpc : w'.pc u = w.pc u)
    (hcur : w'.kernel.current = some u → w.kernel.current = some u ∨ (w'.kernel.tcb u).stat = .ready) :
    ThreadOk place w' u where
  waits q hm := by
    rw [hpc, hun.tcb]
    exact h.waits q ((hun.mem_waiting q).mp hm)
  suspended c hc hs := by
    rw [hpc] at hc
    rw [hun.tcb] at hs
    exact (hun.mem_waiting _).mpr (h.suspended c hc hs)
  runs hc hsched hsleep := by
    rw [hpc] at hsched hsleep
    rcases hcur hc with hc | hc
    · rw [hun.tcb]
      exact h.runs hc hsched hsleep
    · exact hc

omit [DecidableEq τ] in
theorem caller_eq : w.caller = some t ↔ w.kernel.current = some t ∧ w.pc t = .idle := by
  unfold caller
  rw [Option.bind_eq_some_iff]
  constructor
  · rintro ⟨u, hu, hs⟩
    split at hs
    · next hpc => exact Option.some.inj hs ▸ ⟨hu, hpc⟩
    · cases hs
  · rintro ⟨hcur, hpc⟩
    exact ⟨t, hcur, by rw [hpc]⟩

omit [DecidableEq τ] in
theorem returning_eq : w.returning = some (t, c) ↔ w.kernel.current = some t ∧ w.pc t = .resumed c := by
  unfold returning
  rw [Option.bind_eq_some_iff]
  constructor
  · rintro ⟨u, hu, hs⟩
    split at hs
    · next d hpc =>
      obtain ⟨rfl, rfl⟩ := Prod.mk.inj (Option.some.inj hs)
      exact ⟨hu, hpc⟩
    · cases hs
  · rintro ⟨hcur, hpc⟩
    exact ⟨t, hcur, by rw [hpc]⟩

omit [DecidableEq τ] in
theorem caller_call (hc : w.caller = some t) : w.view.call t = none := by
  show (w.pc t).call = none
  rw [(caller_eq.mp hc).2]
  rfl

omit [DecidableEq τ] in
theorem returning_call (hc : w.returning = some (t, c)) : w.view.call t = some c := by
  show (w.pc t).call = some c
  rw [(returning_eq.mp hc).2]
  rfl

/-- The running thread, at a place where it can run a statement of a call. -/
def Runs (w : IpcThreads τ ι κ) (t : τ) : Prop := w.caller = some t ∨ ∃ c, w.returning = some (t, c)

omit [DecidableEq τ] in
theorem Runs.current (h : Runs w t) : w.kernel.current = some t := by
  rcases h with h | ⟨c, h⟩
  · exact (caller_eq.mp h).1
  · exact (returning_eq.mp h).1

omit [DecidableEq τ] in
theorem Ok.running_ready (hi : Ok place w) (h : Runs w t) : (w.kernel.tcb t).stat = .ready := by
  refine (hi.thread t).runs h.current ?_ ?_
  all_goals rcases h with h | ⟨c, h⟩
  · simp [(caller_eq.mp h).2]
  · simp [(returning_eq.mp h).2]
  · simp [(caller_eq.mp h).2]
  · simp [(returning_eq.mp h).2]

omit [DecidableEq τ] in
theorem Ok.not_waiting (hi : Ok place w) (h : Runs w t) (q : ι) : t ∉ w.view.waiting q := fun hm =>
  absurd ((hi.running_ready h).symm.trans (hi.sched.waiting t q hm).2) (by simp)

omit [DecidableEq τ] in
theorem Ok.waiting_error (hi : Ok place w) (hm : t ∈ w.view.waiting q) : w.view.error t = rtEok :=
  ((hi.thread t).waits q hm).2

omit [DecidableEq τ] in
theorem Ok.waiting_call (hi : Ok place w) (hm : t ∈ w.view.waiting q) :
    ∃ c, w.view.call t = some c ∧ place c = q := ((hi.thread t).waits q hm).1

omit [DecidableEq τ] in
theorem Ok.waiting_nodup (hi : Ok place w) (q : ι) : (w.view.waiting q).Nodup := hi.sched.waiting_nodup q

end invariant

/-! ## What the operations do -/

section operations

variable {place : κ → ι} {w w' : IpcThreads τ ι κ} {t u : τ} {q : ι} {c : κ}

@[simp] theorem view_setError (w : IpcThreads τ ι κ) (t : τ) (e : Int) :
    (w.setError t e).view = w.view.setError t e := by
  have htcb (u : τ) : (w.kernel.setTcb t { w.kernel.tcb t with error := e }).tcb u =
      { w.kernel.tcb u with error := Function.update w.view.error t e u } := by
    by_cases hut : u = t
    · subst hut
      rw [Kernel.setTcb_self, Function.update_self]
    · rw [Kernel.setTcb_other _ _ hut, Function.update_of_ne hut]
      rfl
  ext u <;> first | rfl | simp only [view, setError, htcb, IpcView.setError]

theorem error_setError (w : IpcThreads τ ι κ) (t : τ) (e : Int) : (w.setError t e).view.error t = e := by
  rw [view_setError]
  exact Function.update_self _ _ _

@[simp] theorem setError_runs (w : IpcThreads τ ι κ) (t u : τ) (e : Int) : Runs (w.setError t e) u ↔ Runs w u :=
  Iff.rfl

theorem Ok.setError (hi : Ok place w) (hr : Runs w t) (e : Int) : Ok place (w.setError t e) where
  sched := inv_setTcb_same hi.sched rfl rfl rfl
  lock := hi.lock
  thread u := by
    by_cases hut : u = t
    · subst hut
      have htcb : (w.setError u e).kernel.tcb u = { w.kernel.tcb u with error := e } := w.kernel.setTcb_self u _
      exact
        { waits := fun q hm => absurd hm (hi.not_waiting hr q)
          suspended := fun c hc hs => (hi.thread u).suspended c hc (by rw [htcb] at hs; exact hs)
          runs := fun _ _ _ => by rw [htcb]; exact hi.running_ready hr }
    · exact (hi.thread u).frame (untouched_setTcb _ _ hut) rfl .inl

@[simp] theorem view_setPc (w : IpcThreads τ ι κ) (t : τ) (pc : WaitPc κ) :
    (w.setPc t pc).view = w.view.setCall t pc.call := by
  ext u : 2
  · rfl
  · by_cases hut : u = t
    · subst hut
      simp [view, setPc, IpcView.setCall]
    · simp [view, setPc, IpcView.setCall, hut]
  · rfl
  · rfl
  · rfl

theorem Ok.setPc (hi : Ok place w) (hr : Runs w t) (pc : WaitPc κ) : Ok place (w.setPc t pc) where
  sched := hi.sched
  lock := hi.lock
  thread u := by
    by_cases hut : u = t
    · subst hut
      exact
        { waits := fun q hm => absurd hm (hi.not_waiting hr q)
          suspended := fun _ _ hs => absurd ((hi.running_ready hr).symm.trans hs) (by simp)
          runs := fun _ _ _ => hi.running_ready hr }
    · exact (hi.thread u).frame (.refl _ u) (Function.update_of_ne hut _ _) .inl

theorem Ok.leave (hi : Ok place w) (hr : Runs w t) : Ok place (w.setPc t .idle) := hi.setPc hr .idle

/-- `rt_thread_control` changes the priority and its mask, and moves only a ready thread. -/
theorem changePriority_tcb (w : IpcThreads τ ι κ) (t : τ) (prio : Priority) :
    (w.changePriority t prio).kernel.tcb t =
      { w.kernel.tcb t with currentPriority := prio, numberMask := prioMask prio } := by
  show (rtThreadChangePriority w.kernel t prio).tcb t = _
  unfold rtThreadChangePriority
  split_ifs with hstat
  · rw [rtScheduleInsertThread_self, Kernel.setTcb_self, rtScheduleRemoveThread_tcb, ← hstat]
  · exact w.kernel.setTcb_self t _

theorem changePriority_untouched (w : IpcThreads τ ι κ) (prio : Priority) (hut : u ≠ t) :
    Untouched w.kernel (w.changePriority t prio).kernel u := by
  show Untouched w.kernel (rtThreadChangePriority w.kernel t prio) u
  unfold rtThreadChangePriority
  split_ifs
  · exact ((untouched_remove _ hut).trans (untouched_setTcb _ _ hut)).trans (untouched_insert _ hut)
  · exact untouched_setTcb _ _ hut

theorem changePriority_waiting (hi : Ok place w) (t : τ) (prio : Priority) :
    (w.changePriority t prio).kernel.waiting = w.kernel.waiting := by
  show (rtThreadChangePriority w.kernel t prio).waiting = _
  unfold rtThreadChangePriority
  split_ifs with hstat
  · rw [rtScheduleRemoveThread_eq]
    funext q
    exact List.erase_of_not_mem fun hm => absurd (hstat.symm.trans (hi.sched.waiting t q hm).2) (by simp)
  · rfl

theorem view_changePriority (hi : Ok place w) (t : τ) (prio : Priority) :
    (w.changePriority t prio).view = w.view.setPriority t prio := by
  have htcb (u : τ) : ∃ mask, (w.changePriority t prio).kernel.tcb u = { w.kernel.tcb u with
      currentPriority := Function.update w.view.priority t prio u, numberMask := mask } := by
    by_cases hut : u = t
    · subst hut
      rw [Function.update_self]
      exact ⟨_, w.changePriority_tcb u prio⟩
    · rw [Function.update_of_ne hut]
      exact ⟨_, (w.changePriority_untouched prio hut).tcb⟩
  ext u : 2
  · exact congrFun (changePriority_waiting hi t prio) u
  · rfl
  all_goals
    obtain ⟨mask, hu⟩ := htcb u
    simp only [view, hu, IpcView.setPriority]

theorem changePriority_lock (w : IpcThreads τ ι κ) (t : τ) (prio : Priority) :
    (w.changePriority t prio).kernel.lockNest = w.kernel.lockNest := by
  show (rtThreadChangePriority w.kernel t prio).lockNest = _
  unfold rtThreadChangePriority
  split_ifs
  · rw [rtScheduleRemoveThread_eq]
    rfl
  · rfl

@[simp] theorem changePriority_runs (w : IpcThreads τ ι κ) (t : τ) (prio : Priority) :
    Runs (w.changePriority t prio) u ↔ Runs w u := by
  unfold Runs caller returning
  rw [show (w.changePriority t prio).kernel.current = w.kernel.current from rtThreadChangePriority_current _ _ _]
  rfl

theorem Ok.changePriority (hi : Ok place w) (t : τ) (prio : Priority) : Ok place (w.changePriority t prio) where
  sched := inv_changePriority hi.sched t prio
  lock := (changePriority_lock w t prio).trans hi.lock
  thread u := by
    have hcur : (w.changePriority t prio).kernel.current = w.kernel.current := rtThreadChangePriority_current _ _ _
    by_cases hut : u = t
    · subst hut
      have htcb := w.changePriority_tcb u prio
      have hwaiting := changePriority_waiting hi u prio
      exact
        { waits := fun q hm => by
            rw [hwaiting] at hm
            rw [htcb]
            exact (hi.thread u).waits q hm
          suspended := fun c hc hs => by
            rw [htcb] at hs
            rw [hwaiting]
            exact (hi.thread u).suspended c hc hs
          runs := fun hc hsched hsleep => by
            rw [htcb]
            exact (hi.thread u).runs (hcur ▸ hc) hsched hsleep }
    · exact (hi.thread u).frame (w.changePriority_untouched prio hut) rfl fun hc => .inl (hcur ▸ hc)

theorem resume_untouched (w : IpcThreads τ ι κ) (hut : u ≠ t) : Untouched w.kernel (w.resume t).kernel u := by
  show Untouched w.kernel (rtThreadResume w.kernel t) u
  unfold rtThreadResume
  split_ifs
  · exact .refl _ u
  · exact (untouched_unlink _ hut).trans (untouched_insert _ hut)

theorem view_resume (hi : Ok place w) (hm : t ∈ w.view.waiting q) : (w.resume t).view = w.view.resume t := by
  obtain ⟨htcb, hwaiting, -, -⟩ := rtThreadResume_spec (hi.sched.waiting t q hm).2
  ext u : 2
  · exact hwaiting u
  · rfl
  all_goals
    by_cases hut : u = t
    · subst hut
      simp only [view, resume, htcb, IpcView.resume]
    · simp only [view, (w.resume_untouched hut).tcb, IpcView.resume]

theorem resume_runs (hi : Ok place w) (hm : t ∈ w.view.waiting q) : Runs (w.resume t) u ↔ Runs w u := by
  unfold Runs caller returning
  rw [show (w.resume t).kernel.current = w.kernel.current from
    (rtThreadResume_spec (hi.sched.waiting t q hm).2).2.2.2]
  rfl

theorem Ok.resume (hi : Ok place w) (hm : t ∈ w.view.waiting q) : Ok place (w.resume t) := by
  obtain ⟨htcb, hwaiting, hlock, hcur⟩ := rtThreadResume_spec (hi.sched.waiting t q hm).2
  refine ⟨inv_resume hi.sched t, hlock.trans hi.lock, fun u => ?_⟩
  by_cases hut : u = t
  · subst hut
    exact
      { waits := fun q hm => by
          rw [show (w.resume u).kernel.waiting q = _ from hwaiting q] at hm
          exact absurd hm (hi.sched.waiting_nodup q).not_mem_erase
        suspended := fun c _ hs => by
          rw [show (w.resume u).kernel.tcb u = _ from htcb] at hs
          cases hs
        runs := fun _ _ _ => congrArg Tcb.stat htcb }
  · exact (hi.thread u).frame (w.resume_untouched hut) rfl fun hc => .inl (hcur ▸ hc)

theorem resumeFirst_spec (hi : Ok place w) (q : ι) :
    Ok place (w.resumeFirst q) ∧ (w.resumeFirst q).view = w.view.resumeFirst q ∧
      ∀ u, Runs (w.resumeFirst q) u ↔ Runs w u := by
  have heq : w.view.waiting q = w.kernel.waiting q := rfl
  unfold resumeFirst IpcView.resumeFirst
  rw [heq]
  cases hw : w.kernel.waiting q with
  | nil => exact ⟨hi, rfl, fun _ => Iff.rfl⟩
  | cons t rest =>
    have hm : t ∈ w.view.waiting q := by
      rw [heq, hw]
      exact List.mem_cons_self
    exact ⟨hi.resume hm, view_resume hi hm, fun _ => resume_runs hi hm⟩

theorem cancel_spec (hi : Ok place w) (hm : t ∈ w.view.waiting q) :
    Ok place (w.cancel t) ∧ (w.cancel t).view = (w.view.setError t rtError).resume t := by
  have hset : SchedInv (w.setError t rtError).kernel := inv_setTcb_same hi.sched rfl rfl rfl
  have hmem : t ∈ (w.setError t rtError).kernel.waiting q := hm
  have hstat := (hset.waiting t q hmem).2
  obtain ⟨htcb, hwaiting, hlock, hcur⟩ := rtThreadResume_spec hstat
  have hun (u : τ) (hut : u ≠ t) : Untouched w.kernel (w.cancel t).kernel u :=
    (untouched_setTcb w.kernel { w.kernel.tcb t with error := rtError } hut).trans
      (resume_untouched (w.setError t rtError) hut)
  refine ⟨⟨inv_resume hset t, hlock.trans hi.lock, fun u => ?_⟩, ?_⟩
  · by_cases hut : u = t
    · subst hut
      exact
        { waits := fun r hr => by
            rw [show (w.cancel u).kernel.waiting r = _ from hwaiting r] at hr
            exact absurd hr (hset.waiting_nodup r).not_mem_erase
          suspended := fun c _ hs => by
            rw [show (w.cancel u).kernel.tcb u = _ from htcb] at hs
            cases hs
          runs := fun _ _ _ => congrArg Tcb.stat htcb }
    · exact (hi.thread u).frame (hun u hut) rfl fun hc => .inl (hcur ▸ hc)
  · rw [← view_setError]
    ext u : 2
    · exact hwaiting u
    · rfl
    all_goals
      by_cases hut : u = t
      · subst hut
        simp only [view, cancel, resume, htcb, IpcView.resume]
      · simp only [view, cancel, (resume_untouched (w.setError t rtError) hut).tcb, IpcView.resume]

theorem resumeAll_call (w : IpcThreads τ ι κ) (q : ι) : (w.resumeAll q).view.call = w.view.call := by
  unfold resumeAll
  generalize w.kernel.waiting q = l
  induction l generalizing w with
  | nil => rfl
  | cons t l ih => exact ih (w.cancel t)

theorem resumeAll_spec (hi : Ok place w) (q : ι) :
    Ok place (w.resumeAll q) ∧ (w.resumeAll q).view.waiting q = [] ∧
      ∀ r, w.view.waiting r = [] → (w.resumeAll q).view.waiting r = [] := by
  unfold resumeAll
  generalize hl : w.kernel.waiting q = l
  induction l generalizing w with
  | nil => exact ⟨hi, hl, fun _ => id⟩
  | cons t l ih =>
    have hm : t ∈ w.view.waiting q := by
      show t ∈ w.kernel.waiting q
      rw [hl]
      exact List.mem_cons_self
    obtain ⟨hok, hview⟩ := cancel_spec hi hm
    have hwaiting (r : ι) : (w.cancel t).kernel.waiting r = (w.kernel.waiting r).erase t :=
      congrFun (congrArg IpcView.waiting hview) r
    obtain ⟨hend, hempty, hother⟩ := ih hok (by rw [hwaiting, hl, List.erase_cons_head])
    refine ⟨hend, hempty, fun r hr => hother r ?_⟩
    rw [hview]
    show (w.view.waiting r).erase t = []
    rw [hr]
    rfl

/-- `rt_ipc_list_resume_all` gives an error number to the threads of the list only. -/
theorem resumeAll_error (hi : Ok place w) (hu : u ∉ w.view.waiting q) :
    (w.resumeAll q).view.error u = w.view.error u := by
  unfold resumeAll
  generalize hl : w.kernel.waiting q = l
  induction l generalizing w with
  | nil => rfl
  | cons t l ih =>
    have heq : w.view.waiting q = t :: l := hl
    have hm : t ∈ w.view.waiting q := by simp [heq]
    obtain ⟨hok, hview⟩ := cancel_spec hi hm
    have hwaiting : (w.cancel t).view.waiting q = l := by
      rw [hview, IpcView.resume_waiting, IpcView.setError_waiting, heq, List.erase_cons_head]
    have hut : u ≠ t := fun he => hu (he ▸ hm)
    rw [List.foldl_cons, ih hok ?_ hwaiting, hview]
    · simp [hut]
    · rw [hwaiting]
      exact fun hm => hu (heq ▸ List.mem_cons_of_mem _ hm)

omit [DecidableEq τ] in
theorem suspendPlace_le (flag : IpcFlag) (k : Kernel τ ι) (q : ι) (t : τ) :
    suspendPlace flag k q t ≤ (k.waiting q).length := by
  cases flag with
  | fifo => exact le_rfl
  | prio => exact List.findIdx_le_length

theorem suspendOn_defined [DecidableEq ι] (hi : Ok place w) (hr : Runs w t) (q : ι) (flag : IpcFlag) (timed : Bool)
    (c : κ) : ∃ w', w.suspendOn t q flag timed c = some w' := by
  have hs : (rtIpcListSuspend w.kernel q (suspendPlace flag w.kernel q t)).isSome := by
    simp only [rtIpcListSuspend, hr.current]
    rw [if_pos ⟨hi.running_ready hr, suspendPlace_le flag w.kernel q t⟩]
    rfl
  obtain ⟨k, hk⟩ := Option.isSome_iff_exists.mp hs
  exact ⟨_, Option.map_eq_some_iff.mpr ⟨k, hk, rfl⟩⟩

theorem suspendOn_spec [DecidableEq ι] {flag : IpcFlag} {timed : Bool} (hi : Ok place w) (hr : Runs w t)
    (herr : w.view.error t = rtEok) (hplace : place c = q) (hs : w.suspendOn t q flag timed c = some w') :
    Ok place w' ∧ ∃ i ≤ (w.view.waiting q).length, w'.view = w.view.suspend t q i c := by
  obtain ⟨k, hk, rfl⟩ := Option.map_eq_some_iff.mp hs
  obtain ⟨hstat, htcb, hle, hwaiting, hlock⟩ := rtIpcListSuspend_spec hr.current (hi.not_waiting hr q) hk
  have hcur : k.current = w.kernel.current :=
    suspendSelf_current (p := some (q, suspendPlace flag w.kernel q t)) hk
  have hother (u : τ) (hut : u ≠ t) : Untouched w.kernel k u :=
    untouched_ipcSuspend hk fun hc => hut (Option.some.inj (hc.symm.trans hr.current))
  have hlists (r : ι) (hrq : r ≠ q) : k.waiting r = w.kernel.waiting r := by
    obtain ⟨t', ht', -, -, rfl⟩ := rtIpcListSuspend_cases hk
    obtain rfl := Option.some.inj (hr.current.symm.trans ht')
    dsimp only
    rw [Function.update_of_ne hrq, (rtThreadSuspend_eq hstat).2.1]
    exact List.erase_of_not_mem (hi.not_waiting hr r)
  have hmem : t ∈ k.waiting q := by
    rw [hwaiting, List.mem_insertIdx hle]
    exact .inl rfl
  refine ⟨⟨inv_ipcSuspend hi.sched hk, hlock.trans hi.lock, fun u => ?_⟩, _, hle, ?_⟩
  · by_cases hut : u = t
    · subst hut
      have hself : Function.update w.pc u (WaitPc.schedule c) u = .schedule c := Function.update_self _ _ _
      exact
        { waits := fun r hm => by
            dsimp only at hm ⊢
            by_cases hrq : r = q
            · exact ⟨⟨c, by rw [hself]; rfl, hplace.trans hrq.symm⟩, by rw [htcb]; exact herr⟩
            · rw [hlists r hrq] at hm
              exact absurd hm (hi.not_waiting hr r)
          suspended := fun d hd _ => by
            dsimp only at hd
            rw [hself] at hd
            obtain rfl := Option.some.inj hd
            exact hplace ▸ hmem
          runs := fun _ hsched => absurd hself (hsched c) }
    · exact (hi.thread u).frame (hother u hut) (Function.update_of_ne hut _ _) fun hc => .inl (hcur ▸ hc)
  · ext u : 2
    · show k.waiting u = Function.update w.view.waiting q _ u
      by_cases hrq : u = q
      · subst hrq
        rw [Function.update_self]
        exact hwaiting
      · rw [Function.update_of_ne hrq]
        exact hlists u hrq
    · by_cases hut : u = t
      · subst hut
        simp [view, IpcView.suspend, IpcView.setCall, WaitPc.call]
      · simp [view, IpcView.suspend, IpcView.setCall, hut]
    all_goals
      by_cases hut : u = t
      · subst hut
        simp only [view, htcb, IpcView.suspend, IpcView.setCall]
      · simp only [view, (hother u hut).tcb, IpcView.suspend, IpcView.setCall]

end operations

/-! ## What happens apart from the calls -/

section environment

variable {place : κ → ι} {w w' : IpcThreads τ ι κ} {t : τ} {a : EnvAction τ}

omit [DecidableEq τ] in
theorem view_kernel {k : Kernel τ ι} {timer : τ → Bool} {pc : τ → WaitPc κ} (hwaiting : k.waiting = w.kernel.waiting)
    (htcb : ∀ u, ∃ stat, k.tcb u = { w.kernel.tcb u with stat := stat }) (hcall : ∀ u, (pc u).call = (w.pc u).call) :
    view { kernel := k, timer := timer, pc := pc } = w.view := by
  ext u : 2
  · exact congrFun hwaiting u
  · exact hcall u
  all_goals
    obtain ⟨stat, hu⟩ := htcb u
    simp only [view, hu]

theorem schedule_spec {k : Kernel τ ι} {pc : τ → WaitPc κ} (hi : Ok place w) (hs : rtSchedule w.kernel = some k)
    (hcall : ∀ u, (pc u).call = (w.pc u).call) :
    Ok place { w with kernel := k, pc := pc } ∧ view { w with kernel := k, pc := pc } = w.view := by
  obtain ⟨htcb, -, -, hwaiting, -, hlock⟩ := rtSchedule_frame hs
  refine ⟨⟨inv_schedule hi.sched hs, hlock.trans hi.lock, fun u => ?_⟩,
    view_kernel hwaiting (fun u => ⟨_, by rw [htcb]⟩) hcall⟩
  exact
    { waits := fun q hm => by
        dsimp only at hm ⊢
        rw [hwaiting] at hm
        rw [htcb, hcall]
        exact (hi.thread u).waits q hm
      suspended := fun c hc hst => by
        dsimp only at hc hst ⊢
        rw [hcall] at hc
        rw [htcb] at hst
        rw [hwaiting]
        exact (hi.thread u).suspended c hc hst
      runs := fun hc _ _ => schedule_ready hi.sched hs hi.lock hc }

/-- When the timer of a thread fires, the thread waits in the list of its call, if it is in one. -/
theorem timeout_spec [DecidableEq ι] {k : Kernel τ ι} {timer : τ → Bool} (hi : Ok place w)
    (hk : rtThreadTimeout w.kernel t = some k) :
    Ok place { w with kernel := k, timer := timer } ∧ view { w with kernel := k, timer := timer } = w.view.expire t ∧
      ∀ c, w.view.call t = some c → t ∈ w.view.waiting (place c) := by
  obtain ⟨hstat, htcb, hsched, hwaiting, hlock, hready⟩ := SemThreads.rtThreadTimeout_spec hi.sched hi.lock hk
  refine ⟨⟨hsched, hlock.trans hi.lock, fun u => ?_⟩, ?_, fun c hc => (hi.thread t).suspended c hc hstat⟩
  · by_cases hut : u = t
    · subst hut
      exact
        { waits := fun q hm => by
            dsimp only at hm
            rw [hwaiting] at hm
            exact absurd hm (hi.sched.waiting_nodup q).not_mem_erase
          suspended := fun c _ hst => by
            dsimp only at hst
            rw [htcb] at hst
            cases hst
          runs := fun _ _ _ => congrArg Tcb.stat htcb }
    · exact (hi.thread u).frame (untouched_timeout hk hut) rfl fun hc => .inr (hready u hc)
  · ext u : 2
    · exact hwaiting u
    · rfl
    all_goals
      by_cases hut : u = t
      · subst hut
        simp [view, htcb, IpcView.expire, IpcView.resume, IpcView.setError]
      · simp [view, (untouched_timeout hk hut).tcb, IpcView.expire, IpcView.resume, IpcView.setError, hut]

theorem sleep_spec [DecidableEq ι] {k : Kernel τ ι} {timer : τ → Bool} (hi : Ok place w) (hcaller : w.caller = some t)
    (hk : suspendSelf w.kernel none = some k) :
    Ok place { kernel := k, timer := timer, pc := Function.update w.pc t .asleep } ∧
      view { kernel := k, timer := timer, pc := Function.update w.pc t .asleep } = w.view := by
  obtain ⟨hcur, hpc⟩ := caller_eq.mp hcaller
  have hcurrent := suspendSelf_current hk
  have hother (u : τ) (hut : u ≠ t) : Untouched w.kernel k u :=
    untouched_suspendSelf hk fun hc => hut (Option.some.inj (hc.symm.trans hcur))
  obtain ⟨t', ht', hstat, rfl⟩ := suspendSelf_none hk
  obtain rfl := Option.some.inj (hcur.symm.trans ht')
  obtain ⟨htcb, hlists, hlock, -⟩ := rtThreadSuspend_eq hstat
  have hwaiting : (rtThreadSuspend w.kernel t).waiting = w.kernel.waiting := by
    funext q
    rw [hlists]
    exact List.erase_of_not_mem (hi.not_waiting (.inl hcaller) q)
  have hself : Function.update w.pc t (WaitPc.asleep : WaitPc κ) t = .asleep := Function.update_self _ _ _
  refine ⟨⟨inv_suspend hi.sched t, hlock.trans hi.lock, fun u => ?_⟩, ?_⟩
  · by_cases hut : u = t
    · subst hut
      exact
        { waits := fun q hm => by
            dsimp only at hm
            rw [hwaiting] at hm
            exact absurd hm (hi.not_waiting (.inl hcaller) q)
          suspended := fun c hc => by
            dsimp only at hc
            rw [hself] at hc
            cases hc
          runs := fun _ _ hsleep => absurd hself hsleep }
    · exact (hi.thread u).frame (hother u hut) (Function.update_of_ne hut _ _) fun hc => .inl (hcurrent ▸ hc)
  · refine view_kernel hwaiting (fun u => ?_) fun u => ?_
    · by_cases hut : u = t
      · subst hut
        exact ⟨_, htcb⟩
      · exact ⟨_, (hother u hut).tcb⟩
    · by_cases hut : u = t
      · subst hut
        rw [hself, hpc]
        rfl
      · rw [Function.update_of_ne hut]

/-- A step apart from the calls keeps the invariant; the view changes when a timer fires, and then its thread waits
in the list of its call, if it is in one. -/
theorem envStep_spec [DecidableEq ι] (hi : Ok place w) (hs : w.envStep a = some w') :
    Ok place w' ∧
    ((∃ t, a = .timeout t ∧ w'.view = w.view.expire t ∧
      ∀ c, w.view.call t = some c → t ∈ w.view.waiting (place c)) ∨
    (∀ t, a ≠ .timeout t) ∧ w'.view = w.view) := by
  cases a with
  | timeout t =>
    obtain ⟨-, hs⟩ := Option.ite_none_right_eq_some.mp hs
    obtain ⟨k, hk, rfl⟩ := Option.map_eq_some_iff.mp hs
    obtain ⟨hok, hview, hsuspended⟩ := timeout_spec hi hk
    exact ⟨hok, .inl ⟨t, rfl, hview, hsuspended⟩⟩
  | next =>
    obtain ⟨t, hcur, hs⟩ := Option.bind_eq_some_iff.mp hs
    have hcall (pc : WaitPc κ) (hpc : pc.call = (w.pc t).call) (u : τ) :
        (Function.update w.pc t pc u).call = (w.pc u).call := by
      by_cases hut : u = t
      · subst hut
        rw [Function.update_self, hpc]
      · rw [Function.update_of_ne hut]
    split at hs
    · next hpc =>
      obtain ⟨k, hk, rfl⟩ := Option.map_eq_some_iff.mp hs
      obtain ⟨hok, hview⟩ := schedule_spec hi hk (hcall .idle (by rw [hpc]; rfl))
      exact ⟨hok, .inr ⟨by simp, hview⟩⟩
    · next c hpc =>
      obtain ⟨k, hk, rfl⟩ := Option.map_eq_some_iff.mp hs
      obtain ⟨hok, hview⟩ := schedule_spec hi hk (hcall (.resumed c) (by rw [hpc]; rfl))
      exact ⟨hok, .inr ⟨by simp, hview⟩⟩
    · cases hs
  | sleep =>
    obtain ⟨t, hcaller, hs⟩ := Option.bind_eq_some_iff.mp hs
    obtain ⟨k, hk, rfl⟩ := Option.map_eq_some_iff.mp hs
    obtain ⟨hok, hview⟩ := sleep_spec hi hcaller hk
    exact ⟨hok, .inr ⟨by simp, hview⟩⟩
  | yield =>
    obtain ⟨k, hk, rfl⟩ := Option.map_eq_some_iff.mp hs
    obtain ⟨hsched, hwaiting, hlock, hready⟩ := rtThreadYield_spec hi.sched hi.lock hk
    refine ⟨⟨hsched, hlock.trans hi.lock, fun u => (hi.thread u).frame (untouched_yield hk u) rfl (hready u)⟩,
      .inr ⟨by simp, view_kernel hwaiting (fun u => ⟨_, by rw [(untouched_yield hk u).tcb]⟩) fun _ => rfl⟩⟩
  | schedule =>
    obtain ⟨k, hk, rfl⟩ := Option.map_eq_some_iff.mp hs
    obtain ⟨hok, hview⟩ := schedule_spec hi hk (show ∀ u, (w.pc u).call = (w.pc u).call from fun _ => rfl)
    exact ⟨hok, .inr ⟨by simp, hview⟩⟩

end environment

end IpcThreads

end ThyristorController
