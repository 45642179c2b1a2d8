import Mathlib.Data.Fintype.Basic
import Mathlib.Data.List.Basic
import Mathlib.Logic.Function.Basic
import ThyristorController.Kernel.IpcThreads
import ThyristorController.Lib.Run

/-!
# Wait queues (`components/drivers/src/waitqueue.c`)

`rt_wqueue_wait` and `poll` register a thread in wait queues, and `rt_wqueue_wakeup` resumes the thread of the first
entry that accepts it, whatever that thread is suspended on. The threads run any program of these calls, of the calls
that `poll` consists of, of `rt_sem_take` and `rt_mutex_take`, and of calls that wait for other kernel objects; each
critical section is one step.

`wakeups_hit_sleepers` says that only threads in `rt_wqueue_wait` and `poll_wait_timeout` are resumed, and that a take
of a kernel object succeeds only if it was granted, when no thread blocks on one while it is registered.
-/

namespace ThyristorController.WaitQueues

open Transition

/-! ## Wait queues -/

/-- `struct rt_wqueue_node`; the function `wakeup` is `__wqueue_pollwake` or `__wqueue_default_wake`. -/
structure RtWqueueNode (τ : Type) where
  pollingThread : τ
  pollwake : Bool
  key : UInt32
  deriving DecidableEq

/-- `rt_wqueue_t`; `flag` is `RT_WQ_FLAG_WAKEUP`. -/
structure RtWqueue (τ : Type) where
  flag : Bool
  waitingList : List (RtWqueueNode τ)
  deriving DecidableEq

/-- `rt_wqueue_init`. -/
def rtWqueueInit {τ : Type} : RtWqueue τ := ⟨false, []⟩

variable {τ κ σ μ ι : Type} [DecidableEq τ] [DecidableEq κ] [DecidableEq σ] [DecidableEq μ] [DecidableEq ι]

/-- `entry->wakeup(entry, key) == 0`. -/
def RtWqueueNode.accepts (key : UInt32) (e : RtWqueueNode τ) : Bool := !e.pollwake || key == 0 || key &&& e.key != 0

namespace RtWqueue

/-- `rt_wqueue_add`. -/
def add (q : RtWqueue τ) (e : RtWqueueNode τ) : RtWqueue τ := { q with waitingList := q.waitingList ++ [e] }

/-- `rt_wqueue_remove`. -/
def remove (q : RtWqueue τ) (e : RtWqueueNode τ) : RtWqueue τ := { q with waitingList := q.waitingList.erase e }

/-- The entry at which the loop of `rt_wqueue_wakeup` ends. -/
def first (q : RtWqueue τ) (key : UInt32) : Option (RtWqueueNode τ) := q.waitingList.find? (·.accepts key)

end RtWqueue

/-! ## Threads, semaphores and mutexes -/

/-- What a thread can be suspended on: a semaphore, a mutex, or a list of threads of another kernel object, as that of
an event or a memory pool, or one of the two of a mailbox. -/
inductive KernelObject (σ μ ι : Type) where
  | sem (s : σ)
  | mutex (m : μ)
  | other (i : ι)
  deriving DecidableEq

/-- `struct rt_mutex` without priorities. -/
structure RtMutex (τ : Type) where
  value : Nat
  hold : Nat
  owner : Option τ

/-- Where a thread is: behind `rt_schedule` in a take of a kernel object, in `rt_wqueue_wait`, before its last
`rt_wqueue_remove` or in `poll_wait_timeout`, or in other code. -/
inductive ThreadPc (κ σ μ ι : Type) where
  | run
  | take (o : KernelObject σ μ ι)
  | wait (q : κ)
  | waited (q : κ)
  | pollWait
  deriving DecidableEq

/-- `triggered t` is the one of the poll table of `t`, `timer t` whether its `thread_timer` is running. -/
structure WaitState (τ κ σ μ ι : Type) where
  queue : κ → RtWqueue τ
  semValue : σ → Nat
  mutex : μ → RtMutex τ
  suspendThread : KernelObject σ μ ι → List τ
  suspended : τ → Bool
  error : τ → Int
  timer : τ → Bool
  triggered : τ → Bool
  pc : τ → ThreadPc κ σ μ ι

namespace WaitState

def setQueue (s : WaitState τ κ σ μ ι) (q : κ) (x : RtWqueue τ) : WaitState τ κ σ μ ι :=
  { s with queue := Function.update s.queue q x }

def setPc (s : WaitState τ κ σ μ ι) (t : τ) (pc : ThreadPc κ σ μ ι) : WaitState τ κ σ μ ι :=
  { s with pc := Function.update s.pc t pc }

/-- `rt_thread_resume`; the thread's list is any that it is in. -/
def resume (s : WaitState τ κ σ μ ι) (t : τ) : WaitState τ κ σ μ ι :=
  if s.suspended t then
    { s with
      suspendThread := fun o => (s.suspendThread o).erase t
      suspended := Function.update s.suspended t false
      timer := Function.update s.timer t false }
  else s

/-- `rt_thread_suspend` of the calling thread, and the start of its timer. -/
def suspend (s : WaitState τ κ σ μ ι) (t : τ) (timed : Bool) (pc : ThreadPc κ σ μ ι) : WaitState τ κ σ μ ι :=
  { s with
    suspended := Function.update s.suspended t true
    timer := Function.update s.timer t timed
    pc := Function.update s.pc t pc }

/-- `rt_thread_timeout`. -/
def timeout (s : WaitState τ κ σ μ ι) (t : τ) : WaitState τ κ σ μ ι :=
  { s.resume t with error := Function.update s.error t rtEtimeout }

/-! ### Takes and releases -/

/-- The thread suspends itself in a take; `place` of the threads of the list stay in front of it. -/
def suspendOn (s : WaitState τ κ σ μ ι) (t : τ) (o : KernelObject σ μ ι) (time : Int) (place : Nat) :
    WaitState τ κ σ μ ι :=
  { s.suspend t (0 < time) (.take o) with
    error := Function.update s.error t rtEok
    suspendThread := Function.update s.suspendThread o
      ((s.suspendThread o).take place ++ t :: (s.suspendThread o).drop place) }

/-- `rt_sem_take`, up to `rt_schedule`. -/
def semTake (s : WaitState τ κ σ μ ι) (t : τ) (x : σ) (time : Int) (place : Nat) : WaitState τ κ σ μ ι :=
  if 0 < s.semValue x then { s with semValue := Function.update s.semValue x (s.semValue x - 1) }
  else if time = 0 then s
  else s.suspendOn t (.sem x) time place

/-- `rt_mutex_take`, up to `rt_schedule`. -/
def mutexTake (s : WaitState τ κ σ μ ι) (t : τ) (m : μ) (time : Int) (place : Nat) : WaitState τ κ σ μ ι :=
  let s := { s with error := Function.update s.error t rtEok }
  let x := s.mutex m
  if x.owner = some t then
    if x.hold < 255 then { s with mutex := Function.update s.mutex m { x with hold := x.hold + 1 } } else s
  else if 0 < x.value then
    { s with mutex := Function.update s.mutex m ⟨x.value - 1, if x.hold < 255 then x.hold + 1 else x.hold, some t⟩ }
  else if time = 0 then { s with error := Function.update s.error t rtEtimeout }
  else s.suspendOn t (.mutex m) time place

/-- A call that waits for another kernel object: `rt_event_recv`, `rt_mb_send_wait`, `rt_mb_recv`, `rt_mq_recv`,
`rt_mp_alloc`, `rt_completion_wait` and the like. -/
def block (s : WaitState τ κ σ μ ι) (t : τ) (i : ι) (time : Int) (place : Nat) : WaitState τ κ σ μ ι :=
  if time = 0 then s else s.suspendOn t (.other i) time place

/-- `rt_sem_release`. -/
def semRelease (s : WaitState τ κ σ μ ι) (x : σ) : WaitState τ κ σ μ ι :=
  match s.suspendThread (.sem x) with
  | t :: _ => s.resume t
  | [] =>
    if s.semValue x < 65535 then { s with semValue := Function.update s.semValue x (s.semValue x + 1) } else s

/-- `rt_mutex_release` by `t`. -/
def mutexRelease (s : WaitState τ κ σ μ ι) (t : τ) (m : μ) : WaitState τ κ σ μ ι :=
  let x := s.mutex m
  if x.owner = some t then
    if x.hold - 1 = 0 then
      match s.suspendThread (.mutex m) with
      | u :: _ => { s with mutex := Function.update s.mutex m ⟨x.value, 1, some u⟩ }.resume u
      | [] =>
        if x.value < 65535 then { s with mutex := Function.update s.mutex m ⟨x.value + 1, 0, none⟩ }
        else { s with mutex := Function.update s.mutex m { x with hold := 0 } }
    else { s with mutex := Function.update s.mutex m { x with hold := x.hold - 1 } }
  else { s with error := Function.update s.error t rtError }

/-! ### Wait queues and `poll` -/

/-- `rt_wqueue_wakeup`, up to `rt_schedule`. -/
def wakeup (s : WaitState τ κ σ μ ι) (q : κ) (key : UInt32) : WaitState τ κ σ μ ι :=
  let x := s.queue q
  match x.first key with
  | none => s.setQueue q { x with flag := true }
  | some e =>
    let s := if e.pollwake then { s with triggered := Function.update s.triggered e.pollingThread true } else s
    (s.resume e.pollingThread).setQueue q ({ x with flag := true }.remove e)

/-- The entry `__wait` of `t`. -/
def waitNode (t : τ) : RtWqueueNode τ := ⟨t, false, 0⟩

/-- `rt_wqueue_wait` with a false condition, up to `rt_schedule` or to its last `rt_wqueue_remove`. -/
def wait (s : WaitState τ κ σ μ ι) (t : τ) (q : κ) (tick : Int) : WaitState τ κ σ μ ι :=
  if tick = 0 then s
  else if (s.queue q).flag then (s.setQueue q { s.queue q with flag := false }).setPc t (.waited q)
  else (s.setQueue q ((s.queue q).add (waitNode t))).suspend t (tick != -1) (.wait q)

/-- `poll_wait_timeout`, up to `rt_schedule`. -/
def pollWaitTimeout (s : WaitState τ κ σ μ ι) (t : τ) (timeout : Int) : WaitState τ κ σ μ ι :=
  if timeout ≠ 0 ∧ s.triggered t = false then s.suspend t (0 < timeout) .pollWait else s

/-- What a suspended thread does when it runs again. -/
def goOn (s : WaitState τ κ σ μ ι) (t : τ) : Option (WaitState τ κ σ μ ι) :=
  if s.suspended t then none
  else
    match s.pc t with
    | .run => none
    | .take _ => some (s.setPc t .run)
    | .wait q => some ((s.setQueue q { s.queue q with flag := false }).setPc t (.waited q))
    | .waited q => some ((s.setQueue q ((s.queue q).remove (waitNode t))).setPc t .run)
    | .pollWait => some (s.setPc t .run)

end WaitState

/-- A critical section of a call. The calls of `poll` are `pollInit`, those of the `poll` functions of the devices and
of `rt_malloc`, `pollAdd`, `pollWait`, `pollRemove` and those of `rt_free`. A semaphore may be released, and a wait
queue woken up, by an interrupt. `block` is a call on another kernel object that has to wait, and `serve` a call on that
object, or an interrupt, which resumes a thread of its list. -/
inductive WaitAction (τ κ σ μ ι : Type) where
  | semTake (t : τ) (x : σ) (time : Int) (place : Nat)
  | mutexTake (t : τ) (m : μ) (time : Int) (place : Nat)
  | block (t : τ) (i : ι) (time : Int) (place : Nat)
  | semRelease (x : σ)
  | mutexRelease (t : τ) (m : μ)
  | serve (i : ι) (t : τ)
  | wait (t : τ) (q : κ) (tick : Int)
  | pollInit (t : τ)
  | pollAdd (t : τ) (q : κ) (key : UInt32)
  | pollWait (t : τ) (timeout : Int)
  | pollRemove (t : τ) (q : κ) (key : UInt32)
  | wakeup (q : κ) (key : UInt32)
  | timeout (t : τ)
  | goOn (t : τ)
  deriving DecidableEq

/-- A step of a thread that is not in one of the blocking calls. -/
def WaitState.call (s : WaitState τ κ σ μ ι) (t : τ) (s' : WaitState τ κ σ μ ι) : Option (WaitState τ κ σ μ ι) :=
  if s.pc t = .run ∧ s.suspended t = false then some s' else none

def waitStep (s : WaitState τ κ σ μ ι) : WaitAction τ κ σ μ ι → Option (WaitState τ κ σ μ ι)
  | .semTake t x time place => s.call t (s.semTake t x time place)
  | .mutexTake t m time place => s.call t (s.mutexTake t m time place)
  | .block t i time place => s.call t (s.block t i time place)
  | .semRelease x => some (s.semRelease x)
  | .mutexRelease t m => s.call t (s.mutexRelease t m)
  | .serve i t => if t ∈ s.suspendThread (.other i) then some (s.resume t) else none
  | .wait t q tick => s.call t (s.wait t q tick)
  | .pollInit t => s.call t { s with triggered := Function.update s.triggered t false }
  | .pollAdd t q key => s.call t (s.setQueue q ((s.queue q).add ⟨t, true, key⟩))
  | .pollWait t timeout => s.call t (s.pollWaitTimeout t timeout)
  | .pollRemove t q key => s.call t (s.setQueue q ((s.queue q).remove ⟨t, true, key⟩))
  | .wakeup q key => some (s.wakeup q key)
  | .timeout t => if s.timer t then some (s.timeout t) else none
  | .goOn t => s.goOn t

def waitQueues (τ κ σ μ ι : Type) [DecidableEq τ] [DecidableEq κ] [DecidableEq σ] [DecidableEq μ] [DecidableEq ι] :
    System (WaitState τ κ σ μ ι) (WaitAction τ κ σ μ ι) where
  init s := (∀ q, s.queue q = rtWqueueInit) ∧ (∀ o, s.suspendThread o = []) ∧
    ∀ t, s.suspended t = false ∧ s.timer t = false ∧ s.pc t = .run
  step := waitStep

/-! ## Wake-ups and grants of a run -/

/-- The step is a wake-up that resumes `t`. -/
def wakes (s : WaitState τ κ σ μ ι) (t : τ) : WaitAction τ κ σ μ ι → Prop
  | .wakeup q key => ((s.queue q).first key).map (·.pollingThread) = some t ∧ s.suspended t = true
  | _ => False

/-- The step is a release of `o` that gives it to `t`, or resumes `t` in a call that waits for it. -/
def grants (o : KernelObject σ μ ι) (t : τ) (s : WaitState τ κ σ μ ι) : WaitAction τ κ σ μ ι → Prop
  | .semRelease x => o = .sem x ∧ (s.suspendThread o).head? = some t
  | .mutexRelease u m => o = .mutex m ∧ (s.suspendThread o).head? = some t ∧ (s.mutex m).owner = some u ∧
      (s.mutex m).hold - 1 = 0
  | .serve i u => o = .other i ∧ u = t
  | _ => False

/-- The step begins a take of a kernel object by `t`. -/
def takes (t : τ) (_ : WaitState τ κ σ μ ι) : WaitAction τ κ σ μ ι → Prop
  | .semTake u _ _ _ | .mutexTake u _ _ _ | .block u _ _ _ => u = t
  | _ => False

/-- The step returns `RT_EOK` from a take in which `t` was suspended; in that of a mailbox, a message queue or a memory
pool, it goes on to look at the object again. -/
def succeeds (o : KernelObject σ μ ι) (t : τ) (s : WaitState τ κ σ μ ι) (a : WaitAction τ κ σ μ ι) : Prop :=
  a = .goOn t ∧ s.pc t = .take o ∧ s.error t = rtEok

/-- The thread is registered in a wait queue. -/
def WaitState.Registered (s : WaitState τ κ σ μ ι) (t : τ) : Prop :=
  ∃ q, ∃ e ∈ (s.queue q).waitingList, e.pollingThread = t

/-- A thread that would have to wait for a kernel object is registered in no wait queue. -/
def Proper (s : WaitState τ κ σ μ ι) : WaitAction τ κ σ μ ι → Prop
  | .semTake t x time _ => s.semValue x = 0 → time ≠ 0 → ¬ s.Registered t
  | .mutexTake t m time _ => (s.mutex m).owner ≠ some t → (s.mutex m).value = 0 → time ≠ 0 → ¬ s.Registered t
  | .block t _ time _ => time ≠ 0 → ¬ s.Registered t
  | _ => True

/-! ## The invariant -/

/-- What holds of a thread in a take: it is registered nowhere, and while it has neither been given the object nor been
told of an error it is suspended. -/
def ThreadOk (h : History (WaitState τ κ σ μ ι) (WaitAction τ κ σ μ ι)) (s : WaitState τ κ σ μ ι) (t : τ) : Prop :=
  ∀ o, s.pc t = .take o →
    ¬ s.Registered t ∧ (s.suspended t = true ∨ s.error t ≠ rtEok ∨ Since (grants o t) (takes t) h)

/-- The threads of the lists are suspended in the takes of the objects. -/
structure ListOk (s : WaitState τ κ σ μ ι) : Prop where
  listed : ∀ t o, t ∈ s.suspendThread o → s.pc t = .take o ∧ s.suspended t = true
  nodup : ∀ o, (s.suspendThread o).Nodup

section steps

variable {s s' s'' : WaitState τ κ σ μ ι} {t u : τ} {a : WaitAction τ κ σ μ ι} {o : KernelObject σ μ ι} {q : κ} {x : σ}
  {m : μ} {i : ι} {key : UInt32} {time tick : Int} {place : Nat} {pc : ThreadPc κ σ μ ι}
  {h : History (WaitState τ κ σ μ ι) (WaitAction τ κ σ μ ι)}

/-! ### What the operations leave alone -/

omit [DecidableEq κ] [DecidableEq σ] [DecidableEq μ] [DecidableEq ι] in
theorem resume_frame (s : WaitState τ κ σ μ ι) (t : τ) :
    (s.resume t).queue = s.queue ∧ (s.resume t).pc = s.pc ∧ (s.resume t).error = s.error := by
  unfold WaitState.resume
  split_ifs
  · exact ⟨rfl, rfl, rfl⟩
  · exact ⟨rfl, rfl, rfl⟩

omit [DecidableEq κ] [DecidableEq σ] [DecidableEq μ] [DecidableEq ι] in
theorem resume_other (hne : t ≠ u) : (s.resume u).suspended t = s.suspended t := by
  unfold WaitState.resume
  split_ifs
  · exact Function.update_of_ne hne _ _
  · rfl

omit [DecidableEq κ] [DecidableEq σ] [DecidableEq μ] [DecidableEq ι] in
theorem setPc_self (s : WaitState τ κ σ μ ι) (t : τ) (pc : ThreadPc κ σ μ ι) : (s.setPc t pc).pc t = pc :=
  Function.update_self _ _ _

omit [DecidableEq κ] [DecidableEq σ] [DecidableEq μ] [DecidableEq ι] in
theorem suspend_pc (s : WaitState τ κ σ μ ι) (t : τ) (timed : Bool) (pc : ThreadPc κ σ μ ι) :
    (s.suspend t timed pc).pc t = pc :=
  Function.update_self _ _ _

omit [DecidableEq τ] [DecidableEq κ] [DecidableEq σ] [DecidableEq μ] [DecidableEq ι] in
theorem registered_congr (hq : s'.queue = s.queue) : s'.Registered t ↔ s.Registered t := by
  unfold WaitState.Registered
  rw [hq]

omit [DecidableEq τ] [DecidableEq σ] [DecidableEq μ] [DecidableEq ι] in
theorem registered_setQueue {y : RtWqueue τ}
    (hsub : ∀ e ∈ y.waitingList, e.pollingThread = t → e ∈ (s.queue q).waitingList)
    (hreg : (s.setQueue q y).Registered t) : s.Registered t := by
  obtain ⟨r, e, he, ht⟩ := hreg
  by_cases hr : r = q
  · subst hr
    have hy : e ∈ y.waitingList := by
      simpa [WaitState.setQueue] using he
    exact ⟨r, e, hsub e hy ht, ht⟩
  · refine ⟨r, e, ?_, ht⟩
    simpa [WaitState.setQueue, hr] using he

omit [DecidableEq τ] [DecidableEq κ] [DecidableEq σ] [DecidableEq μ] [DecidableEq ι] in
theorem ThreadOk.keep (hok : ThreadOk h s t) (hpc : s'.pc t = s.pc t) (hreg : s'.Registered t → s.Registered t)
    (hsuspended : ∀ o, s.pc t = .take o → s.suspended t = true →
      s'.suspended t = true ∨ s'.error t ≠ rtEok ∨ grants o t s a)
    (herror : s.error t ≠ rtEok → s'.error t ≠ rtEok) (htakes : ∀ o, s.pc t = .take o → ¬ takes t s a) :
    ThreadOk ((s, a) :: h) s' t := by
  intro o ho
  rw [hpc] at ho
  obtain ⟨hnot, hwhy⟩ := hok o ho
  refine ⟨fun hr => hnot (hreg hr), ?_⟩
  rw [since_cons]
  rcases hwhy with hsus | herr | hgranted
  · rcases hsuspended o ho hsus with h₁ | h₂ | h₃
    · exact .inl h₁
    · exact .inr (.inl h₂)
    · exact .inr (.inr (.inl h₃))
  · exact .inr (.inl (herror herr))
  · exact .inr (.inr (.inr ⟨htakes o ho, hgranted⟩))

omit [DecidableEq τ] [DecidableEq κ] [DecidableEq σ] [DecidableEq μ] [DecidableEq ι] in
theorem ThreadOk.other (hok : ThreadOk h s t) (hpc : s'.pc t = s.pc t) (hreg : s'.Registered t → s.Registered t)
    (hsuspended : s'.suspended t = s.suspended t) (herror : s'.error t = s.error t) (htakes : ¬ takes t s a) :
    ThreadOk ((s, a) :: h) s' t :=
  hok.keep hpc hreg (fun _ _ hs => .inl (hsuspended.trans hs)) (fun he => herror ▸ he) fun _ _ => htakes

omit [DecidableEq τ] [DecidableEq κ] [DecidableEq σ] [DecidableEq μ] [DecidableEq ι] in
theorem ThreadOk.of_pc (hpc : ∀ o, s'.pc t ≠ .take o) : ThreadOk h s' t := fun o ho => absurd ho (hpc o)

omit [DecidableEq τ] in
theorem call_some (hs : s.call t s' = some s'') : s.pc t = .run ∧ s.suspended t = false ∧ s' = s'' := by
  unfold WaitState.call at hs
  split_ifs at hs with hrun
  exact ⟨hrun.1, hrun.2, Option.some.inj hs⟩

/-! ### The steps -/

omit [DecidableEq κ] in
theorem step_suspendOn (hok : ∀ t, ThreadOk h s t) (hreg : ¬ s.Registered u) (hu : ∀ t, takes t s a → t = u) :
    ThreadOk ((s, a) :: h) (s.suspendOn u o time place) t := by
  by_cases ht : t = u
  · subst ht
    intro o' _
    refine ⟨hreg, .inl ?_⟩
    exact Function.update_self _ _ _
  · exact (hok t).other (Function.update_of_ne ht _ _) (fun hr => hr) (Function.update_of_ne ht _ _)
      (Function.update_of_ne ht _ _) fun htakes => ht (hu t htakes)

omit [DecidableEq κ] [DecidableEq σ] [DecidableEq μ] [DecidableEq ι] in
theorem step_outside (hok : ∀ t, ThreadOk h s t) (hpc : ∀ t, t ≠ u → s'.pc t = s.pc t) (hrun : ∀ o, s'.pc u ≠ .take o)
    (hreg : ∀ t, t ≠ u → s'.Registered t → s.Registered t) (hsus : ∀ t, t ≠ u → s'.suspended t = s.suspended t)
    (herr : ∀ t, t ≠ u → s'.error t = s.error t) (hu : ∀ t, takes t s a → t = u) : ThreadOk ((s, a) :: h) s' t := by
  by_cases ht : t = u
  · subst ht
    exact ThreadOk.of_pc hrun
  · exact (hok t).other (hpc t ht) (hreg t ht) (hsus t ht) (herr t ht) fun htakes => ht (hu t htakes)

theorem step_semTake (hok : ∀ t, ThreadOk h s t) (hP : Proper s (.semTake u x time place))
    (hs : s.call u (s.semTake u x time place) = some s') : ThreadOk ((s, .semTake u x time place) :: h) s' t := by
  obtain ⟨hrun, hawake, rfl⟩ := call_some hs
  have hu : ∀ t, takes t s (.semTake u x time place) → t = u := fun _ he => he.symm
  have hstay : ∀ o, s.pc u ≠ .take o := by
    intro o
    rw [hrun]
    exact fun he => by contradiction
  unfold WaitState.semTake
  split_ifs with hpos hzero
  · exact step_outside hok (fun _ _ => rfl) hstay (fun _ _ hr => hr) (fun _ _ => rfl) (fun _ _ => rfl) hu
  · exact step_outside hok (fun _ _ => rfl) hstay (fun _ _ hr => hr) (fun _ _ => rfl) (fun _ _ => rfl) hu
  · exact step_suspendOn hok (hP (by omega) hzero) hu

theorem step_mutexTake (hok : ∀ t, ThreadOk h s t) (hP : Proper s (.mutexTake u m time place))
    (hs : s.call u (s.mutexTake u m time place) = some s') : ThreadOk ((s, .mutexTake u m time place) :: h) s' t := by
  obtain ⟨hrun, hawake, rfl⟩ := call_some hs
  have hu : ∀ t, takes t s (.mutexTake u m time place) → t = u := fun _ he => he.symm
  have hstay : ∀ o, s.pc u ≠ .take o := by
    intro o
    rw [hrun]
    exact fun he => by contradiction
  have herr : ∀ t e, t ≠ u → Function.update s.error u e t = s.error t := fun t e ht => Function.update_of_ne ht _ _
  unfold WaitState.mutexTake
  dsimp only
  split_ifs with howner hhold hpos hmax hzero
  · exact step_outside hok (fun _ _ => rfl) hstay (fun _ _ hr => hr) (fun _ _ => rfl) (fun t => herr t _) hu
  · exact step_outside hok (fun _ _ => rfl) hstay (fun _ _ hr => hr) (fun _ _ => rfl) (fun t => herr t _) hu
  · exact step_outside hok (fun _ _ => rfl) hstay (fun _ _ hr => hr) (fun _ _ => rfl) (fun t => herr t _) hu
  · exact step_outside hok (fun _ _ => rfl) hstay (fun _ _ hr => hr) (fun _ _ => rfl) (fun t => herr t _) hu
  · refine step_outside hok (fun _ _ => rfl) hstay (fun _ _ hr => hr) (fun _ _ => rfl) ?_ hu
    intro t ht
    show Function.update (Function.update s.error u rtEok) u rtEtimeout t = s.error t
    rw [Function.update_of_ne ht, Function.update_of_ne ht]
  · by_cases ht : t = u
    · subst ht
      intro o' _
      exact ⟨hP howner (by omega) hzero, .inl (Function.update_self _ _ _)⟩
    · refine (hok t).other (Function.update_of_ne ht _ _) (fun hr => hr) (Function.update_of_ne ht _ _) ?_
        fun htakes => ht (hu t htakes)
      show Function.update (Function.update s.error u rtEok) u rtEok t = s.error t
      rw [Function.update_of_ne ht, Function.update_of_ne ht]

theorem step_block (hok : ∀ t, ThreadOk h s t) (hP : Proper s (.block u i time place))
    (hs : s.call u (s.block u i time place) = some s') : ThreadOk ((s, .block u i time place) :: h) s' t := by
  obtain ⟨hrun, hawake, rfl⟩ := call_some hs
  have hu : ∀ t, takes t s (.block u i time place) → t = u := fun _ he => he.symm
  unfold WaitState.block
  split_ifs with hzero
  · refine step_outside hok (fun _ _ => rfl) (fun o ho => ?_) (fun _ _ hr => hr) (fun _ _ => rfl) (fun _ _ => rfl) hu
    rw [hrun] at ho
    contradiction
  · exact step_suspendOn hok (hP hzero) hu

omit [DecidableEq κ] [DecidableEq σ] [DecidableEq μ] [DecidableEq ι] in
theorem step_release (hok : ∀ t, ThreadOk h s t) (hqueue : s'.queue = s.queue) (hpc : s'.pc = s.pc)
    (herror : s'.error = s.error) (hother : ∀ t, t ≠ u → s'.suspended t = s.suspended t)
    (hgrants : ∀ o, s.pc u = .take o → s.suspended u = true → grants o u s a) (htakes : ∀ t, ¬ takes t s a) :
    ThreadOk ((s, a) :: h) s' t := by
  apply (hok t).keep (congrFun hpc t) (registered_congr hqueue).mp
  · intro o ho hs
    by_cases ht : t = u
    · subst ht
      exact .inr (.inr (hgrants o ho hs))
    · exact .inl ((hother t ht).trans hs)
  · rw [herror]
    exact fun he => he
  · exact fun _ _ => htakes t

/-! ### The lists of the objects -/

omit [DecidableEq τ] [DecidableEq κ] [DecidableEq σ] [DecidableEq μ] [DecidableEq ι] in
theorem ListOk.outside (hok : ListOk s) (hawake : s.suspended u = false) (hlist : s'.suspendThread = s.suspendThread)
    (hpc : ∀ t, t ≠ u → s'.pc t = s.pc t) (hsus : ∀ t, t ≠ u → s'.suspended t = s.suspended t) : ListOk s' := by
  constructor
  · intro t o ht
    rw [hlist] at ht
    obtain ⟨htake, hs⟩ := hok.listed t o ht
    have hne : t ≠ u := by
      rintro rfl
      rw [hawake] at hs
      contradiction
    rw [hpc t hne, hsus t hne]
    exact ⟨htake, hs⟩
  · rw [hlist]
    exact hok.nodup

omit [DecidableEq κ] in
theorem ListOk.suspendOn (hok : ListOk s) (hawake : s.suspended u = false) : ListOk (s.suspendOn u o time place) := by
  have hnew : ∀ o', u ∉ s.suspendThread o' := by
    intro o' hmem
    have hs := (hok.listed u o' hmem).2
    rw [hawake] at hs
    contradiction
  have hmem : ∀ t o', t ∈ (s.suspendOn u o time place).suspendThread o' →
      (t = u ∧ o' = o) ∨ t ∈ s.suspendThread o' := by
    intro t o' ht
    by_cases ho : o' = o
    · subst ho
      have ht' : t ∈ (s.suspendThread o').take place ++ u :: (s.suspendThread o').drop place := by
        simpa [WaitState.suspendOn] using ht
      rcases List.mem_append.mp ht' with ht' | ht'
      · exact .inr (List.mem_of_mem_take ht')
      · rcases List.mem_cons.mp ht' with rfl | ht'
        · exact .inl ⟨rfl, rfl⟩
        · exact .inr (List.mem_of_mem_drop ht')
    · right
      simpa [WaitState.suspendOn, ho] using ht
  constructor
  · intro t o' ht
    rcases hmem t o' ht with ⟨rfl, rfl⟩ | hold
    · exact ⟨Function.update_self _ _ _, Function.update_self _ _ _⟩
    · have hne : t ≠ u := by
        rintro rfl
        exact hnew o' hold
      obtain ⟨htake, hs⟩ := hok.listed t o' hold
      exact ⟨(Function.update_of_ne hne _ _).trans htake, (Function.update_of_ne hne _ _).trans hs⟩
  · intro o'
    by_cases ho : o' = o
    · subst ho
      have heq : (s.suspendOn u o' time place).suspendThread o' =
          (s.suspendThread o').take place ++ u :: (s.suspendThread o').drop place := Function.update_self _ _ _
      rw [heq]
      refine List.nodup_middle.mpr (List.nodup_cons.mpr ?_)
      rw [List.take_append_drop]
      exact ⟨hnew o', hok.nodup o'⟩
    · have heq : (s.suspendOn u o time place).suspendThread o' = s.suspendThread o' := Function.update_of_ne ho _ _
      rw [heq]
      exact hok.nodup o'

omit [DecidableEq κ] [DecidableEq σ] [DecidableEq μ] [DecidableEq ι] in
theorem ListOk.resume (hok : ListOk s) : ListOk (s.resume u) := by
  unfold WaitState.resume
  split_ifs with hsus
  · constructor
    · intro t o ht
      have hmem : t ≠ u ∧ t ∈ s.suspendThread o := (hok.nodup o).mem_erase_iff.mp ht
      obtain ⟨htake, hs⟩ := hok.listed t o hmem.2
      exact ⟨htake, (Function.update_of_ne hmem.1 _ _).trans hs⟩
    · intro o
      exact (hok.nodup o).erase u
  · exact hok

/-- The threads and the lists. -/
def Ok (h : History (WaitState τ κ σ μ ι) (WaitAction τ κ σ μ ι)) (s : WaitState τ κ σ μ ι) : Prop :=
  (∀ t, ThreadOk h s t) ∧ ListOk s

omit [DecidableEq κ] [DecidableEq σ] [DecidableEq μ] [DecidableEq ι] in
/-- A step of a thread that is in no blocking call, and goes into no take. -/
theorem Ok.outside (hok : Ok h s) (hawake : s.suspended u = false) (hlist : s'.suspendThread = s.suspendThread)
    (hpc : ∀ t, t ≠ u → s'.pc t = s.pc t) (hrun : ∀ o, s'.pc u ≠ .take o)
    (hreg : ∀ t, t ≠ u → s'.Registered t → s.Registered t) (hsus : ∀ t, t ≠ u → s'.suspended t = s.suspended t)
    (herr : ∀ t, t ≠ u → s'.error t = s.error t) (hu : ∀ t, takes t s a → t = u) : Ok ((s, a) :: h) s' :=
  ⟨fun _ => step_outside hok.1 hpc hrun hreg hsus herr hu, hok.2.outside hawake hlist hpc hsus⟩

omit [DecidableEq τ] [DecidableEq κ] [DecidableEq σ] [DecidableEq μ] [DecidableEq ι] in
theorem head_take (hok : Ok h s) (hhead : (s.suspendThread o).head? = some u) : s.pc u = .take o :=
  (hok.2.listed u o (List.mem_of_mem_head? hhead)).1

/-! ### All steps -/

theorem Ok.semTake (hok : Ok h s) (hP : Proper s (.semTake u x time place))
    (hs : s.call u (s.semTake u x time place) = some s') : Ok ((s, .semTake u x time place) :: h) s' := by
  refine ⟨fun t => step_semTake hok.1 hP hs, ?_⟩
  obtain ⟨-, hawake, rfl⟩ := call_some hs
  unfold WaitState.semTake
  split_ifs
  · exact hok.2.outside (u := u) hawake rfl (fun _ _ => rfl) fun _ _ => rfl
  · exact hok.2
  · exact hok.2.suspendOn hawake

theorem Ok.mutexTake (hok : Ok h s) (hP : Proper s (.mutexTake u m time place))
    (hs : s.call u (s.mutexTake u m time place) = some s') : Ok ((s, .mutexTake u m time place) :: h) s' := by
  refine ⟨fun t => step_mutexTake hok.1 hP hs, ?_⟩
  obtain ⟨-, hawake, rfl⟩ := call_some hs
  unfold WaitState.mutexTake
  dsimp only
  have hsame : ListOk { s with error := Function.update s.error u rtEok } :=
    hok.2.outside (u := u) hawake rfl (fun _ _ => rfl) fun _ _ => rfl
  split_ifs
  · exact hok.2.outside (u := u) hawake rfl (fun _ _ => rfl) fun _ _ => rfl
  · exact hsame
  · exact hok.2.outside (u := u) hawake rfl (fun _ _ => rfl) fun _ _ => rfl
  · exact hok.2.outside (u := u) hawake rfl (fun _ _ => rfl) fun _ _ => rfl
  · exact hok.2.outside (u := u) hawake rfl (fun _ _ => rfl) fun _ _ => rfl
  · exact hsame.suspendOn hawake

theorem Ok.block (hok : Ok h s) (hP : Proper s (.block u i time place))
    (hs : s.call u (s.block u i time place) = some s') : Ok ((s, .block u i time place) :: h) s' := by
  refine ⟨fun t => step_block hok.1 hP hs, ?_⟩
  obtain ⟨-, hawake, rfl⟩ := call_some hs
  unfold WaitState.block
  split_ifs
  · exact hok.2
  · exact hok.2.suspendOn hawake

omit [DecidableEq κ] [DecidableEq σ] [DecidableEq μ] [DecidableEq ι] in
/-- A call on another kernel object resumes a thread that waits for it. -/
theorem Ok.serve (hok : Ok h s) (hmem : u ∈ s.suspendThread (.other i)) : Ok ((s, .serve i u) :: h) (s.resume u) := by
  refine ⟨fun t => ?_, hok.2.resume⟩
  refine step_release (u := u) hok.1 (resume_frame s u).1 (resume_frame s u).2.1 (resume_frame s u).2.2
    (fun _ => resume_other) (fun o ho _ => ?_) fun _ ht => ht
  have hpc := (hok.2.listed u (.other i) hmem).1
  rw [ho] at hpc
  exact ⟨ThreadPc.take.inj hpc, rfl⟩

omit [DecidableEq κ] [DecidableEq μ] [DecidableEq ι] in
theorem Ok.semRelease (hok : Ok h s) : Ok ((s, .semRelease x) :: h) (s.semRelease x) := by
  have htakes : ∀ t, ¬ takes t s (.semRelease x) := fun _ he => he
  unfold WaitState.semRelease
  cases hlist : s.suspendThread (.sem x) with
  | nil =>
    dsimp only
    have hsame : ∀ t, ThreadOk ((s, .semRelease x) :: h) s t := fun t =>
      (hok.1 t).other rfl (fun hr => hr) rfl rfl (htakes t)
    split_ifs
    · exact ⟨fun t => (hok.1 t).other rfl (fun hr => hr) rfl rfl (htakes t), hok.2.listed, hok.2.nodup⟩
    · exact ⟨hsame, hok.2⟩
  | cons u rest =>
    dsimp only
    obtain ⟨hqueue, hpc, herror⟩ := resume_frame s u
    have hhead : (s.suspendThread (.sem x)).head? = some u := by
      rw [hlist]
      rfl
    refine ⟨fun t => ?_, hok.2.resume⟩
    apply step_release (u := u) hok.1 hqueue hpc herror (fun _ => resume_other) _ htakes
    intro o ho _
    rw [head_take hok hhead] at ho
    obtain rfl := ThreadPc.take.inj ho
    exact ⟨rfl, hhead⟩

theorem Ok.mutexRelease (hok : Ok h s) (hs : s.call u (s.mutexRelease u m) = some s') :
    Ok ((s, .mutexRelease u m) :: h) s' := by
  obtain ⟨hrun, hawake, rfl⟩ := call_some hs
  have htakes : ∀ t, ¬ takes t s (.mutexRelease u m) := fun _ he => he
  have hstay : ∀ o, s.pc u ≠ .take o := by
    intro o
    rw [hrun]
    exact fun he => by contradiction
  have hcount : ∀ y, Ok ((s, .mutexRelease u m) :: h) { s with mutex := Function.update s.mutex m y } := fun y =>
    ⟨fun t => (hok.1 t).other rfl (fun hr => hr) rfl rfl (htakes t), hok.2.listed, hok.2.nodup⟩
  unfold WaitState.mutexRelease
  dsimp only
  by_cases howner : (s.mutex m).owner = some u
  swap
  · rw [if_neg howner]
    exact hok.outside (u := u) hawake rfl (fun _ _ => rfl) hstay (fun _ _ hr => hr) (fun _ _ => rfl)
      (fun t ht => Function.update_of_ne ht _ _) fun t ht => absurd ht (htakes t)
  rw [if_pos howner]
  by_cases hhold : (s.mutex m).hold - 1 = 0
  swap
  · rw [if_neg hhold]
    exact hcount _
  rw [if_pos hhold]
  cases hlist : s.suspendThread (.mutex m) with
  | nil =>
    dsimp only
    split_ifs
    · exact hcount _
    · exact hcount _
  | cons v rest =>
    dsimp only
    have hhead : (s.suspendThread (.mutex m)).head? = some v := by
      rw [hlist]
      rfl
    refine ⟨fun t => ?_, ListOk.resume ⟨hok.2.listed, hok.2.nodup⟩⟩
    refine step_release (u := v) hok.1 ?_ ?_ ?_ ?_ ?_ htakes
    · exact (resume_frame _ v).1
    · exact (resume_frame _ v).2.1
    · exact (resume_frame _ v).2.2
    · exact fun _ => resume_other
    intro o ho _
    rw [head_take hok hhead] at ho
    obtain rfl := ThreadPc.take.inj ho
    exact ⟨rfl, hhead, howner, hhold⟩

omit [DecidableEq τ] [DecidableEq σ] [DecidableEq μ] [DecidableEq ι] in
theorem registered_add {e : RtWqueueNode τ} (he : e.pollingThread ≠ t)
    (hreg : (s.setQueue q ((s.queue q).add e)).Registered t) : s.Registered t := by
  refine registered_setQueue ?_ hreg
  intro e' hmem ht
  rcases List.mem_append.mp hmem with hmem | hmem
  · exact hmem
  · rw [List.mem_singleton.mp hmem] at ht
    exact absurd ht he

omit [DecidableEq σ] [DecidableEq μ] [DecidableEq ι] in
theorem registered_remove {e : RtWqueueNode τ} {flag : Bool}
    (hreg : (s.setQueue q (RtWqueue.remove { s.queue q with flag := flag } e)).Registered t) : s.Registered t :=
  registered_setQueue (fun _ hmem _ => List.mem_of_mem_erase hmem) hreg

omit [DecidableEq τ] [DecidableEq σ] [DecidableEq μ] [DecidableEq ι] in
theorem registered_flag {flag : Bool} (hreg : (s.setQueue q { s.queue q with flag := flag }).Registered t) :
    s.Registered t := by
  refine registered_setQueue ?_ hreg
  exact fun _ hmem _ => hmem

theorem Ok.wait (hok : Ok h s) (hs : s.call u (s.wait u q tick) = some s') : Ok ((s, .wait u q tick) :: h) s' := by
  obtain ⟨hrun, hawake, rfl⟩ := call_some hs
  have htakes : ∀ t, ¬ takes t s (.wait u q tick) := fun _ he => he
  have hu : ∀ t, takes t s (.wait u q tick) → t = u := fun t ht => absurd ht (htakes t)
  unfold WaitState.wait
  split_ifs
  · exact hok.outside (u := u) hawake rfl (fun _ _ => rfl) (fun o ho => by rw [hrun] at ho; contradiction)
      (fun _ _ hr => hr) (fun _ _ => rfl) (fun _ _ => rfl) hu
  · refine hok.outside (u := u) hawake rfl (fun t ht => Function.update_of_ne ht _ _) ?_
      (fun _ _ hr => registered_flag hr) (fun _ _ => rfl) (fun _ _ => rfl) hu
    intro o ho
    rw [setPc_self] at ho
    contradiction
  · refine hok.outside (u := u) hawake rfl (fun t ht => Function.update_of_ne ht _ _) ?_ ?_
      (fun t ht => Function.update_of_ne ht _ _) (fun _ _ => rfl) hu
    · intro o ho
      rw [suspend_pc] at ho
      contradiction
    · intro t ht hr
      exact registered_add (e := WaitState.waitNode u) (fun he => ht he.symm) hr

theorem Ok.pollInit (hok : Ok h s)
    (hs : s.call u { s with triggered := Function.update s.triggered u false } = some s') :
    Ok ((s, .pollInit u) :: h) s' := by
  obtain ⟨-, -, rfl⟩ := call_some hs
  exact ⟨fun t => (hok.1 t).other rfl (fun hr => hr) rfl rfl fun ht => ht, hok.2.listed, hok.2.nodup⟩

theorem Ok.pollAdd (hok : Ok h s) (hs : s.call u (s.setQueue q ((s.queue q).add ⟨u, true, key⟩)) = some s') :
    Ok ((s, .pollAdd u q key) :: h) s' := by
  obtain ⟨hrun, hawake, rfl⟩ := call_some hs
  refine hok.outside (u := u) hawake rfl (fun _ _ => rfl) ?_ ?_ (fun _ _ => rfl) (fun _ _ => rfl)
    fun t ht => False.elim ht
  · intro o ho
    rw [show s.pc u = .take o from ho] at hrun
    contradiction
  · intro t ht hr
    exact registered_add (fun he => ht he.symm) hr

theorem Ok.pollRemove (hok : Ok h s) (hs : s.call u (s.setQueue q ((s.queue q).remove ⟨u, true, key⟩)) = some s') :
    Ok ((s, .pollRemove u q key) :: h) s' := by
  obtain ⟨hrun, hawake, rfl⟩ := call_some hs
  refine hok.outside (u := u) hawake rfl (fun _ _ => rfl) ?_ (fun t _ hr => registered_remove hr) (fun _ _ => rfl)
    (fun _ _ => rfl) fun t ht => False.elim ht
  intro o ho
  rw [show s.pc u = .take o from ho] at hrun
  contradiction

theorem Ok.pollWait (hok : Ok h s) (hs : s.call u (s.pollWaitTimeout u time) = some s') :
    Ok ((s, .pollWait u time) :: h) s' := by
  obtain ⟨hrun, hawake, rfl⟩ := call_some hs
  unfold WaitState.pollWaitTimeout
  split_ifs
  · refine hok.outside (u := u) hawake rfl (fun t ht => Function.update_of_ne ht _ _) ?_ (fun _ _ hr => hr)
      (fun t ht => Function.update_of_ne ht _ _) (fun _ _ => rfl) fun t ht => False.elim ht
    intro o ho
    rw [suspend_pc] at ho
    contradiction
  · exact ⟨fun t => (hok.1 t).other rfl (fun hr => hr) rfl rfl fun ht => ht, hok.2⟩

omit [DecidableEq σ] [DecidableEq μ] [DecidableEq ι] in
theorem wakeup_frame (s : WaitState τ κ σ μ ι) (q : κ) (key : UInt32) :
    (s.wakeup q key).pc = s.pc ∧ (s.wakeup q key).error = s.error ∧
      ∀ t, (s.wakeup q key).Registered t → s.Registered t := by
  unfold WaitState.wakeup
  dsimp only
  cases hfirst : (s.queue q).first key with
  | none => exact ⟨rfl, rfl, fun t hr => registered_flag hr⟩
  | some e =>
    dsimp only
    have hsub : ∀ s' : WaitState τ κ σ μ ι, s'.queue = s.queue →
        ∀ t, (s'.setQueue q (RtWqueue.remove { s.queue q with flag := true } e)).Registered t → s.Registered t := by
      intro s' hqueue t hr
      refine (registered_congr hqueue).mp (registered_setQueue ?_ hr)
      intro e' hmem _
      rw [hqueue]
      exact List.mem_of_mem_erase hmem
    split_ifs
    · exact ⟨(resume_frame _ _).2.1, (resume_frame _ _).2.2, hsub _ (resume_frame _ _).1⟩
    · exact ⟨(resume_frame _ _).2.1, (resume_frame _ _).2.2, hsub _ (resume_frame _ _).1⟩

omit [DecidableEq σ] [DecidableEq μ] [DecidableEq ι] in
/-- A wake-up resumes the thread of the first entry that accepts it, if there is one. -/
theorem wakeup_suspended (hne : ∀ e, (s.queue q).first key = some e → e.pollingThread ≠ t) :
    (s.wakeup q key).suspended t = s.suspended t := by
  unfold WaitState.wakeup
  dsimp only
  cases hfirst : (s.queue q).first key with
  | none => rfl
  | some e =>
    dsimp only
    have ht : t ≠ e.pollingThread := (hne e hfirst).symm
    split_ifs
    · exact resume_other ht
    · exact resume_other ht

omit [DecidableEq σ] [DecidableEq μ] [DecidableEq ι] in
theorem ListOk.wakeup (hok : ListOk s) : ListOk (s.wakeup q key) := by
  unfold WaitState.wakeup
  dsimp only
  cases (s.queue q).first key with
  | none => exact ⟨hok.listed, hok.nodup⟩
  | some e =>
    dsimp only
    split_ifs
    · have hsame : ListOk { s with triggered := Function.update s.triggered e.pollingThread true } :=
        ⟨hok.listed, hok.nodup⟩
      exact ⟨hsame.resume.listed, hsame.resume.nodup⟩
    · exact ⟨hok.resume.listed, hok.resume.nodup⟩

omit [DecidableEq τ] [DecidableEq κ] [DecidableEq σ] [DecidableEq μ] [DecidableEq ι] in
theorem ThreadOk.not_first {e : RtWqueueNode τ} (hok : ThreadOk h s t) (ht : s.pc t = .take o)
    (he : (s.queue q).first key = some e) : e.pollingThread ≠ t := by
  rintro rfl
  exact (hok o ht).1 ⟨q, e, List.mem_of_find?_eq_some he, rfl⟩

omit [DecidableEq σ] [DecidableEq μ] [DecidableEq ι] in
theorem Ok.wakeup (hok : Ok h s) : Ok ((s, .wakeup q key) :: h) (s.wakeup q key) := by
  obtain ⟨hpc, herror, hreg⟩ := wakeup_frame s q key
  refine ⟨fun t => ?_, hok.2.wakeup⟩
  apply (hok.1 t).keep (congrFun hpc t) (hreg t)
  · intro o ho hs
    left
    rw [wakeup_suspended fun e he => (hok.1 t).not_first ho he]
    exact hs
  · rw [herror]
    exact fun he => he
  · exact fun _ _ ht => ht

omit [DecidableEq κ] [DecidableEq σ] [DecidableEq μ] [DecidableEq ι] in
theorem Ok.timeout (hok : Ok h s) : Ok ((s, .timeout u) :: h) (s.timeout u) := by
  have hpc : (s.timeout u).pc = s.pc := (resume_frame s u).2.1
  refine ⟨fun t => ?_, hok.2.resume.listed, hok.2.resume.nodup⟩
  apply (hok.1 t).keep (congrFun hpc t) (registered_congr (resume_frame s u).1).mp
  · intro o _ hs
    by_cases ht : t = u
    · subst ht
      right
      left
      rw [show (s.timeout t).error t = rtEtimeout from Function.update_self _ _ _]
      decide
    · exact .inl ((resume_other ht).trans hs)
  · intro he
    by_cases ht : t = u
    · subst ht
      rw [show (s.timeout t).error t = rtEtimeout from Function.update_self _ _ _]
      decide
    · rwa [show (s.timeout u).error t = s.error t from Function.update_of_ne ht _ _]
  · exact fun _ _ ht => ht

omit [DecidableEq σ] [DecidableEq μ] [DecidableEq ι] in
theorem Ok.goOn (hok : Ok h s) (hs : s.goOn u = some s') : Ok ((s, .goOn u) :: h) s' := by
  unfold WaitState.goOn at hs
  split_ifs at hs with hsus
  have hawake : s.suspended u = false := by simpa using hsus
  cases hpc : s.pc u with
  | run =>
    rw [hpc] at hs
    contradiction
  | take o | pollWait =>
    rw [hpc] at hs
    obtain rfl := Option.some.inj hs
    refine hok.outside (u := u) hawake rfl (fun t ht => Function.update_of_ne ht _ _) ?_ (fun _ _ hr => hr)
      (fun _ _ => rfl) (fun _ _ => rfl) fun t ht => False.elim ht
    intro o ho
    rw [setPc_self] at ho
    contradiction
  | wait q =>
    rw [hpc] at hs
    obtain rfl := Option.some.inj hs
    refine hok.outside (u := u) hawake rfl (fun t ht => Function.update_of_ne ht _ _) ?_
      (fun _ _ hr => registered_flag hr) (fun _ _ => rfl) (fun _ _ => rfl) fun t ht => False.elim ht
    intro o ho
    rw [setPc_self] at ho
    contradiction
  | waited q =>
    rw [hpc] at hs
    obtain rfl := Option.some.inj hs
    refine hok.outside (u := u) hawake rfl (fun t ht => Function.update_of_ne ht _ _) ?_
      (fun _ _ hr => registered_remove hr) (fun _ _ => rfl) (fun _ _ => rfl) fun t ht => False.elim ht
    intro o ho
    rw [setPc_self] at ho
    contradiction

/-! ### The runs -/

theorem step_ok (hok : Ok h s) (hP : Proper s a) (hs : waitStep s a = some s') : Ok ((s, a) :: h) s' := by
  cases a with
  | semTake t x time place => exact hok.semTake hP hs
  | mutexTake t m time place => exact hok.mutexTake hP hs
  | block t i time place => exact hok.block hP hs
  | serve i t =>
    obtain ⟨hmem, hs⟩ := Option.ite_none_right_eq_some.mp hs
    obtain rfl := Option.some.inj hs
    exact hok.serve hmem
  | semRelease x =>
    obtain rfl := Option.some.inj hs
    exact hok.semRelease
  | mutexRelease t m => exact hok.mutexRelease hs
  | wait t q tick => exact hok.wait hs
  | pollInit t => exact hok.pollInit hs
  | pollAdd t q key => exact hok.pollAdd hs
  | pollWait t timeout => exact hok.pollWait hs
  | pollRemove t q key => exact hok.pollRemove hs
  | wakeup q key =>
    obtain rfl := Option.some.inj hs
    exact hok.wakeup
  | timeout t =>
    obtain ⟨-, hs⟩ := Option.ite_none_right_eq_some.mp hs
    obtain rfl := Option.some.inj hs
    exact hok.timeout
  | goOn t => exact hok.goOn hs

theorem ok_run (hrun : (waitQueues τ κ σ μ ι).Run h s) (hP : Throughout (fun _ s a => Proper s a) h) : Ok h s := by
  refine hrun.invariant ?_ (fun _ _ _ _ _ hok hP hs => step_ok hok hP hs) hP
  rintro s ⟨-, hlist, hthreads⟩
  refine ⟨fun t => ThreadOk.of_pc fun o ho => ?_, ?_, ?_⟩
  · rw [(hthreads t).2.2] at ho
    contradiction
  · intro t o ht
    rw [hlist o] at ht
    contradiction
  · intro o
    rw [hlist o]
    exact List.nodup_nil

/-! ### Two runs -/

instance (s : WaitState τ κ σ μ ι) (t : τ) (a : WaitAction τ κ σ μ ι) : Decidable (wakes s t a) := by
  cases a
  all_goals
    unfold wakes
    infer_instance

instance (o : KernelObject σ μ ι) (t : τ) (s : WaitState τ κ σ μ ι) (a : WaitAction τ κ σ μ ι) :
    Decidable (grants o t s a) := by
  cases a
  all_goals
    unfold grants
    infer_instance

instance (t : τ) (s : WaitState τ κ σ μ ι) (a : WaitAction τ κ σ μ ι) : Decidable (takes t s a) := by
  cases a
  all_goals
    unfold takes
    infer_instance

instance (o : KernelObject σ μ ι) (t : τ) (s : WaitState τ κ σ μ ι) (a : WaitAction τ κ σ μ ι) :
    Decidable (succeeds o t s a) := by
  unfold succeeds
  infer_instance

instance [Fintype κ] (s : WaitState τ κ σ μ ι) (t : τ) : Decidable (s.Registered t) := by
  unfold WaitState.Registered
  infer_instance

instance [Fintype κ] (s : WaitState τ κ σ μ ι) (a : WaitAction τ κ σ μ ι) : Decidable (Proper s a) := by
  cases a
  all_goals
    unfold Proper
    infer_instance

/-- Semaphore 0 has the value 1, as the one of the heap. -/
def oneToken : WaitState (Fin 2) (Fin 1) (Fin 1) (Fin 1) (Fin 1) :=
  ⟨fun _ => rtWqueueInit, fun _ => 1, fun _ => ⟨1, 0, none⟩, fun _ => [], fun _ => false, fun _ => rtEok,
    fun _ => false, fun _ => false, fun _ => .run⟩

theorem init_oneToken : (waitQueues (Fin 2) (Fin 1) (Fin 1) (Fin 1) (Fin 1)).init oneToken :=
  ⟨fun _ => rfl, fun _ => rfl, fun _ => ⟨rfl, rfl, rfl⟩⟩

/-- A `poll` has been registered for its first descriptor, and `rt_malloc` for the second one waits for the semaphore of
the heap, which another thread has. The next wake-up resumes the thread, and its take returns `RT_EOK` while the other
thread has the semaphore. -/
theorem wakeup_hits_a_take :
    (∃ h s, (waitQueues (Fin 2) (Fin 1) (Fin 1) (Fin 1) (Fin 1)).Run h s ∧ wakes s 0 (.wakeup 0 1) ∧
      s.pc 0 = .take (.sem 0)) ∧
    ∃ h s, (waitQueues (Fin 2) (Fin 1) (Fin 1) (Fin 1) (Fin 1)).Run h s ∧ succeeds (.sem 0) 0 s (.goOn 0) ∧
      s.suspended 0 = false ∧ ¬ Since (grants (.sem 0) 0) (takes 0) h := by
  constructor
  · exact System.exists_run init_oneToken [.pollInit 0, .semTake 0 0 (-1) 0, .semRelease 0, .pollAdd 0 0 1,
      .semTake 1 0 (-1) 0, .semTake 0 0 (-1) 0] _ (by decide +kernel)
  · exact System.exists_run init_oneToken [.pollInit 0, .semTake 0 0 (-1) 0, .semRelease 0, .pollAdd 0 0 1,
      .semTake 1 0 (-1) 0, .semTake 0 0 (-1) 0, .wakeup 0 1] _ (by decide +kernel)

/-- If no thread waits for a kernel object while it is registered in a wait queue, a wake-up resumes only
threads in `rt_wqueue_wait` and `poll_wait_timeout`, and a take in which a thread was suspended returns `RT_EOK` only
if the object was given to the thread in this take. -/
theorem wakeups_hit_sleepers (hrun : (waitQueues τ κ σ μ ι).Run h s) (hP : Throughout (fun _ s a => Proper s a) h) :
    Throughout (fun h s a => (∀ t o, wakes s t a → s.pc t ≠ .take o) ∧
      ∀ t o, succeeds o t s a → Since (grants o t) (takes t) h) h := by
  refine hrun.throughout (fun _ _ => ok_run) ?_ hP
  rintro h s a s' - hok - hs
  constructor
  · intro t o hwakes ho
    cases a with
    | wakeup q key =>
      obtain ⟨e, he, ht⟩ := Option.map_eq_some_iff.mp hwakes.1
      exact (hok.1 t).not_first ho he ht
    | _ => exact hwakes
  · rintro t o ⟨rfl, ho, herr⟩
    rcases ((hok.1 t) o ho).2 with hsus | hne | hgranted
    · have hgo : s.goOn t = some s' := hs
      unfold WaitState.goOn at hgo
      rw [if_pos hsus] at hgo
      contradiction
    · exact absurd herr hne
    · exact hgranted

/-- A thread is woken up in `poll_wait_timeout`, and waits for the semaphore behind the end of `poll`. -/
theorem wakeups_hit_sleepers_run : ∃ h s, (waitQueues (Fin 2) (Fin 1) (Fin 1) (Fin 1) (Fin 1)).Run h s ∧
    succeeds (.sem 0) 0 s (.goOn 0) ∧ Throughout (fun h s a => (∀ t o, wakes s t a → s.pc t ≠ .take o) ∧
      ∀ t o, succeeds o t s a → Since (grants o t) (takes t) h) h := by
  obtain ⟨h, s, hrun, hP, hsucceeds⟩ := System.exists_run init_oneToken
    [.pollInit 0, .semTake 0 0 (-1) 0, .semRelease 0, .pollAdd 0 0 1, .pollWait 0 100, .wakeup 0 1, .goOn 0,
      .pollRemove 0 0 1, .semTake 1 0 (-1) 0, .semTake 0 0 (-1) 0, .semRelease 0]
    (fun h s => Throughout (fun _ s a => Proper s a) h ∧ succeeds (.sem 0) 0 s (.goOn 0)) (by decide +kernel)
  exact ⟨h, s, hrun, hsucceeds, wakeups_hit_sleepers hrun hP⟩

end steps

end ThyristorController.WaitQueues
