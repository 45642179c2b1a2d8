import Mathlib.Data.List.Basic
import Mathlib.Data.UInt
import Mathlib.Logic.Function.Basic
import ThyristorController.Drivers.WaitQueue
import ThyristorController.Lib.Run

/-!
# Waiting for descriptors (`components/dfs/src/poll.c`)

One call of `poll` with any descriptors and any timeout. The answers of the drivers and the wait queues in which they
register the call are inputs, as are the wake-ups of the devices, the other entries of the queues and the ticks.

A wake-up sets `triggered`, and nothing clears it: `poll_waits` says that the calling thread sleeps between two scans
unless it has been woken up since, and that it returns when its time is over, when every scan that begins behind a
wake-up finds something ready, or is followed by another wake-up before its time is over.
-/

namespace ThyristorController.Polls

open Transition
open WaitQueues (RtWqueue RtWqueueNode)

/-- `POLLIN`, `POLLOUT`, `POLLERR`, `POLLHUP` and `POLLNVAL`. -/
def pollin : UInt32 := 1
def pollout : UInt32 := 2
def pollerr : UInt32 := 4
def pollhup : UInt32 := 8
def pollnval : UInt32 := 16

/-- `POLLMASK_DEFAULT`. -/
def pollmaskDefault : UInt32 := pollin ||| pollout

/-- `RT_TICK_PER_SECOND`. -/
def rtTickPerSecond : Int := 1000

/-- `rt_tick_from_millisecond`. -/
def rtTickFromMillisecond (ms : Int) : Int :=
  if ms < 0 then -1 else rtTickPerSecond * (ms / 1000) + (rtTickPerSecond * (ms % 1000) + 999) / 1000

/-! ## The functions -/

/-- `struct pollfd` without `revents`. -/
structure Pollfd where
  fd : Int
  events : UInt32

/-- What is found for a descriptor: it is not open, its file system has no `poll`, or what that returns. -/
inductive Answer where
  | closed
  | noPoll
  | poll (mask : Int)
  deriving DecidableEq

/-- `req->_key` of a descriptor. -/
def Pollfd.key (pollfd : Pollfd) : UInt32 := pollfd.events ||| pollerr ||| pollhup

/-- The result of `do_pollfd`, an error of the driver or the mask. -/
def doPollfd (pollfd : Pollfd) (a : Answer) : Except Int UInt32 :=
  if pollfd.fd < 0 then .ok 0
  else
    match a with
    | .closed => .ok pollnval
    | .noPoll => .ok (pollmaskDefault &&& pollfd.key)
    | .poll mask => if mask < 0 then .error mask else .ok (UInt32.ofNat mask.toNat &&& pollfd.key)

/-- Where the calling thread is: at the head of the loop of `poll_do`, before the descriptor `n` with `num` of them
ready, before the critical section of `poll_wait_timeout`, behind `rt_schedule`, in `poll_teardown`, or out of the
call. -/
inductive PollPc where
  | loop (istimeout : Bool)
  | scan (n num : Nat) (istimeout : Bool)
  | wait
  | sleep
  | teardown (num : Int)
  | returned (num : Int)
  deriving DecidableEq

/-- The poll table, the wait queues and the calling thread. `proc` is whether `req._proc` is `_poll_add`, `timer` the
time at which the thread's timer expires if it runs, `start` the time of the call. -/
structure PollState (τ κ : Type) where
  queue : κ → RtWqueue τ
  now : Nat
  start : Nat
  proc : Bool
  triggered : Bool
  nodes : List (κ × RtWqueueNode τ)
  suspended : Bool
  timer : Option Nat
  revents : Nat → UInt32
  pc : PollPc

variable {τ κ : Type} [DecidableEq τ] [DecidableEq κ]

namespace PollState

def setQueue (s : PollState τ κ) (q : κ) (x : RtWqueue τ) : PollState τ κ :=
  { s with queue := Function.update s.queue q x }

/-- `rt_thread_resume` of the calling thread. -/
def resume (s : PollState τ κ) : PollState τ κ :=
  if s.suspended then { s with suspended := false, timer := none } else s

/-- `rt_poll_add` for a descriptor; `ok` is whether there is memory for an entry. -/
def pollAdd (thread : τ) (s : PollState τ κ) (q : κ) (key : UInt32) (ok : Bool) : PollState τ κ :=
  if s.proc && ok then
    { s with nodes := (q, ⟨thread, true, key⟩) :: s.nodes }.setQueue q ((s.queue q).add ⟨thread, true, key⟩)
  else s

/-- `rt_wqueue_wakeup`. -/
def wakeup (thread : τ) (s : PollState τ κ) (q : κ) (key : UInt32) : PollState τ κ :=
  let x := s.queue q
  match x.first key with
  | none => s.setQueue q { x with flag := true }
  | some e =>
    (if e.pollingThread = thread then { s.resume with triggered := true } else s).setQueue q
      ({ x with flag := true }.remove e)

/-- What the loop of `poll_do` does with the result for descriptor `n`. -/
def answer (s : PollState τ κ) (n num : Nat) (istimeout : Bool) : Except Int UInt32 → PollState τ κ
  | .error ret => { s with revents := Function.update s.revents n 0, proc := false, pc := .teardown ret }
  | .ok mask =>
    let s := { s with revents := Function.update s.revents n mask }
    if mask = 0 then { s with pc := .scan (n + 1) num istimeout }
    else { s with proc := false, pc := .scan (n + 1) (num + 1) istimeout }

/-- `poll_wait_timeout`, up to `rt_schedule` or to the end. -/
def waitTimeout (s : PollState τ κ) (msec : Int) : PollState τ κ :=
  let timeout := rtTickFromMillisecond msec
  if timeout ≠ 0 ∧ s.triggered = false then
    { s with
      suspended := true
      timer := if 0 < timeout then some (s.now + timeout.toNat) else none
      pc := .sleep }
  else { s with pc := .loop (!s.triggered) }

/-- The next step of the calling thread, but for the calls of the drivers. -/
def goOn (fds : List Pollfd) (msec : Int) (s : PollState τ κ) : Option (PollState τ κ) :=
  match s.pc with
  | .loop istimeout => some { s with pc := .scan 0 0 istimeout }
  | .scan n num istimeout =>
    if n < fds.length then none
    else some { s with proc := false, pc := if num ≠ 0 ∨ istimeout then .teardown num else .wait }
  | .wait => some (s.waitTimeout msec)
  | .sleep => if s.suspended then none else some { s with pc := .loop (!s.triggered) }
  | .teardown num =>
    match s.nodes with
    | [] => some { s with pc := .returned num }
    | (q, e) :: nodes => some ({ s with nodes := nodes }.setQueue q ((s.queue q).remove e))
  | .returned _ => none

/-- The descriptor whose turn it is, when it is not negative. -/
def polled (fds : List Pollfd) (s : PollState τ κ) : Option Pollfd :=
  match s.pc with
  | .scan n _ _ => (fds[n]?).filter (0 ≤ ·.fd)
  | _ => none

end PollState

/-- A step of the calling thread: a driver registers the call in a queue, or the result for a descriptor is there; or
of the environment. -/
inductive PollAction (τ κ : Type) where
  | goOn
  | pollAdd (q : κ) (ok : Bool)
  | answer (a : Answer)
  | wakeup (q : κ) (key : UInt32)
  | add (q : κ) (e : RtWqueueNode τ)
  | remove (q : κ) (e : RtWqueueNode τ)
  | tick
  | timeout
  deriving DecidableEq

def pollStep (thread : τ) (fds : List Pollfd) (msec : Int) (s : PollState τ κ) : PollAction τ κ → Option (PollState τ κ)
  | .goOn => s.goOn fds msec
  | .pollAdd q ok => (s.polled fds).map fun pollfd => s.pollAdd thread q pollfd.key ok
  | .answer a =>
    match s.pc with
    | .scan n num istimeout => (fds[n]?).map fun pollfd => s.answer n num istimeout (doPollfd pollfd a)
    | _ => none
  | .wakeup q key => some (s.wakeup thread q key)
  | .add q e =>
    if e.pollingThread ≠ thread then some (s.setQueue q ((s.queue q).add e)) else none
  | .remove q e =>
    if e.pollingThread ≠ thread then some (s.setQueue q ((s.queue q).remove e)) else none
  | .tick => some { s with now := s.now + 1 }
  | .timeout => if s.timer.any (· ≤ s.now) then some s.resume else none

/-- A call of `poll`, behind `poll_table_init` and the test of `msec`. -/
def polls (κ : Type) [DecidableEq κ] (thread : τ) (fds : List Pollfd) (msec : Int) :
    System (PollState τ κ) (PollAction τ κ) where
  init s := (∀ q, ∀ e ∈ (s.queue q).waitingList, e.pollingThread ≠ thread) ∧ s.start = s.now ∧
    s.proc = decide (msec ≠ 0) ∧ s.triggered = false ∧ s.nodes = [] ∧ s.suspended = false ∧ s.timer = none ∧
    s.pc = .loop (decide (msec = 0))
  step := pollStep thread fds msec

/-! ## Scans and wake-ups of a run -/

def PollPc.isLoop : PollPc → Bool
  | .loop _ => true
  | _ => false

/-- The thread has looked at all descriptors, and none is ready. -/
def PollPc.scannedNone (fds : List Pollfd) : PollPc → Bool
  | .scan n num _ => fds.length ≤ n && num = 0
  | _ => false

/-- The step begins a scan of the descriptors. -/
def ScanBegins (s : PollState τ κ) (a : PollAction τ κ) : Prop := a = .goOn ∧ s.pc.isLoop = true

/-- The step ends a scan that has found nothing ready. -/
def FindsNothing (fds : List Pollfd) (s : PollState τ κ) (a : PollAction τ κ) : Prop :=
  a = .goOn ∧ s.pc.scannedNone fds = true

/-- The step is a wake-up of a queue in which the call has been registered, for an event that it waits for. -/
def WakesUp (s : PollState τ κ) : PollAction τ κ → Prop
  | .wakeup q key => ∃ node ∈ s.nodes, node.1 = q ∧ node.2.accepts key = true
  | _ => False

/-- The step suspends the calling thread. -/
def Suspends (msec : Int) (s : PollState τ κ) (a : PollAction τ κ) : Prop :=
  a = .goOn ∧ s.pc = .wait ∧ rtTickFromMillisecond msec ≠ 0 ∧ s.triggered = false

/-- The time of the call is over. -/
def PollState.Elapsed (msec : Int) (s : PollState τ κ) : Prop :=
  0 ≤ msec ∧ (s.start : Int) + rtTickFromMillisecond msec ≤ s.now

/-- The last scan began in a state with `P`. -/
def Began (P : PollState τ κ → Prop) (h : History (PollState τ κ) (PollAction τ κ)) : Prop :=
  Since (fun s a => ScanBegins s a ∧ P s) ScanBegins h

/-- A scan that finds nothing has not begun behind a wake-up, or as the first scan, when the time was over; and if it
has begun behind a wake-up, there has been another one before `poll_wait_timeout` tests `triggered`. -/
def Proper (fds : List Pollfd) (msec : Int) (h : History (PollState τ κ) (PollAction τ κ)) (s : PollState τ κ)
    (a : PollAction τ κ) : Prop :=
  (FindsNothing fds s a → ¬ Began (fun s => s.Elapsed msec ∧ (s.triggered = true ∨ s.proc = true)) h) ∧
    (a = .goOn ∧ s.pc = .wait → Began (fun s => s.triggered = true) h → Since WakesUp ScanBegins h)

/-! ## The invariant -/

/-- The thread is in `poll_do`. -/
def PollPc.running : PollPc → Bool
  | .teardown _ | .returned _ => false
  | _ => true

/-- The thread is in `poll_do`, and has not been told that its time is over. -/
def PollPc.patient : PollPc → Bool
  | .loop istimeout | .scan _ _ istimeout => !istimeout
  | .wait | .sleep => true
  | _ => false

/-- What has been seen since the last scan began. -/
structure Ok (thread : τ) (msec : Int) (h : History (PollState τ κ) (PollAction τ κ)) (s : PollState τ κ) : Prop where
  own : s.pc.running = true → ∀ q, ∀ e ∈ (s.queue q).waitingList, e.pollingThread = thread → (q, e) ∈ s.nodes
  woken : s.triggered = true → Began (fun s => s.triggered = true) h ∨ Since WakesUp ScanBegins h ∨
    s.pc.running = false
  slept : s.pc = .sleep → Since (Suspends msec) ScanBegins h
  again : s.pc.isLoop = true → (∃ e ∈ h, ScanBegins e.1 e.2) →
    Since (fun s a => Suspends msec s a ∨ WakesUp s a) ScanBegins h
  loop : s.pc = .loop false → s.triggered = true ∨ s.proc = true
  scan : ∀ n num, s.pc = .scan n num false → Began (fun s => s.triggered = true ∨ s.proc = true) h
  patient : s.pc.patient = true → msec ≠ 0

section steps

variable {thread : τ} {fds : List Pollfd} {msec : Int} {s s' : PollState τ κ} {a : PollAction τ κ} {q : κ}
  {key : UInt32} {h : History (PollState τ κ) (PollAction τ κ)} {p p' : PollState τ κ → PollAction τ κ → Prop}

theorem rtTickFromMillisecond_ne_zero (hmsec : msec ≠ 0) : rtTickFromMillisecond msec ≠ 0 := by
  unfold rtTickFromMillisecond rtTickPerSecond
  split_ifs with hneg
  · decide
  · omega

omit [DecidableEq τ] [DecidableEq κ] in
theorem since_keep (hnot : ¬ ScanBegins s a) (hsince : Since p ScanBegins h) : Since p ScanBegins ((s, a) :: h) :=
  .inr ⟨hnot, hsince⟩

omit [DecidableEq τ] [DecidableEq κ] in
theorem since_mono (himp : ∀ s a, p s a → p' s a) (hsince : Since p ScanBegins h) : Since p' ScanBegins h := by
  induction h with
  | nil => exact hsince
  | cons e h ih =>
    rcases hsince with hp | ⟨hnot, hsince⟩
    · exact .inl (himp _ _ hp)
    · exact .inr ⟨hnot, ih hsince⟩

omit [DecidableEq τ] [DecidableEq κ] in
theorem began_and {P Q : PollState τ κ → Prop} (hP : Began P h) (hQ : Began Q h) : Began (fun s => P s ∧ Q s) h := by
  induction h with
  | nil => exact hP
  | cons e h ih =>
    rcases hP with ⟨hb, hP⟩ | ⟨hnot, hP⟩
    · rcases hQ with ⟨-, hQ⟩ | ⟨hnot, -⟩
      · exact .inl ⟨hb, hP, hQ⟩
      · exact absurd hb hnot
    · rcases hQ with ⟨hb, -⟩ | ⟨-, hQ⟩
      · exact absurd hb hnot
      · exact .inr ⟨hnot, ih hP hQ⟩

omit [DecidableEq τ] [DecidableEq κ] in
theorem not_scanBegins_of_ne (ha : a ≠ .goOn) : ¬ ScanBegins s a := fun hb => ha hb.1

omit [DecidableEq τ] [DecidableEq κ] in
theorem not_scanBegins_of_pc (hpc : s.pc.isLoop = false) : ¬ ScanBegins s a := by
  intro hb
  have hloop := hb.2
  rw [hpc] at hloop
  contradiction

omit [DecidableEq τ] [DecidableEq κ] in
/-- A step that is not one of the thread's own, or one of a scan: the thread stays where it is, and `triggered` is set
only by a wake-up. -/
theorem Ok.keep (hok : Ok thread msec h s) (ha : a ≠ .goOn) (hpc : s'.pc = s.pc) (hproc : s'.proc = s.proc)
    (htriggered : s'.triggered = s.triggered ∨ s'.triggered = true ∧ (s.pc.running = true → WakesUp s a))
    (hown : s.pc.running = true → ∀ q, ∀ e ∈ (s'.queue q).waitingList, e.pollingThread = thread → (q, e) ∈ s'.nodes) :
    Ok thread msec ((s, a) :: h) s' := by
  have hnot : ¬ ScanBegins s a := not_scanBegins_of_ne ha
  constructor
  · rw [hpc]
    exact hown
  · intro ht
    rw [hpc]
    rcases htriggered with hsame | ⟨-, hwakes⟩
    · rw [hsame] at ht
      rcases hok.woken ht with hb | hw | hr
      · exact .inl (since_keep hnot hb)
      · exact .inr (.inl (since_keep hnot hw))
      · exact .inr (.inr hr)
    · cases hr : s.pc.running with
      | true => exact .inr (.inl (.inl (hwakes hr)))
      | false => exact .inr (.inr rfl)
  · rw [hpc]
    exact fun hs => since_keep hnot (hok.slept hs)
  · rw [hpc]
    rintro hloop ⟨e, he, hb⟩
    rcases List.mem_cons.mp he with rfl | he
    · exact absurd hb hnot
    · exact since_keep hnot (hok.again hloop ⟨e, he, hb⟩)
  · rw [hpc, hproc]
    intro hloop
    rcases htriggered with hsame | ⟨ht, -⟩
    · rw [hsame]
      exact hok.loop hloop
    · exact .inl ht
  · rw [hpc]
    exact fun n num hs => since_keep hnot (hok.scan n num hs)
  · rw [hpc]
    exact hok.patient

/-! ### The environment -/

omit [DecidableEq τ] in
theorem mem_setQueue {x : RtWqueue τ} {q' : κ} {e : RtWqueueNode τ} (he : e ∈ ((s.setQueue q x).queue q').waitingList) :
    (q' = q ∧ e ∈ x.waitingList) ∨ e ∈ (s.queue q').waitingList := by
  have he' : e ∈ (Function.update s.queue q x q').waitingList := he
  by_cases hq : q' = q
  · rw [hq, Function.update_self] at he'
    exact .inl ⟨hq, he'⟩
  · rw [Function.update_of_ne hq] at he'
    exact .inr he'

omit [DecidableEq τ] [DecidableEq κ] in
theorem resume_frame (s : PollState τ κ) :
    s.resume = { s with suspended := s.resume.suspended, timer := s.resume.timer } := by
  unfold PollState.resume
  split_ifs
  · rfl
  · rfl

theorem wakeup_frame (thread : τ) (s : PollState τ κ) (q : κ) (key : UInt32) :
    (s.wakeup thread q key).pc = s.pc ∧ (s.wakeup thread q key).proc = s.proc ∧
      (s.wakeup thread q key).nodes = s.nodes ∧
      ∀ q', ∀ e ∈ ((s.wakeup thread q key).queue q').waitingList, e ∈ (s.queue q').waitingList := by
  unfold PollState.wakeup
  dsimp only
  cases (s.queue q).first key with
  | none =>
    refine ⟨rfl, rfl, rfl, fun q' e he => ?_⟩
    rcases mem_setQueue he with ⟨rfl, he⟩ | he
    · exact he
    · exact he
  | some e =>
    dsimp only
    have hsame : ∀ s' : PollState τ κ, s'.queue = s.queue →
        ∀ q', ∀ e' ∈ ((s'.setQueue q (RtWqueue.remove { s.queue q with flag := true } e)).queue q').waitingList,
          e' ∈ (s.queue q').waitingList := by
      intro s' hqueue q' e' he
      rcases mem_setQueue he with ⟨rfl, he⟩ | he
      · exact List.mem_of_mem_erase he
      · rwa [hqueue] at he
    split_ifs
    · rw [resume_frame]
      exact ⟨rfl, rfl, rfl, hsame _ rfl⟩
    · exact ⟨rfl, rfl, rfl, hsame _ rfl⟩

theorem wakeup_triggered : (s.wakeup thread q key).triggered = s.triggered ∨
    (s.wakeup thread q key).triggered = true ∧ ∃ e ∈ (s.queue q).waitingList, e.pollingThread = thread ∧
      e.accepts key = true := by
  unfold PollState.wakeup
  dsimp only
  cases hfirst : (s.queue q).first key with
  | none => exact .inl rfl
  | some e =>
    dsimp only
    by_cases hself : e.pollingThread = thread
    · rw [if_pos hself]
      refine .inr ⟨rfl, e, List.mem_of_find?_eq_some hfirst, hself, ?_⟩
      exact List.find?_some hfirst
    · rw [if_neg hself]
      exact .inl rfl

theorem Ok.wakeup (hok : Ok thread msec h s) : Ok thread msec ((s, .wakeup q key) :: h) (s.wakeup thread q key) := by
  obtain ⟨hpc, hproc, hnodes, hqueue⟩ := wakeup_frame thread s q key
  refine hok.keep (fun hn => by contradiction) hpc hproc ?_ ?_
  · refine wakeup_triggered.imp_right ?_
    rintro ⟨ht, e, he, hself, haccepts⟩
    exact ⟨ht, fun hrunning => ⟨(q, e), hok.own hrunning q e he hself, rfl, haccepts⟩⟩
  · intro hrunning q' e he hself
    rw [hnodes]
    exact hok.own hrunning q' e (hqueue q' e he) hself

omit [DecidableEq τ] in
theorem Ok.setQueue (hok : Ok thread msec h s) (ha : a ≠ .goOn) {x : RtWqueue τ}
    (hx : ∀ e ∈ x.waitingList, e.pollingThread = thread → e ∈ (s.queue q).waitingList) :
    Ok thread msec ((s, a) :: h) (s.setQueue q x) := by
  refine hok.keep ha rfl rfl (.inl rfl) fun hrunning q' e he hthread => ?_
  rcases mem_setQueue he with ⟨rfl, hnew⟩ | hold
  · exact hok.own hrunning q' e (hx e hnew hthread) hthread
  · exact hok.own hrunning q' e hold hthread

omit [DecidableEq τ] in
theorem Ok.pollAdd (hok : Ok thread msec h s) (ok : Bool) :
    Ok thread msec ((s, .pollAdd q ok) :: h) (s.pollAdd thread q key ok) := by
  have ha : (.pollAdd q ok : PollAction τ κ) ≠ .goOn := fun hn => by contradiction
  unfold PollState.pollAdd
  split_ifs
  · refine hok.keep ha rfl rfl (.inl rfl) fun hrunning q' e he hthread => ?_
    rcases mem_setQueue he with ⟨rfl, he⟩ | he
    · rcases List.mem_append.mp he with he | he
      · exact List.mem_cons_of_mem _ (hok.own hrunning q' e he hthread)
      · rw [List.mem_singleton.mp he]
        exact List.mem_cons_self
    · exact List.mem_cons_of_mem _ (hok.own hrunning q' e he hthread)
  · exact hok.keep ha rfl rfl (.inl rfl) fun hrunning q' e he hthread => hok.own hrunning q' e he hthread

omit [DecidableEq τ] [DecidableEq κ] in
/-- A step of the thread that begins no scan: it goes to `pc`, and clears `proc` or leaves it. -/
theorem Ok.advance {pc : PollPc} {proc : Bool} {revents : Nat → UInt32} (hok : Ok thread msec h s)
    (hnot : ¬ ScanBegins s a) (hrunning : pc.running = true → s.pc.running = true)
    (hslept : pc = .sleep → False) (hloop : pc.isLoop = true → False)
    (hscan : ∀ n num, pc = .scan n num false → ∃ n' num', s.pc = .scan n' num' false)
    (hpatient : pc.patient = true → s.pc.patient = true) :
    Ok thread msec ((s, a) :: h) { s with revents := revents, proc := proc, pc := pc } := by
  refine ⟨fun hr => hok.own (hrunning hr), fun ht => ?_, fun hs => (hslept hs).elim, fun hl => (hloop hl).elim,
    fun hl => (hloop (by rw [show pc = .loop false from hl]; rfl)).elim, fun n num hs => ?_,
    fun hp => hok.patient (hpatient hp)⟩
  · rcases hok.woken ht with hb | hw | hr
    · exact .inl (since_keep hnot hb)
    · exact .inr (.inl (since_keep hnot hw))
    · right
      right
      show pc.running = false
      cases hpc : pc.running with
      | false => rfl
      | true =>
        rw [hrunning hpc] at hr
        contradiction
  · obtain ⟨n', num', hs'⟩ := hscan n num hs
    exact since_keep hnot (hok.scan n' num' hs')

omit [DecidableEq τ] [DecidableEq κ] in
theorem Ok.answer {n num : Nat} {istimeout : Bool} (hok : Ok thread msec h s) (hpc : s.pc = .scan n num istimeout)
    {x : Answer} (r : Except Int UInt32) : Ok thread msec ((s, .answer x) :: h) (s.answer n num istimeout r) := by
  have hnot : ¬ ScanBegins s (.answer x : PollAction τ κ) := not_scanBegins_of_ne fun hn => by contradiction
  have hrunning : s.pc.running = true := by
    rw [hpc]
    rfl
  have hnext : ∀ num' proc revents, Ok thread msec ((s, .answer x) :: h)
      { s with revents := revents, proc := proc, pc := .scan (n + 1) num' istimeout } := by
    intro num' proc revents
    refine hok.advance hnot (fun _ => hrunning) (fun hn => by contradiction) (fun hn => by contradiction) ?_ ?_
    · intro m k hs
      obtain ⟨-, -, rfl⟩ := PollPc.scan.inj hs
      exact ⟨n, num, hpc⟩
    · intro hp
      rw [hpc]
      exact hp
  cases r with
  | error ret =>
    refine hok.advance hnot (fun _ => hrunning) (fun hn => by contradiction) (fun hn => by contradiction) ?_ ?_
    · intro m k hs
      contradiction
    · intro hp
      contradiction
  | ok mask =>
    unfold PollState.answer
    dsimp only
    split_ifs
    · exact hnext num s.proc _
    · exact hnext (num + 1) false _

/-! ### The thread's own steps -/

omit [DecidableEq τ] [DecidableEq κ] in
theorem Ok.begin {istimeout : Bool} (hok : Ok thread msec h s) (hpc : s.pc = .loop istimeout) :
    Ok thread msec ((s, .goOn) :: h) { s with pc := .scan 0 0 istimeout } := by
  have hbegins : ScanBegins s (.goOn : PollAction τ κ) := by
    refine ⟨rfl, ?_⟩
    rw [hpc]
    rfl
  have hrunning : s.pc.running = true := by
    rw [hpc]
    rfl
  refine ⟨fun _ => hok.own hrunning, fun ht => .inl (.inl ⟨hbegins, ht⟩), fun hs => by contradiction,
    fun hl => by contradiction, fun hl => by contradiction, fun n num hs => .inl ⟨hbegins, ?_⟩, fun hp => ?_⟩
  · obtain ⟨-, -, rfl⟩ := PollPc.scan.inj hs
    exact hok.loop hpc
  · refine hok.patient ?_
    rw [hpc]
    exact hp

omit [DecidableEq τ] [DecidableEq κ] in
theorem Ok.back (hok : Ok thread msec h s) (hnot : ¬ ScanBegins s (.goOn : PollAction τ κ))
    (hrunning : s.pc.running = true) (hpatient : s.pc.patient = true)
    (hagain : Since (fun s a => Suspends msec s a ∨ WakesUp s a) ScanBegins h) :
    Ok thread msec ((s, .goOn) :: h) { s with pc := .loop (!s.triggered) } := by
  refine ⟨fun _ => hok.own hrunning, fun ht => ?_, fun hs => by contradiction, fun _ _ => since_keep hnot hagain,
    fun hl => ?_, fun n num hs => by contradiction, fun _ => hok.patient hpatient⟩
  · rcases hok.woken ht with hb | hw | hr
    · exact .inl (since_keep hnot hb)
    · exact .inr (.inl (since_keep hnot hw))
    · rw [hrunning] at hr
      contradiction
  · left
    have hfalse : (!s.triggered) = false := PollPc.loop.inj hl
    simpa using hfalse

omit [DecidableEq τ] [DecidableEq κ] in
theorem Ok.waitTimeout (hok : Ok thread msec h s) (hpc : s.pc = .wait) (hP : Proper fds msec h s .goOn) :
    Ok thread msec ((s, .goOn) :: h) (s.waitTimeout msec) := by
  have hnot : ¬ ScanBegins s (.goOn : PollAction τ κ) := not_scanBegins_of_pc (by rw [hpc]; rfl)
  have hrunning : s.pc.running = true := by
    rw [hpc]
    rfl
  have hpatient : s.pc.patient = true := by
    rw [hpc]
    rfl
  have hzero := rtTickFromMillisecond_ne_zero (hok.patient hpatient)
  unfold PollState.waitTimeout
  dsimp only
  by_cases htriggered : s.triggered = false
  · rw [if_pos ⟨hzero, htriggered⟩]
    refine ⟨fun _ => hok.own hrunning, fun ht => ?_, fun _ => .inl ⟨rfl, hpc, hzero, htriggered⟩,
      fun hl => by contradiction, fun hl => by contradiction, fun n num hs => by contradiction,
      fun _ => hok.patient hpatient⟩
    rw [show s.triggered = true from ht] at htriggered
    contradiction
  · rw [if_neg fun hn => htriggered hn.2]
    refine hok.back hnot hrunning hpatient (since_mono (fun _ _ hw => .inr hw) ?_)
    -- `triggered` has been set since the last scan began, or the condition says that it has been set again.
    rcases hok.woken (Bool.eq_true_of_not_eq_false htriggered) with hb | hw | hr
    · exact hP.2 ⟨rfl, hpc⟩ hb
    · exact hw
    · rw [hrunning] at hr
      contradiction

omit [DecidableEq τ] [DecidableEq κ] in
theorem ok_stopped (hr : s'.pc.running = false) (hl : s'.pc.isLoop = false) (hp : s'.pc.patient = false) :
    Ok thread msec ((s, a) :: h) s' := by
  refine ⟨fun hn => ?_, fun _ => .inr (.inr hr), fun hn => ?_, fun hn => ?_, fun hn => ?_, fun n k hn => ?_,
    fun hn => ?_⟩
  · rw [hr] at hn
    contradiction
  · rw [hn] at hr
    contradiction
  · rw [hl] at hn
    contradiction
  · rw [hn] at hr
    contradiction
  · rw [hn] at hr
    contradiction
  · rw [hp] at hn
    contradiction

theorem Ok.goOn (hok : Ok thread msec h s) (hP : Proper fds msec h s .goOn) (hs : s.goOn fds msec = some s') :
    Ok thread msec ((s, .goOn) :: h) s' := by
  unfold PollState.goOn at hs
  cases hpc : s.pc with
  | loop istimeout =>
    rw [hpc] at hs
    obtain rfl := Option.some.inj hs
    exact hok.begin hpc
  | scan n num istimeout =>
    rw [hpc] at hs
    obtain ⟨-, hs⟩ := Option.ite_none_left_eq_some.mp hs
    obtain rfl := Option.some.inj hs
    have hrunning : s.pc.running = true := by
      rw [hpc]
      rfl
    refine hok.advance (not_scanBegins_of_pc ?_) (fun _ => hrunning) ?_ ?_ ?_ ?_
    · rw [hpc]
      rfl
    · intro hn
      split_ifs at hn
    · intro hn
      split_ifs at hn
      · contradiction
      · contradiction
    · intro m k hn
      split_ifs at hn
    · intro hp
      rw [hpc]
      split_ifs at hp with hdone
      · contradiction
      · have hnot : istimeout = false := Bool.eq_false_iff.mpr fun ht => hdone (.inr ht)
        rw [hnot]
        rfl
  | wait =>
    rw [hpc] at hs
    obtain rfl := Option.some.inj hs
    exact hok.waitTimeout hpc hP
  | sleep =>
    rw [hpc] at hs
    obtain ⟨-, hs⟩ := Option.ite_none_left_eq_some.mp hs
    obtain rfl := Option.some.inj hs
    refine hok.back (not_scanBegins_of_pc ?_) ?_ ?_ (since_mono (fun _ _ hs => .inl hs) (hok.slept hpc))
    · rw [hpc]
      rfl
    · rw [hpc]
      rfl
    · rw [hpc]
      rfl
  | teardown num =>
    rw [hpc] at hs
    dsimp only at hs
    cases hnodes : s.nodes with
    | nil =>
      rw [hnodes] at hs
      obtain rfl := Option.some.inj hs
      exact ok_stopped rfl rfl rfl
    | cons node nodes =>
      rw [hnodes] at hs
      obtain rfl := Option.some.inj hs
      exact ok_stopped rfl rfl rfl
  | returned num =>
    rw [hpc] at hs
    contradiction

theorem step_ok (hok : Ok thread msec h s) (hP : Proper fds msec h s a) (hs : pollStep thread fds msec s a = some s') :
    Ok thread msec ((s, a) :: h) s' := by
  cases a with
  | goOn => exact hok.goOn hP hs
  | pollAdd q ok =>
    obtain ⟨pollfd, -, rfl⟩ := Option.map_eq_some_iff.mp hs
    exact hok.pollAdd ok
  | answer x =>
    have hs' : (match s.pc with
      | .scan n num istimeout => (fds[n]?).map fun pollfd => s.answer n num istimeout (doPollfd pollfd x)
      | _ => none) = some s' := hs
    cases hpc : s.pc with
    | scan n num istimeout =>
      rw [hpc] at hs'
      obtain ⟨pollfd, -, rfl⟩ := Option.map_eq_some_iff.mp hs'
      exact hok.answer hpc _
    | _ =>
      rw [hpc] at hs'
      contradiction
  | wakeup q key =>
    obtain rfl := Option.some.inj hs
    exact hok.wakeup
  | add q e =>
    obtain ⟨hne, hs⟩ := Option.ite_none_right_eq_some.mp hs
    obtain rfl := Option.some.inj hs
    refine hok.setQueue (fun hn => by contradiction) fun e' he hthread => ?_
    rcases List.mem_append.mp he with he | he
    · exact he
    · rw [List.mem_singleton.mp he] at hthread
      exact absurd hthread hne
  | remove q e =>
    obtain ⟨-, hs⟩ := Option.ite_none_right_eq_some.mp hs
    obtain rfl := Option.some.inj hs
    exact hok.setQueue (fun hn => by contradiction) fun e' he _ => List.mem_of_mem_erase he
  | tick =>
    obtain rfl := Option.some.inj hs
    exact hok.keep (fun hn => by contradiction) rfl rfl (.inl rfl) hok.own
  | timeout =>
    obtain ⟨-, hs⟩ := Option.ite_none_right_eq_some.mp hs
    obtain rfl := Option.some.inj hs
    rw [resume_frame]
    exact hok.keep (fun hn => by contradiction) rfl rfl (.inl rfl) hok.own

theorem ok_run (hrun : (polls κ thread fds msec).Run h s) (hP : Throughout (Proper fds msec) h) :
    Ok thread msec h s := by
  refine hrun.invariant (I := fun h s => Ok thread msec h s) ?_ (fun _ _ _ _ _ hok hP hs => step_ok hok hP hs) hP
  rintro s ⟨hqueue, -, hproc, htriggered, -, -, -, hpc⟩
  refine ⟨fun _ q e he hthread => absurd hthread (hqueue q e he), fun ht => ?_, fun hs => ?_, fun _ he => ?_,
    fun hl => ?_, fun n num hs => ?_, fun hp => ?_⟩
  · rw [htriggered] at ht
    contradiction
  · rw [hpc] at hs
    contradiction
  · obtain ⟨e, he, -⟩ := he
    contradiction
  · right
    rw [hpc] at hl
    rw [hproc]
    simpa using PollPc.loop.inj hl
  · rw [hpc] at hs
    contradiction
  · rw [hpc] at hp
    intro hzero
    rw [hzero] at hp
    contradiction

/-- A scan that finds nothing ends the call, if the call has been told that its time is over. -/
theorem finds_nothing_step (hok : Ok thread msec h s) (hnothing : FindsNothing fds s a)
    (hP : Proper fds msec h s a) (helapsed : Began (fun s => s.Elapsed msec) h) :
    ∃ s', pollStep thread fds msec s a = some s' ∧ s'.pc = .teardown 0 := by
  obtain ⟨rfl, hscanned⟩ := hnothing
  cases hpc : s.pc with
  | scan n num istimeout =>
    rw [hpc] at hscanned
    have hboth : fds.length ≤ n ∧ num = 0 := by
      simpa [PollPc.scannedNone] using hscanned
    obtain ⟨hn, rfl⟩ := hboth
    have htold : istimeout = true := by
      by_contra hnot
      have hfalse : istimeout = false := Bool.eq_false_iff.mpr hnot
      rw [hfalse] at hpc
      refine hP.1 ⟨rfl, ?_⟩ (began_and helapsed (hok.scan n 0 hpc))
      rw [hpc]
      simpa [PollPc.scannedNone] using hn
    refine ⟨{ s with proc := false, pc := .teardown 0 }, ?_, rfl⟩
    show s.goOn fds msec = _
    unfold PollState.goOn
    rw [hpc]
    dsimp only
    rw [if_neg (Nat.not_lt.mpr hn), htold]
    rfl
  | _ =>
    rw [hpc] at hscanned
    contradiction

/-! ### Runs -/

instance (s : PollState τ κ) (a : PollAction τ κ) : Decidable (ScanBegins s a) := by
  unfold ScanBegins
  infer_instance

instance (s : PollState τ κ) (a : PollAction τ κ) : Decidable (FindsNothing fds s a) := by
  unfold FindsNothing
  infer_instance

omit [DecidableEq τ] in
instance (s : PollState τ κ) (a : PollAction τ κ) : Decidable (WakesUp s a) := by
  cases a
  all_goals
    unfold WakesUp
    infer_instance

instance (s : PollState τ κ) (a : PollAction τ κ) : Decidable (Suspends msec s a) := by
  unfold Suspends
  infer_instance

omit [DecidableEq τ] [DecidableEq κ] in
instance (s : PollState τ κ) : Decidable (s.Elapsed msec) := by
  unfold PollState.Elapsed
  infer_instance

instance (P : PollState τ κ → Prop) [DecidablePred P] (h : History (PollState τ κ) (PollAction τ κ)) :
    Decidable (Began P h) := by
  unfold Began
  infer_instance

instance (s : PollState τ κ) (a : PollAction τ κ) : Decidable (Proper fds msec h s a) := by
  unfold Proper
  infer_instance

/-- A call of `poll` for one descriptor, for 5 milliseconds. -/
def onePoll : PollState (Fin 2) Unit :=
  ⟨fun _ => ⟨false, []⟩, 0, 0, true, false, [], false, none, fun _ => 0, .loop false⟩

def oneFd : List Pollfd := [⟨0, pollin⟩]

theorem init_onePoll : (polls Unit (0 : Fin 2) oneFd 5).init onePoll := by
  refine ⟨fun _ e he => ?_, rfl, rfl, rfl, rfl, rfl, rfl, rfl⟩
  contradiction

/-- The call is registered, finds nothing ready, and is woken up. -/
def wokenUp : List (PollAction (Fin 2) Unit) :=
  [.goOn, .pollAdd () true, .answer (.poll 0), .goOn, .goOn, .wakeup () pollin]

/-- If another thread has consumed the event, the third scan follows the second one without a sleep or a wake-up; and a
scan that begins when the 5 ticks are over, and finds nothing, does not end the call. -/
theorem poll_spins :
    (∃ h s, (polls Unit (0 : Fin 2) oneFd 5).Run h s ∧ ScanBegins s .goOn ∧ (∃ e ∈ h, ScanBegins e.1 e.2) ∧
      ¬ Since (fun s a => Suspends 5 s a ∨ WakesUp s a) ScanBegins h) ∧
    ∃ h s, (polls Unit (0 : Fin 2) oneFd 5).Run h s ∧ FindsNothing oneFd s .goOn ∧
      Began (fun s => s.Elapsed 5) h ∧ (pollStep 0 oneFd 5 s .goOn).map (·.pc) = some .wait := by
  constructor
  · exact System.exists_run init_onePoll (wokenUp ++ [.goOn, .goOn, .answer (.poll 0), .goOn, .goOn]) _
      (by decide +kernel)
  · exact System.exists_run init_onePoll (wokenUp ++ [.tick, .tick, .tick, .tick, .tick, .goOn, .goOn,
      .answer (.poll 0)]) _ (by decide +kernel)

/-- In every run in which no scan that begins behind a wake-up ends with nothing ready, unless the call is woken up once
more before it tests `triggered`, and none that begins so, or as the first one, when the time of the call is over: the
calling thread sleeps or is woken up between two scans, and returns 0 behind a scan that begins when the time is over
and finds nothing. -/
theorem poll_waits (hrun : (polls κ thread fds msec).Run h s) (hP : Throughout (Proper fds msec) h) :
    Throughout (fun h s a =>
      (ScanBegins s a → (∃ e ∈ h, ScanBegins e.1 e.2) →
        Since (fun s a => Suspends msec s a ∨ WakesUp s a) ScanBegins h) ∧
      (FindsNothing fds s a → Began (fun s => s.Elapsed msec) h →
        ∃ s', pollStep thread fds msec s a = some s' ∧ s'.pc = .teardown 0)) h := by
  refine hrun.throughout (fun _ _ => ok_run) ?_ hP
  rintro h s a s' - hok hP -
  refine ⟨?_, fun hnothing helapsed => finds_nothing_step hok hnothing hP helapsed⟩
  rintro ⟨-, hloop⟩ hbefore
  exact hok.again hloop hbefore

/-- A call sleeps, times out, scans once more and returns 0. -/
theorem poll_waits_run : ∃ h s, (polls Unit (0 : Fin 2) oneFd 5).Run h s ∧ s.pc = .returned 0 ∧
    Throughout (fun h s a => ScanBegins s a → (∃ e ∈ h, ScanBegins e.1 e.2) →
      Since (fun s a => Suspends 5 s a ∨ WakesUp s a) ScanBegins h) h := by
  obtain ⟨h, s, hrun, hP, hpc⟩ := System.exists_run init_onePoll
    [.goOn, .pollAdd () true, .answer (.poll 0), .goOn, .goOn, .tick, .tick, .tick, .tick, .tick, .timeout, .goOn,
      .goOn, .answer (.poll 0), .goOn, .goOn, .goOn]
    (fun h s => Throughout (Proper oneFd 5) h ∧ s.pc = .returned 0) (by decide +kernel)
  exact ⟨h, s, hrun, hpc, (poll_waits hrun hP).mono fun _ _ _ hw => hw.1⟩

end steps

end ThyristorController.Polls
