import ThyristorController.Kernel.Timer

/-!
# The timer thread (`rt_thread_timer_entry` in `src/timer.c`)

The thread reads the first deadline of the soft timers, suspends itself or sleeps until then, and calls the timers that
are due. Interrupts and other threads start, stop and change timers between any two of its steps; `rt_timer_start` is
two steps of its own behind the insertion, the test whether the thread is suspended and the resumption.

The hard timers are in `Timers.list`, which the thread does not look at; they are not called here. The thread's own
timer is a hard timer, which `rt_timer_check` calls in the first tick at or behind its deadline.

`soft_timers` says when the thread sleeps at most until the first deadline.
-/

namespace ThyristorController.SoftTimers

open Transition Clock
open TimerLists hiding ticks started deadline startedAt

/-! ## The system -/

/-- Where `rt_thread_timer_entry` is, with its variables: before the next timeout is read; before
`rt_thread_suspend`, `rt_tick_get` and `rt_thread_delay`; before `rt_soft_timer_check`; in a timeout function. -/
inductive ThreadPc (ι : Type) where
  | read
  | suspend
  | getTick (next : BitVec 32)
  | delay (next current : BitVec 32)
  | check
  | callback (t : ι)
deriving DecidableEq

/-- Where a user is in `rt_timer_start`: not in it; behind the insertion of a soft timer; before `rt_thread_resume`. -/
inductive StarterPc where
  | idle
  | test
  | resume
deriving DecidableEq

/-- The thread is suspended or not; `wake` is the timeout of its own timer, if that is started. -/
structure SoftState (ι ν : Type) where
  timers : Timers ι
  busy : Bool
  suspended : Bool
  wake : Option (BitVec 32)
  pc : ThreadPc ι
  starter : ν → StarterPc

/-- An operation that is no start; `rt_timer_start` of a user until the insertion, and the user's next step in it; the
tick interrupt; a step of the thread. -/
inductive SoftAction (ι ν : Type) where
  | op (o : TimerOp ι)
  | start (n : ν) (t : ι)
  | goOn (n : ν)
  | tick
  | thread
deriving DecidableEq

variable {ι ν : Type} [DecidableEq ι]

/-- `RT_TICK_MAX`, as the time without a timer. -/
def noTimeout : BitVec 32 := BitVec.ofNat 32 rtTickMax

/-- `rt_timer_list_next_timeout(rt_soft_timer_list)`. -/
def rtTimerListNextTimeout (s : Timers ι) : BitVec 32 :=
  match s.softList with
  | [] => noTimeout
  | t :: _ => (s.timer t).timeoutTick

/-- A round of the loop of `rt_soft_timer_check`, until the timeout function is called. -/
def checkRound (s : SoftState ι ν) : SoftState ι ν :=
  match s.timers.softList with
  | [] => { s with pc := .read }
  | t :: _ =>
    if s.timers.due s.timers.tick t then { s with timers := s.timers.expire t, busy := true, pc := .callback t }
    else { s with pc := .read }

/-- `rt_thread_resume` of the thread. -/
def rtThreadResume (s : SoftState ι ν) : SoftState ι ν :=
  if s.suspended = true then { s with suspended := false, wake := none } else s

/-- `rt_thread_sleep` of the thread. -/
def rtThreadSleep (s : SoftState ι ν) (tick : BitVec 32) : SoftState ι ν :=
  { s with suspended := true, wake := some (s.timers.tick + tick) }

/-- A step of `rt_thread_timer_entry`. -/
def threadStep (s : SoftState ι ν) : Option (SoftState ι ν) :=
  if s.suspended = true then none
  else
    match s.pc with
    | .read =>
      let next := rtTimerListNextTimeout s.timers
      if next = noTimeout then some { s with pc := .suspend } else some { s with pc := .getTick next }
    | .suspend => some { s with suspended := true, wake := none, pc := .check }
    | .getTick next => some { s with pc := .delay next s.timers.tick }
    | .delay next current =>
      if (next - current).toNat < rtTickMax / 2 then
        some { rtThreadSleep s (next - current) with pc := .check }
      else some { s with pc := .check }
    | .check => some (checkRound s)
    | .callback t => (s.timers.finish t).map fun x => checkRound { s with timers := x, busy := false }

/-- The own timer of the thread is due in the tick interrupt. -/
def wakes (s : SoftState ι ν) : Bool :=
  s.wake.any fun w => (s.timers.tick + 1 - w).toNat < rtTickMax / 2

def softStep [DecidableEq ν] (s : SoftState ι ν) : SoftAction ι ν → Option (SoftState ι ν)
  | .op (.start _) => none
  | .op o => (s.timers.op o).map fun x => { s with timers := x }
  | .start n t =>
    if s.starter n = .idle then
      (s.timers.rtTimerStart t).map fun x =>
        { s with
          timers := x
          starter := Function.update s.starter n (if (x.timer t).soft = true then .test else .idle) }
    else none
  | .goOn n =>
    match s.starter n with
    | .idle => none
    | .test =>
      some { s with
        starter := Function.update s.starter n (if s.busy = false ∧ s.suspended = true then .resume else .idle) }
    | .resume => some { rtThreadResume s with starter := Function.update s.starter n .idle }
  | .tick =>
    let s' := { s with timers := { s.timers with tick := s.timers.tick + 1 } }
    if wakes s then some (rtThreadResume s') else some s'
  | .thread => threadStep s

/-- No timer is started and the thread is about to read the list; the tick counter has any value. -/
structure SoftInit (base : BitVec 32) (s : SoftState ι ν) : Prop where
  list : s.timers.list = []
  softList : s.timers.softList = []
  temp : s.timers.temp = []
  tick : s.timers.tick = base
  busy : s.busy = false
  suspended : s.suspended = false
  pc : s.pc = .read
  starter : ∀ n, s.starter n = .idle

def softTimers (ι ν : Type) [DecidableEq ι] [DecidableEq ν] (base : BitVec 32) :
    System (SoftState ι ν) (SoftAction ι ν) where
  init := SoftInit base
  step := softStep

/-! ## What happened in a run -/

/-- How often the tick counter was increased. -/
def ticks : History (SoftState ι ν) (SoftAction ι ν) → Nat
  | [] => 0
  | (_, .tick) :: h => ticks h + 1
  | (_, _) :: h => ticks h

/-- The timer that a step starts: a user, or the thread when a timeout function returns. -/
def started (s : SoftState ι ν) : SoftAction ι ν → Option ι
  | .start _ t => some t
  | .thread =>
    match s.pc with
    | .callback t => if s.timers.restarts t then some t else none
    | _ => none
  | _ => none

/-- The tick at which a timer ends, as set by its last start. -/
def deadline : History (SoftState ι ν) (SoftAction ι ν) → ι → Nat
  | [], _ => 0
  | (s, a) :: h, t =>
    if started s a = some t then ticks h + (s.timers.timer t).initTick.toNat else deadline h t

/-- The number of the step that last started a timer. -/
def startedAt : History (SoftState ι ν) (SoftAction ι ν) → ι → Nat
  | [], _ => 0
  | (s, a) :: h, t => if started s a = some t then h.length + 1 else startedAt h t

/-- The thread reads the list. -/
def reads (s : SoftState ι ν) : SoftAction ι ν → Prop
  | .thread => s.pc = .read
  | _ => False

instance (s : SoftState ι ν) : (a : SoftAction ι ν) → Decidable (reads s a)
  | .thread => inferInstanceAs (Decidable (s.pc = .read))
  | .op _ | .start .. | .goOn _ | .tick => inferInstanceAs (Decidable False)

/-- The deadline that the thread read last. -/
def aim : History (SoftState ι ν) (SoftAction ι ν) → Nat
  | [] => 0
  | (s, a) :: h =>
    if reads s a then
      match s.timers.softList with
      | [] => aim h
      | t :: _ => deadline h t
    else aim h

/-- The timer was started since the thread read the list. -/
def Fresh (h : History (SoftState ι ν) (SoftAction ι ν)) (t : ι) : Prop :=
  Since (fun s a => started s a = some t) reads h

instance (h : History (SoftState ι ν) (SoftAction ι ν)) (t : ι) : Decidable (Fresh h t) :=
  inferInstanceAs (Decidable (Since _ _ h))

/-- The tick until which the thread sleeps, as set by its last `rt_thread_delay`. -/
def wakeTick : History (SoftState ι ν) (SoftAction ι ν) → Nat
  | [] => 0
  | (s, .thread) :: h =>
    match s.pc with
    | .delay next current =>
      if (next - current).toNat < rtTickMax / 2 then ticks h + (next - current).toNat else wakeTick h
    | _ => wakeTick h
  | (_, _) :: h => wakeTick h

/-- No user is in `rt_timer_start`. -/
def Quiet (s : SoftState ι ν) : Prop := ∀ n, s.starter n = .idle

/-- If the thread is suspended without a wake-up, no soft timer is started; and no wake-up is later than a deadline. -/
structure NotForgotten (base : BitVec 32) (h : History (SoftState ι ν) (SoftAction ι ν)) (s : SoftState ι ν) :
    Prop where
  empty : s.wake = none → s.timers.softList = []
  wake : ∀ w, s.wake = some w → w = stamp base (wakeTick h)
  timeout : ∀ t ∈ s.timers.softList, (s.timers.timer t).timeoutTick = stamp base (deadline h t)
  early : s.wake ≠ none → ∀ t ∈ s.timers.softList, wakeTick h ≤ deadline h t

/-! ## The conditions on a step -/

/-- The first deadline is not the number that stands for an empty list. -/
def ReadOk (s : SoftState ι ν) (a : SoftAction ι ν) : Prop :=
  reads s a → ∀ t ∈ s.timers.softList.head?, (s.timers.timer t).timeoutTick ≠ noTimeout

/-- The thread does not suspend itself when a timer was started since the list was read, by a user that is not in
`rt_timer_start` any more. -/
def SuspendOk (h : History (SoftState ι ν) (SoftAction ι ν)) (s : SoftState ι ν) (a : SoftAction ι ν) : Prop :=
  Quiet s → s.pc = .suspend → a = .thread → ∀ t ∈ s.timers.softList, ¬ Fresh h t

/-- The tick counter as the thread has read it, if the thread is about to go to sleep. -/
def delays (s : SoftState ι ν) : Option (BitVec 32) :=
  match s.pc with
  | .delay next current => if (next - current).toNat < rtTickMax / 2 then some current else none
  | _ => none

/-- When the thread goes to sleep, the tick counter is what it has read, the deadline is not as far in the past that it
looks like a later one, and no timer with an earlier deadline was started since the list was read, by a user that is
not in `rt_timer_start` any more. -/
def DelayOk (h : History (SoftState ι ν) (SoftAction ι ν)) (s : SoftState ι ν) (a : SoftAction ι ν) : Prop :=
  Quiet s → a = .thread → ∀ current ∈ delays s, s.timers.tick = current ∧
    ticks h - aim h + rtTickMax / 2 ≤ 2 ^ 32 ∧ ∀ t ∈ s.timers.softList, Fresh h t → aim h ≤ deadline h t

/-- When a soft timer is started, no other one is as late that its deadline looks like a later one. -/
def StartOk (h : History (SoftState ι ν) (SoftAction ι ν)) (s : SoftState ι ν) (a : SoftAction ι ν) : Prop :=
  ∀ t ∈ started s a, (s.timers.timer t).soft = true → ∀ u ∈ s.timers.softList, u ≠ t →
    ticks h + (s.timers.timer t).initTick.toNat - deadline h u + rtTickMax / 2 ≤ 2 ^ 32

structure InTime (h : History (SoftState ι ν) (SoftAction ι ν)) (s : SoftState ι ν) (a : SoftAction ι ν) : Prop where
  read : ReadOk s a
  suspend : SuspendOk h s a
  delay : DelayOk h s a
  start : StartOk h s a

/-! ## The list of the soft timers -/

/-- The list at tick `n`, if timer `t` has the deadline `D t` and was started in step `Q t`. -/
structure SoftLists (base : BitVec 32) (n : Nat) (D Q : ι → Nat) (s : Timers ι) : Prop extends
    Placed base n s, Row base n D Q s.timer s.softList

section lists

variable {base : BitVec 32} {n q : Nat} {D Q : ι → Nat} {x x' : Timers ι} {t : ι}

theorem SoftLists.drop (hi : SoftLists base n D Q x) (t : ι) (y : RtTimer) :
    SoftLists base n D Q ((x.remove t).setTimer t y) :=
  ⟨hi.toPlaced.drop t y, hi.toRow.drop hi.softList_nodup t y⟩

theorem SoftLists.set (hi : SoftLists base n D Q x) {y : RtTimer} (hy : y.attached = true)
    (htimeout : (x.timer t).attached = true → y.timeoutTick = (x.timer t).timeoutTick) :
    SoftLists base n D Q (x.setTimer t y) :=
  ⟨hi.toPlaced.set hy, hi.toRow.set fun ht =>
    htimeout (hi.attached t (List.mem_append_right _ (List.mem_append_left _ ht)))⟩

theorem SoftLists.start (hi : SoftLists base n D Q x) (hs : x.rtTimerStart t = some x') (hq : ∀ u, Q u < q)
    (hfar : (x.timer t).soft = true → ∀ u ∈ x.softList, u ≠ t →
      n + (x.timer t).initTick.toNat - D u + rtTickMax / 2 ≤ 2 ^ 32) :
    SoftLists base n (Function.update D t (n + (x.timer t).initTick.toNat)) (Function.update Q t q) x' := by
  obtain ⟨-, -, -, -, -, -, hlists⟩ := rtTimerStart_spec hs
  have hnodup := hi.softList_nodup
  refine ⟨hi.toPlaced.start hs, ?_⟩
  split_ifs at hlists with hsoft
  · rw [hlists.2]
    refine hi.toRow.start_enter hnodup hi.tick hs hq fun u hu => ?_
    exact hfar hsoft u (List.mem_of_mem_erase hu) (ne_of_mem_of_not_mem hu hnodup.not_mem_erase)
  · rw [hlists.2]
    exact hi.toRow.start_leave hnodup hs _ q

theorem SoftLists.expire (hi : SoftLists base n D Q x) (ht : t ∈ x.softList) : SoftLists base n D Q (x.expire t) := by
  refine ⟨hi.toPlaced.expire (List.mem_append_right _ (List.mem_append_left _ ht)), ?_⟩
  rw [(expire_spec x t).2.1]
  exact hi.toRow.expire hi.softList_nodup t

omit [DecidableEq ι] in
theorem SoftLists.advance (hi : SoftLists base n D Q x) : SoftLists base (n + 1) D Q { x with tick := x.tick + 1 } :=
  ⟨hi.toPlaced.advance, hi.toRow.later⟩

omit [DecidableEq ι] in
theorem SoftLists.head_le {rest : List ι} (hi : SoftLists base n D Q x) (hlist : x.softList = t :: rest) (u : ι)
    (hu : u ∈ x.softList) : D t ≤ D u := by
  have hsorted := hi.sorted
  rw [hlist] at hu hsorted
  rcases List.mem_cons.mp hu with rfl | hu
  · exact le_rfl
  · have := rank_lt.mp ((List.pairwise_cons.mp hsorted).1 u hu)
    omega

theorem SoftLists.round {s : SoftState ι ν} (hi : SoftLists base n D Q s.timers) :
    SoftLists base n D Q (checkRound s).timers ∧ (checkRound s).suspended = s.suspended ∧
      ((checkRound s).pc = .read ∧ (checkRound s).busy = s.busy ∨ ∃ t, (checkRound s).pc = .callback t) := by
  unfold checkRound
  cases hlist : s.timers.softList with
  | nil => exact ⟨hi, rfl, .inl ⟨rfl, rfl⟩⟩
  | cons t rest =>
    dsimp only
    split_ifs with hdue
    · exact ⟨hi.expire (by simp [hlist]), rfl, .inr ⟨t, rfl⟩⟩
    · exact ⟨hi, rfl, .inl ⟨rfl, rfl⟩⟩

end lists

/-! ## All runs -/

section runs

variable {base : BitVec 32} {h : History (SoftState ι ν) (SoftAction ι ν)} {s s' : SoftState ι ν}
  {a : SoftAction ι ν} {t u : ι}

/-- The thread has read a deadline; the timers with an earlier one were started since. -/
structure Aimed (base : BitVec 32) (h : History (SoftState ι ν) (SoftAction ι ν)) (s : SoftState ι ν)
    (next : BitVec 32) : Prop where
  next : next = stamp base (aim h)
  near : aim h < ticks h + rtTickMax / 2
  first : ∀ t ∈ s.timers.softList, Fresh h t ∨ aim h ≤ deadline h t

/-- What the thread knows of the list. -/
def PcOk (base : BitVec 32) (h : History (SoftState ι ν) (SoftAction ι ν)) (s : SoftState ι ν) : Prop :=
  match s.pc with
  | .suspend => ∀ t ∈ s.timers.softList, Fresh h t
  | .getTick next | .delay next _ => Aimed base h s next
  | .read | .check | .callback _ => True

/-- The invariant of the runs. -/
structure SoftInv (base : BitVec 32) (h : History (SoftState ι ν) (SoftAction ι ν)) (s : SoftState ι ν) : Prop where
  lists : SoftLists base (ticks h) (deadline h) (startedAt h) s.timers
  startedAt : ∀ t, startedAt h t ≤ h.length
  busy : s.busy = true → ∃ t, s.pc = .callback t
  pc : PcOk base h s
  suspended : s.suspended = true → s.pc = .check
  asleep : s.suspended = true → Quiet s → NotForgotten base h s

/-! ### The numbers of the history -/

theorem deadline_started (ha : started s a = some t) :
    deadline ((s, a) :: h) = Function.update (deadline h) t (ticks h + (s.timers.timer t).initTick.toNat) := by
  funext u
  by_cases hut : u = t
  · subst hut
    rw [deadline, if_pos ha, Function.update_self]
  · rw [deadline, if_neg (by rw [ha]; exact fun he => hut (Option.some.inj he).symm), Function.update_of_ne hut]

theorem startedAt_started (ha : started s a = some t) :
    SoftTimers.startedAt ((s, a) :: h) = Function.update (SoftTimers.startedAt h) t (h.length + 1) := by
  funext u
  by_cases hut : u = t
  · subst hut
    rw [SoftTimers.startedAt, if_pos ha, Function.update_self]
  · rw [SoftTimers.startedAt, if_neg (by rw [ha]; exact fun he => hut (Option.some.inj he).symm),
      Function.update_of_ne hut]

theorem deadline_not_started (ha : started s a = none) : deadline ((s, a) :: h) = deadline h := by
  funext u
  rw [deadline, if_neg (by simp [ha])]

theorem startedAt_not_started (ha : started s a = none) :
    SoftTimers.startedAt ((s, a) :: h) = SoftTimers.startedAt h := by
  funext u
  rw [SoftTimers.startedAt, if_neg (by simp [ha])]

theorem startedAt_le (hi : ∀ t, SoftTimers.startedAt h t ≤ h.length) (t : ι) :
    SoftTimers.startedAt ((s, a) :: h) t ≤ ((s, a) :: h).length := by
  rw [SoftTimers.startedAt]
  split_ifs
  · exact le_rfl
  · exact (hi t).trans (Nat.le_succ _)

omit [DecidableEq ι] in
theorem ticks_other (ha : a ≠ .tick) : ticks ((s, a) :: h) = ticks h := by
  cases a <;> first | rfl | exact absurd rfl ha

omit [DecidableEq ι] in
theorem not_reads (ha : a ≠ .thread) : ¬ reads s a := by
  cases a with
  | thread => exact absurd rfl ha
  | _ => exact id

theorem aim_other (ha : a ≠ .thread) : aim ((s, a) :: h) = aim h := if_neg (not_reads ha)

omit [DecidableEq ι] in
theorem wakeTick_other (ha : a ≠ .thread) : wakeTick ((s, a) :: h) = wakeTick h := by
  cases a <;> first | rfl | exact absurd rfl ha

theorem deadline_other (ha : started s a ≠ some t) : deadline ((s, a) :: h) t = deadline h t := if_neg ha

/-- What a step does to the numbers of the history, if it starts no timer. -/
theorem SoftLists.frame {x : Timers ι} (hi : SoftLists base (ticks h) (deadline h) (SoftTimers.startedAt h) x)
    (ha : started s a = none) (htick : a ≠ .tick) :
    SoftLists base (ticks ((s, a) :: h)) (deadline ((s, a) :: h)) (SoftTimers.startedAt ((s, a) :: h)) x := by
  rw [ticks_other htick, deadline_not_started ha, startedAt_not_started ha]
  exact hi

/-! ### The steps of the others -/

/-- The timers in the list after a step were there before, or are started by it. -/
def OthersIn (s : SoftState ι ν) (a : SoftAction ι ν) (l : List ι) : Prop :=
  ∀ u ∈ l, u ∈ s.timers.softList ∧ started s a ≠ some u ∨ started s a = some u

theorem Aimed.other {next : BitVec 32} (hi : Aimed base h s next) (ha : a ≠ .thread)
    (hin : OthersIn s a s'.timers.softList) : Aimed base ((s, a) :: h) s' next where
  next := by
    rw [aim_other ha]
    exact hi.next
  near := by
    have hle : ticks h ≤ ticks ((s, a) :: h) := by
      by_cases htick : a = .tick
      · subst htick
        exact Nat.le_succ _
      · rw [ticks_other htick]
    have := hi.near
    rw [aim_other ha]
    omega
  first u hu := by
    rcases hin u hu with ⟨hu, hne⟩ | hstart
    · rcases hi.first u hu with hf | hle
      · exact .inl (.inr ⟨not_reads ha, hf⟩)
      · rw [aim_other ha, deadline_other hne]
        exact .inr hle
    · exact .inl (.inl hstart)

theorem PcOk.other (hi : PcOk base h s) (ha : a ≠ .thread) (hpc : s'.pc = s.pc)
    (hin : OthersIn s a s'.timers.softList) : PcOk base ((s, a) :: h) s' := by
  unfold PcOk at hi ⊢
  rw [hpc]
  cases hs : s.pc with
  | suspend =>
    simp only [hs] at hi ⊢
    intro u hu
    rcases hin u hu with ⟨hu, -⟩ | hstart
    · exact .inr ⟨not_reads ha, hi u hu⟩
    · exact .inl hstart
  | getTick next =>
    simp only [hs] at hi ⊢
    exact hi.other ha hin
  | delay next current =>
    simp only [hs] at hi ⊢
    exact hi.other ha hin
  | _ => trivial

theorem NotForgotten.other (hi : NotForgotten base h s) (ha : a ≠ .thread)
    (hlists : SoftLists base (ticks ((s, a) :: h)) (deadline ((s, a) :: h)) (SoftTimers.startedAt ((s, a) :: h))
      s'.timers)
    (hwake : s'.wake = s.wake) (hin : ∀ u ∈ s'.timers.softList, u ∈ s.timers.softList ∧ started s a ≠ some u) :
    NotForgotten base ((s, a) :: h) s' where
  empty hnone := List.eq_nil_iff_forall_not_mem.mpr fun u hu => by
    have := (hin u hu).1
    simp [hi.empty (hwake ▸ hnone)] at this
  wake w hw := by
    rw [wakeTick_other ha]
    exact hi.wake w (hwake ▸ hw)
  timeout := hlists.timeout
  early hne u hu := by
    rw [wakeTick_other ha, deadline_other (hin u hu).2]
    exact hi.early (hwake ▸ hne) u (hin u hu).1

/-- A step of the others, that does not start a soft timer while the thread sleeps and all are quiet. -/
theorem SoftInv.other (hi : SoftInv base h s) (ha : a ≠ .thread)
    (hlists : SoftLists base (ticks ((s, a) :: h)) (deadline ((s, a) :: h)) (SoftTimers.startedAt ((s, a) :: h))
      s'.timers)
    (hbusy : s'.busy = s.busy) (hpc : s'.pc = s.pc) (hin : OthersIn s a s'.timers.softList)
    (hsuspended : s'.suspended = true → s.suspended = true)
    (hasleep : s'.suspended = true → Quiet s' → Quiet s ∧ s'.wake = s.wake ∧
      ∀ u ∈ s'.timers.softList, started s a ≠ some u) : SoftInv base ((s, a) :: h) s' where
  lists := hlists
  startedAt := startedAt_le hi.startedAt
  busy hb := hpc ▸ hi.busy (hbusy ▸ hb)
  pc := hi.pc.other ha hpc hin
  suspended hs := hpc ▸ hi.suspended (hsuspended hs)
  asleep hs hquiet := by
    obtain ⟨hq, hwake, hnot⟩ := hasleep hs hquiet
    exact (hi.asleep (hsuspended hs) hq).other ha hlists hwake fun u hu =>
      ⟨((hin u hu).resolve_right (hnot u hu)).1, hnot u hu⟩

variable [DecidableEq ν]

theorem softInv_op (hi : SoftInv base h s) {o : TimerOp ι} (hs : softStep s (.op o) = some s') :
    SoftInv base ((s, .op o) :: h) s' := by
  have ho : ∀ u, o ≠ .start u := by
    rintro u rfl
    simp [softStep] at hs
  obtain ⟨x, hx, rfl⟩ : ∃ x, s.timers.op o = some x ∧ { s with timers := x } = s' := by
    cases o with
    | start u => exact absurd rfl (ho u)
    | _ => simpa only [softStep, Option.map_eq_some_iff] using hs
  have hlists : SoftLists base (ticks h) (deadline h) (SoftTimers.startedAt h) x ∧
      x.softList.Sublist s.timers.softList := by
    rcases op_cases hx with ⟨t, rfl, -⟩ | ⟨t, y, -, rfl, -⟩ | ⟨t, y, -, -, -, rfl, hattached, hsame⟩
    · exact absurd rfl (ho t)
    · exact ⟨hi.lists.drop t y, List.erase_sublist⟩
    · refine ⟨hi.lists.set hattached fun hat => ?_, .refl _⟩
      rcases hsame with ⟨-, htimeout, -⟩ | ⟨hnot, -⟩
      · exact htimeout
      · simp [hnot] at hat
  refine hi.other (by simp) (hlists.1.frame rfl (by simp)) rfl rfl (fun u hu => .inl ⟨hlists.2.subset hu, nofun⟩) id
    fun _ hquiet => ⟨hquiet, rfl, nofun⟩

theorem softInv_start (hi : SoftInv base h s) {n : ν} (hok : StartOk h s (.start n t))
    (hs : softStep s (.start n t) = some s') : SoftInv base ((s, .start n t) :: h) s' := by
  simp only [softStep, Option.ite_none_right_eq_some, Option.map_eq_some_iff] at hs
  obtain ⟨hidle, x, hx, rfl⟩ := hs
  have ha : started s (.start n t) = some t := rfl
  have hlists := hi.lists.start hx (fun u => Nat.lt_succ_of_le (hi.startedAt u)) (hok t rfl)
  obtain ⟨-, -, -, -, hother, hself, hrow⟩ := rtTimerStart_spec hx
  have hne (u : ι) (hu : u ∈ s.timers.softList.erase t) : u ∈ s.timers.softList ∧ started s (.start n t) ≠ some u :=
    ⟨List.mem_of_mem_erase hu, fun he =>
      ne_of_mem_of_not_mem hu hi.lists.softList_nodup.not_mem_erase (Option.some.inj he).symm⟩
  refine hi.other (by simp) ?_ rfl rfl (fun u hu => ?_) id fun _ hquiet => ?_
  · rw [ticks_other (by simp), deadline_started ha, startedAt_started ha]
    exact hlists
  · split_ifs at hrow
    · rcases mem_insertRow.mp (hrow.2 ▸ hu) with rfl | hu
      · exact .inr rfl
      · exact .inl (hne u hu)
    · exact .inl (hne u (hrow.2 ▸ hu))
  · -- the user of a soft timer still has to test whether the thread is suspended
    have hstarter := hquiet n
    dsimp only at hstarter
    rw [Function.update_self, hself] at hstarter
    by_cases hsoft : (s.timers.timer t).soft = true
    · simp [hsoft] at hstarter
    · rw [if_neg hsoft] at hrow
      refine ⟨fun m => ?_, rfl, fun u hu => (hne u (hrow.2 ▸ hu)).2⟩
      by_cases hmn : m = n
      · exact hmn ▸ hidle
      · have := hquiet m
        dsimp only at this
        rwa [Function.update_of_ne hmn] at this

theorem softInv_goOn (hi : SoftInv base h s) {n : ν} (hs : softStep s (.goOn n) = some s') :
    SoftInv base ((s, .goOn n) :: h) s' := by
  have hlists : SoftLists base (ticks ((s, .goOn n) :: h)) (deadline ((s, .goOn n) :: h))
      (SoftTimers.startedAt ((s, .goOn n) :: h)) s.timers := hi.lists.frame rfl (by simp)
  have hin : OthersIn s (.goOn n) s.timers.softList := fun u hu => .inl ⟨hu, nofun⟩
  cases hn : s.starter n with
  | idle => simp [softStep, hn] at hs
  | test =>
    simp only [softStep, hn] at hs
    obtain rfl := Option.some.inj hs
    refine hi.other (by simp) hlists rfl rfl hin id fun hsus hquiet => ?_
    -- a suspended thread is not busy, and will be resumed
    have hbusy : s.busy = false := by
      by_contra hb
      obtain ⟨t, ht⟩ := hi.busy (by simpa using hb)
      exact absurd (ht.symm.trans (hi.suspended hsus)) nofun
    have hstarter := hquiet n
    dsimp only at hstarter
    rw [Function.update_self, if_pos ⟨hbusy, hsus⟩] at hstarter
    exact absurd hstarter nofun
  | resume =>
    simp only [softStep, hn, rtThreadResume] at hs
    split_ifs at hs with hsus
    all_goals
      obtain rfl := Option.some.inj hs
      refine hi.other (by simp) hlists rfl rfl hin ?_ ?_
    · nofun
    · nofun
    · exact id
    · exact fun h => absurd h hsus

theorem softInv_tick (hi : SoftInv base h s) (hs : softStep s .tick = some s') :
    SoftInv base ((s, .tick) :: h) s' := by
  have hlists : SoftLists base (ticks ((s, .tick) :: h)) (deadline ((s, .tick) :: h))
      (SoftTimers.startedAt ((s, .tick) :: h)) { s.timers with tick := s.timers.tick + 1 } := by
    rw [deadline_not_started rfl, startedAt_not_started rfl]
    exact hi.lists.advance
  have hin : OthersIn s .tick s.timers.softList := fun u hu => .inl ⟨hu, nofun⟩
  simp only [softStep, rtThreadResume] at hs
  split_ifs at hs with hwake hsus
  all_goals
    obtain rfl := Option.some.inj hs
    refine hi.other (by simp) hlists rfl rfl hin ?_ ?_
  · nofun
  · nofun
  · exact id
  · exact fun _ hquiet => ⟨hquiet, rfl, nofun⟩
  · exact id
  · exact fun _ hquiet => ⟨hquiet, rfl, nofun⟩

/-! ### The steps of the thread -/

omit [DecidableEq ν] in
theorem SoftInv.thread (hi : SoftInv base h s) (ha : started s .thread = none) (htimers : s'.timers = s.timers)
    (hbusy : s'.busy = true → ∃ t, s'.pc = .callback t) (hpc : PcOk base ((s, .thread) :: h) s')
    (hsuspended : s'.suspended = true → s'.pc = .check)
    (hasleep : s'.suspended = true → Quiet s' → NotForgotten base ((s, .thread) :: h) s') :
    SoftInv base ((s, .thread) :: h) s' where
  lists := by
    rw [htimers]
    exact hi.lists.frame ha (by simp)
  startedAt := startedAt_le hi.startedAt
  busy := hbusy
  pc := hpc
  suspended := hsuspended
  asleep := hasleep

omit [DecidableEq ν] in
theorem softInv_read (hi : SoftInv base h s) (hok : ReadOk s .thread) (hsus : ¬ s.suspended = true)
    (hpc : s.pc = .read) (hs : threadStep s = some s') : SoftInv base ((s, .thread) :: h) s' := by
  have ha : started s .thread = none := by simp [started, hpc]
  have hreads : reads s .thread := hpc
  have hbusy : ¬ s.busy = true := fun hb => by
    obtain ⟨t, ht⟩ := hi.busy hb
    exact absurd (hpc.symm.trans ht) nofun
  unfold threadStep at hs
  rw [if_neg hsus] at hs
  simp only [hpc] at hs
  cases hlist : s.timers.softList with
  | nil =>
    rw [rtTimerListNextTimeout, hlist, if_pos rfl] at hs
    obtain rfl := Option.some.inj hs
    refine hi.thread ha rfl (fun hb => absurd hb hbusy) ?_ (fun h => absurd h hsus) fun h => absurd h hsus
    intro t ht
    simp [hlist] at ht
  | cons t rest =>
    have hnext : rtTimerListNextTimeout s.timers = (s.timers.timer t).timeoutTick := by
      rw [rtTimerListNextTimeout, hlist]
    have ht : t ∈ s.timers.softList := by simp [hlist]
    rw [hnext, if_neg (hok hreads t (by simp [hlist]))] at hs
    obtain rfl := Option.some.inj hs
    have haim : aim ((s, .thread) :: h) = deadline h t := by rw [aim, if_pos hreads, hlist]
    refine hi.thread ha rfl (fun hb => absurd hb hbusy) ⟨?_, ?_, fun u hu => .inr ?_⟩ (fun h => absurd h hsus)
      fun h => absurd h hsus
    · rw [haim]
      exact hi.lists.timeout t ht
    · rw [haim]
      exact hi.lists.near t ht
    · rw [haim, deadline_not_started ha]
      exact hi.lists.head_le hlist u hu

omit [DecidableEq ν] in
theorem softInv_suspend (hi : SoftInv base h s) (hok : SuspendOk h s .thread) (hsus : ¬ s.suspended = true)
    (hpc : s.pc = .suspend) (hs : threadStep s = some s') : SoftInv base ((s, .thread) :: h) s' := by
  have ha : started s .thread = none := by simp [started, hpc]
  unfold threadStep at hs
  rw [if_neg hsus] at hs
  simp only [hpc] at hs
  obtain rfl := Option.some.inj hs
  have hfresh : ∀ t ∈ s.timers.softList, Fresh h t := by
    simpa only [PcOk, hpc] using hi.pc
  refine hi.thread ha rfl (fun hb => ?_) trivial (fun _ => rfl) fun _ hquiet => ?_
  · obtain ⟨t, ht⟩ := hi.busy hb
    exact absurd (hpc.symm.trans ht) nofun
  · have hempty : s.timers.softList = [] :=
      List.eq_nil_iff_forall_not_mem.mpr fun u hu => hok hquiet hpc rfl u hu (hfresh u hu)
    exact ⟨fun _ => hempty, nofun, by simp [hempty], by simp [hempty]⟩

omit [DecidableEq ν] in
theorem softInv_getTick (hi : SoftInv base h s) (hsus : ¬ s.suspended = true) {next : BitVec 32}
    (hpc : s.pc = .getTick next) (hs : threadStep s = some s') : SoftInv base ((s, .thread) :: h) s' := by
  have ha : started s .thread = none := by simp [started, hpc]
  have hreads : ¬ reads s .thread := fun hr => absurd (hpc.symm.trans hr) nofun
  have haim : aim ((s, .thread) :: h) = aim h := if_neg hreads
  unfold threadStep at hs
  rw [if_neg hsus] at hs
  simp only [hpc] at hs
  obtain rfl := Option.some.inj hs
  have haimed : Aimed base h s next := by simpa only [PcOk, hpc] using hi.pc
  refine hi.thread ha rfl (fun hb => ?_) ⟨?_, ?_, fun u hu => ?_⟩ (fun h => absurd h hsus) fun h => absurd h hsus
  · obtain ⟨t, ht⟩ := hi.busy hb
    exact absurd (hpc.symm.trans ht) nofun
  · rw [haim]
    exact haimed.next
  · rw [haim]
    exact haimed.near
  · rw [haim, deadline_not_started ha]
    exact (haimed.first u hu).imp_left fun hf => .inr ⟨hreads, hf⟩

omit [DecidableEq ν] in
theorem softInv_delay (hi : SoftInv base h s) (hok : DelayOk h s .thread) (hsus : ¬ s.suspended = true)
    {next current : BitVec 32} (hpc : s.pc = .delay next current) (hs : threadStep s = some s') :
    SoftInv base ((s, .thread) :: h) s' := by
  have ha : started s .thread = none := by simp [started, hpc]
  have hbusy : ¬ s.busy = true := fun hb => by
    obtain ⟨t, ht⟩ := hi.busy hb
    exact absurd (hpc.symm.trans ht) nofun
  have haimed : Aimed base h s next := by simpa only [PcOk, hpc] using hi.pc
  unfold threadStep at hs
  rw [if_neg hsus] at hs
  simp only [hpc] at hs
  by_cases hlt : (next - current).toNat < rtTickMax / 2
  · rw [if_pos hlt] at hs
    obtain rfl := Option.some.inj hs
    refine hi.thread ha rfl (fun hb => absurd hb hbusy) trivial (fun _ => rfl) fun _ hquiet => ?_
    obtain ⟨hcurrent, hpast, hfirst⟩ := hok hquiet rfl current (by rw [delays, hpc]; exact if_pos hlt)
    have hmax : rtTickMax / 2 + rtTickMax / 2 ≤ 2 ^ 32 := by decide
    have hnear := haimed.near
    -- the deadline has not passed, so the distance is what is left until it
    rw [← hcurrent, haimed.next, hi.lists.tick] at hlt
    have hle : ticks h ≤ aim h := (stamp_sub_lt_iff hpast (by omega) (by decide)).mp hlt
    have hwake : wakeTick ((s, .thread) :: h) = aim h := by
      simp only [wakeTick, hpc]
      rw [← hcurrent, haimed.next, hi.lists.tick, if_pos hlt, stamp_sub_of_le hle (by omega)]
      omega
    refine ⟨nofun, fun w hw => ?_, fun u hu => ?_, fun _ u hu => ?_⟩
    · obtain rfl := Option.some.inj hw
      rw [hwake, ← hcurrent, ← haimed.next, BitVec.add_comm, BitVec.sub_add_cancel]
    · rw [deadline_not_started ha]
      exact hi.lists.timeout u hu
    · rw [hwake, deadline_not_started ha]
      exact (haimed.first u hu).elim (hfirst u hu) id
  · rw [if_neg hlt] at hs
    obtain rfl := Option.some.inj hs
    exact hi.thread ha rfl (fun hb => absurd hb hbusy) trivial (fun h => absurd h hsus) fun h => absurd h hsus

omit [DecidableEq ν] in
/-- A round of the check, for what `rt_soft_timer_check` has done before it. -/
theorem SoftInv.round {x : SoftState ι ν} (hi : SoftInv base h s) (hsus : ¬ x.suspended = true) (hbusy : x.busy = false)
    (hlists : SoftLists base (ticks ((s, .thread) :: h)) (deadline ((s, .thread) :: h))
      (SoftTimers.startedAt ((s, .thread) :: h)) x.timers) : SoftInv base ((s, .thread) :: h) (checkRound x) := by
  obtain ⟨hround, hsame, hpc⟩ := hlists.round
  have hnot : ¬ (checkRound x).suspended = true := hsame ▸ hsus
  refine
    { lists := hround
      startedAt := startedAt_le hi.startedAt
      busy := fun hb => ?_
      pc := ?_
      suspended := fun h => absurd h hnot
      asleep := fun h => absurd h hnot }
  · rcases hpc with ⟨-, hkept⟩ | hcallback
    · rw [hkept, hbusy] at hb
      exact absurd hb nofun
    · exact hcallback
  · rcases hpc with ⟨hread, -⟩ | ⟨t, ht⟩
    · simp only [PcOk, hread]
    · simp only [PcOk, ht]

omit [DecidableEq ν] in
theorem softInv_check (hi : SoftInv base h s) (hsus : ¬ s.suspended = true) (hpc : s.pc = .check)
    (hs : threadStep s = some s') : SoftInv base ((s, .thread) :: h) s' := by
  have ha : started s .thread = none := by simp [started, hpc]
  unfold threadStep at hs
  rw [if_neg hsus] at hs
  simp only [hpc] at hs
  obtain rfl := Option.some.inj hs
  refine hi.round hsus ?_ (hi.lists.frame ha (by simp))
  by_contra hb
  obtain ⟨t, ht⟩ := hi.busy (by simpa using hb)
  exact absurd (hpc.symm.trans ht) nofun

omit [DecidableEq ν] in
theorem softInv_callback (hi : SoftInv base h s) (hok : StartOk h s .thread) (hsus : ¬ s.suspended = true)
    (hpc : s.pc = .callback t) (hs : threadStep s = some s') : SoftInv base ((s, .thread) :: h) s' := by
  unfold threadStep at hs
  rw [if_neg hsus] at hs
  simp only [hpc] at hs
  obtain ⟨x, hx, rfl⟩ := Option.map_eq_some_iff.mp hs
  refine hi.round hsus rfl ?_
  dsimp only
  rcases finish_cases hi.lists.nodup hx with ⟨hr, hstart⟩ | ⟨hr, hx⟩
  · have ha : started s .thread = some t := by simp only [started, hpc, hr, ↓reduceIte]
    rw [ticks_other (by simp), deadline_started ha, startedAt_started ha]
    exact hi.lists.start hstart (fun u => Nat.lt_succ_of_le (hi.startedAt u)) (hok t ha)
  · have ha : started s .thread = none := by simp [started, hpc, hr]
    refine SoftLists.frame ?_ ha (by simp)
    rcases hx with ⟨-, rfl⟩ | ⟨-, rfl, -⟩
    · exact hi.lists
    · have hdrop := hi.lists.drop t (s.timers.timer t)
      rwa [show (s.timers.remove t).setTimer t (s.timers.timer t) = s.timers.remove t from setTimer_self _ _] at hdrop

theorem softInv_step (hi : SoftInv base h s) (hok : InTime h s a) (hs : softStep s a = some s') :
    SoftInv base ((s, a) :: h) s' := by
  cases a with
  | op o => exact softInv_op hi hs
  | start n t => exact softInv_start hi hok.start hs
  | goOn n => exact softInv_goOn hi hs
  | tick => exact softInv_tick hi hs
  | thread =>
    have hs : threadStep s = some s' := hs
    by_cases hsus : s.suspended = true
    · rw [threadStep, if_pos hsus] at hs
      exact absurd hs nofun
    · cases hpc : s.pc with
      | read => exact softInv_read hi hok.read hsus hpc hs
      | suspend => exact softInv_suspend hi hok.suspend hsus hpc hs
      | getTick next => exact softInv_getTick hi hsus hpc hs
      | delay next current => exact softInv_delay hi hok.delay hsus hpc hs
      | check => exact softInv_check hi hsus hpc hs
      | callback t => exact softInv_callback hi hok.start hsus hpc hs

theorem softInv (hrun : (softTimers ι ν base).Run h s) (hok : Throughout InTime h) : SoftInv base h s := by
  refine hrun.invariant (I := fun h s => SoftInv base h s) ?_ ?_ hok
  · rintro s ⟨hlist, hsoft, htemp, htick, hbusy, hsus, hpc, -⟩
    exact
      { lists :=
          { tick := htick.trans stamp_zero.symm
            nodup := by simp [hlist, hsoft, htemp]
            attached := by simp [hlist, hsoft, htemp]
            timeout := by simp [hsoft]
            near := by simp [hsoft]
            sorted := by simp [hsoft] }
        startedAt := fun _ => Nat.zero_le _
        busy := by simp [hbusy]
        pc := by simp only [PcOk, hpc]
        suspended := by simp [hsus]
        asleep := by simp [hsus] }
  · rintro h s a s' - hi hok hs
    exact softInv_step hi hok hs

/-- In a run whose steps all are in time: whenever the thread is suspended and no user is in `rt_timer_start`, the list
is empty or a wake-up is pending that is not later than any deadline. -/
theorem soft_timers (hrun : (softTimers ι ν base).Run h s) (hok : Throughout InTime h) :
    Throughout (fun h s _ => s.suspended = true → Quiet s → NotForgotten base h s) h ∧
      (s.suspended = true → Quiet s → NotForgotten base h s) :=
  ⟨hrun.throughout (I := fun h s => SoftInv base h s) (fun _ _ hr hg => softInv hr hg)
    (fun _ _ _ _ _ hi _ _ => hi.asleep) hok, (softInv hrun hok).asleep⟩

section tests

variable [Fintype ν]

instance : Decidable (Quiet s) := inferInstanceAs (Decidable (∀ n, s.starter n = .idle))

instance : Decidable (ReadOk s a) :=
  inferInstanceAs (Decidable (reads s a → ∀ t ∈ s.timers.softList.head?, (s.timers.timer t).timeoutTick ≠ noTimeout))

instance : Decidable (SuspendOk h s a) :=
  inferInstanceAs (Decidable (Quiet s → s.pc = .suspend → a = .thread → ∀ t ∈ s.timers.softList, ¬ Fresh h t))

/-- Not over all numbers `current`. -/
instance : Decidable (DelayOk h s a) :=
  have (p : BitVec 32 → Prop) [DecidablePred p] : Decidable (∀ current ∈ delays s, p current) :=
    Option.decidableForallMem (delays s)
  inferInstanceAs (Decidable (Quiet s → a = .thread → ∀ current ∈ delays s, s.timers.tick = current ∧
    ticks h - aim h + rtTickMax / 2 ≤ 2 ^ 32 ∧ ∀ t ∈ s.timers.softList, Fresh h t → aim h ≤ deadline h t))

instance : Decidable (StartOk h s a) :=
  inferInstanceAs (Decidable (∀ t ∈ started s a, (s.timers.timer t).soft = true → ∀ u ∈ s.timers.softList, u ≠ t →
    ticks h + (s.timers.timer t).initTick.toNat - deadline h u + rtTickMax / 2 ≤ 2 ^ 32))

instance : Decidable (InTime h s a) :=
  decidable_of_iff (ReadOk s a ∧ SuspendOk h s a ∧ DelayOk h s a ∧ StartOk h s a)
    ⟨fun ⟨hread, hsuspend, hdelay, hstart⟩ => ⟨hread, hsuspend, hdelay, hstart⟩,
      fun ⟨hread, hsuspend, hdelay, hstart⟩ => ⟨hread, hsuspend, hdelay, hstart⟩⟩

end tests

/-- Two timers that are not in use; the counter is about to wrap. -/
def softStart : SoftState Bool Unit where
  timers :=
    { timer := fun _ =>
        { initTick := 0, timeoutTick := 0, activated := false, periodic := false, soft := false, attached := false }
      list := []
      softList := []
      temp := []
      tick := 4294967294 }
  busy := false
  suspended := false
  wake := none
  pc := .read
  starter := fun _ => .idle

theorem softInit_start : SoftInit 4294967294 softStart where
  list := rfl
  softList := rfl
  temp := rfl
  tick := rfl
  busy := rfl
  suspended := rfl
  pc := rfl
  starter _ := rfl

/-- An interrupt starts a timer after the thread has read the empty list: the thread suspends itself all the same. -/
theorem started_before_the_suspension : ∃ h s, (softTimers Bool Unit 4294967294).Run h s ∧ Quiet s ∧
    s.suspended = true ∧ s.wake = none ∧ s.timers.softList = [true] :=
  System.exists_run (S := softTimers Bool Unit 4294967294) softInit_start
    [.op (.init true 3 true true), .thread, .start () true, .goOn (), .thread]
    (fun _ s => Quiet s ∧ s.suspended = true ∧ s.wake = none ∧ s.timers.softList = [true]) (by decide +kernel)

theorem deadline_tick_max : ∃ h s, (softTimers Bool Unit 4294967294).Run h s ∧ Quiet s ∧
    s.suspended = true ∧ s.wake = none ∧ s.timers.softList = [true] :=
  System.exists_run (S := softTimers Bool Unit 4294967294) softInit_start
    [.op (.init true 1 true true), .start () true, .goOn (), .thread, .thread]
    (fun _ s => Quiet s ∧ s.suspended = true ∧ s.wake = none ∧ s.timers.softList = [true]) (by decide +kernel)

/-- The thread sleeps until the deadline of one timer, and is resumed when an earlier one is started. -/
theorem soft_timers_run : ∃ h s, (softTimers Bool Unit 4294967294).Run h s ∧ NotForgotten 4294967294 h s ∧
    s.timers.softList = [false, true] ∧ s.wake = some 0#32 := by
  obtain ⟨h, s, hrun, hok, hsuspended, hquiet, hlist, hwake⟩ :=
    System.exists_run (S := softTimers Bool Unit 4294967294) softInit_start
      [.op (.init true 4 true true), .op (.init false 2 false true), .start () true, .goOn (), .thread, .thread,
        .thread, .start () false, .goOn (), .goOn (), .thread, .thread, .thread, .thread]
      (fun h s => Throughout InTime h ∧ s.suspended = true ∧ Quiet s ∧ s.timers.softList = [false, true] ∧
        s.wake = some 0#32) (by decide +kernel)
  exact ⟨h, s, hrun, (soft_timers hrun hok).2 hsuspended hquiet, hlist, hwake⟩

end runs

end ThyristorController.SoftTimers
