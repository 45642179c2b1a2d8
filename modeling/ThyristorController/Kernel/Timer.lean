import ThyristorController.Kernel.RtDef
import ThyristorController.Lib.Clock
import ThyristorController.Lib.Run
import Mathlib.Data.List.Nodup
import Mathlib.Data.Fintype.Basic
import Mathlib.Data.Prod.Lex

/-!
# Timers (`src/timer.c`)

The operations on timers, with one row in each list (`RT_TIMER_SKIP_LIST_LEVEL` is 1), and `rt_timer_check`, which the
tick interrupt calls after it has increased the tick counter. A timeout function may do any of the operations while it
runs, on its own timer too.

`timer_lists` says when the flag `RT_TIMER_FLAG_ACTIVATED` and the lists agree, and that the list of the hard timers is
sorted, across the wrap of the counter.
-/

namespace ThyristorController.TimerLists

open Transition Clock

/-! ## The operations -/

/-- `struct rt_timer`: the flags of `parent.flag`, and whether it is an object of the class (`rt_timer_init`). -/
structure RtTimer where
  initTick : BitVec 32
  timeoutTick : BitVec 32
  activated : Bool
  periodic : Bool
  soft : Bool
  attached : Bool

/-- The timers, `rt_timer_list`, `rt_soft_timer_list`, and the temporary list of the check. -/
structure Timers (ι : Type) where
  timer : ι → RtTimer
  list : List ι
  softList : List ι
  temp : List ι
  tick : BitVec 32

/-- The operations of the users of a timer. -/
inductive TimerOp (ι : Type) where
  | init (t : ι) (time : BitVec 32) (periodic soft : Bool)
  | start (t : ι)
  | stop (t : ι)
  | setTime (t : ι) (time : BitVec 32)
  | setOneshot (t : ι)
  | setPeriodic (t : ι)
  | detach (t : ι)
deriving DecidableEq

/-- The argument `timer`. -/
def TimerOp.timer {ι : Type} : TimerOp ι → ι
  | .init t _ _ _ | .start t | .stop t | .setTime t _ | .setOneshot t | .setPeriodic t | .detach t => t

namespace Timers

variable {ι : Type} [DecidableEq ι]

def setTimer (s : Timers ι) (t : ι) (x : RtTimer) : Timers ι := { s with timer := Function.update s.timer t x }

/-- `_rt_timer_remove`; the row of a timer is in at most one list. -/
def remove (s : Timers ι) (t : ι) : Timers ι :=
  { s with list := s.list.erase t, softList := s.softList.erase t, temp := s.temp.erase t }

/-- The search of `rt_timer_start`, and the insertion. -/
def insertRow (timer : ι → RtTimer) (t : ι) : List ι → List ι
  | [] => [t]
  | u :: l =>
    let diff := (timer u).timeoutTick - (timer t).timeoutTick
    if diff = 0 then u :: insertRow timer t l
    else if diff.toNat < rtTickMax / 2 then t :: u :: l
    else u :: insertRow timer t l

/-- `rt_timer_start`, without the wake-up of the timer thread; `none` is a failed assertion. -/
def rtTimerStart (s : Timers ι) (t : ι) : Option (Timers ι) :=
  if (s.timer t).attached = true ∧ (s.timer t).initTick.toNat < rtTickMax / 2 then
    let x := { s.timer t with timeoutTick := s.tick + (s.timer t).initTick, activated := true }
    let s := (s.remove t).setTimer t x
    if x.soft = true then some { s with softList := insertRow s.timer t s.softList }
    else some { s with list := insertRow s.timer t s.list }
  else none

/-- `rt_timer_stop`. -/
def rtTimerStop (s : Timers ι) (t : ι) : Option (Timers ι) :=
  if (s.timer t).attached = true then
    if (s.timer t).activated = true then some ((s.remove t).setTimer t { s.timer t with activated := false })
    else some s
  else none

/-- `rt_timer_control`, with the commands that set something. -/
def rtTimerControl (s : Timers ι) (t : ι) (set : RtTimer → RtTimer) : Option (Timers ι) :=
  if (s.timer t).attached = true then some (s.setTimer t (set (s.timer t))) else none

/-- `rt_timer_detach`. -/
def rtTimerDetach (s : Timers ι) (t : ι) : Option (Timers ι) :=
  if (s.timer t).attached = true then
    some ((s.remove t).setTimer t { s.timer t with activated := false, attached := false })
  else none

/-- `rt_timer_init` of a timer that is not an object. -/
def rtTimerInit (s : Timers ι) (t : ι) (time : BitVec 32) (periodic soft : Bool) : Option (Timers ι) :=
  if (s.timer t).attached = true then none
  else
    some (s.setTimer t
      { initTick := time, timeoutTick := 0, activated := false, periodic := periodic, soft := soft, attached := true })

def op (s : Timers ι) : TimerOp ι → Option (Timers ι)
  | .init t time periodic soft => s.rtTimerInit t time periodic soft
  | .start t => s.rtTimerStart t
  | .stop t => s.rtTimerStop t
  | .setTime t time => s.rtTimerControl t fun x => { x with initTick := time }
  | .setOneshot t => s.rtTimerControl t fun x => { x with periodic := false }
  | .setPeriodic t => s.rtTimerControl t fun x => { x with periodic := true }
  | .detach t => s.rtTimerDetach t

/-- The timer is due: the test of `rt_timer_check` and of `rt_soft_timer_check`. -/
def due (s : Timers ι) (current : BitVec 32) (t : ι) : Bool :=
  decide ((current - (s.timer t).timeoutTick).toNat < rtTickMax / 2)

/-- What a check does before it calls the timeout function. -/
def expire (s : Timers ι) (t : ι) : Timers ι :=
  let s := s.remove t
  let s := if (s.timer t).periodic = true then s else s.setTimer t { s.timer t with activated := false }
  { s with temp := t :: s.temp }

/-- The timer is started again when its timeout function returns. -/
def restarts (s : Timers ι) (t : ι) : Bool := s.temp ≠ [] ∧ (s.timer t).periodic = true ∧ (s.timer t).activated = true

/-- What a check does behind the timeout function. -/
def finish (s : Timers ι) (t : ι) : Option (Timers ι) :=
  if s.temp = [] then some s
  else
    let s := s.remove t
    if (s.timer t).periodic = true ∧ (s.timer t).activated = true then
      (s.setTimer t { s.timer t with activated := false }).rtTimerStart t
    else some s

end Timers

/-! ## The system -/

/-- Where `rt_timer_check` is: not called; in its loop, with its variable `current_tick`; in a timeout function. -/
inductive CheckPc (ι : Type) where
  | idle
  | check (current : BitVec 32)
  | callback (t : ι)
deriving DecidableEq

structure TimerState (ι : Type) where
  timers : Timers ι
  pc : CheckPc ι

/-- An operation, outside of the check or of a timeout function; the tick interrupt; a round of the loop; the return
of a timeout function. -/
inductive TimerAction (ι : Type) where
  | op (o : TimerOp ι)
  | tick
  | check
  | ret
deriving DecidableEq

variable {ι : Type} [DecidableEq ι]

def timerStep (s : TimerState ι) : TimerAction ι → Option (TimerState ι)
  | .op o =>
    match s.pc with
    | .check _ => none
    | _ => (s.timers.op o).map fun x => { s with timers := x }
  | .tick =>
    match s.pc with
    | .idle =>
      some { timers := { s.timers with tick := s.timers.tick + 1 }, pc := .check (s.timers.tick + 1) }
    | _ => none
  | .check =>
    match s.pc with
    | .check current =>
      match s.timers.list with
      | [] => some { s with pc := .idle }
      | t :: _ =>
        if s.timers.due current t then some { timers := s.timers.expire t, pc := .callback t }
        else some { s with pc := .idle }
    | _ => none
  | .ret =>
    match s.pc with
    | .callback t => (s.timers.finish t).map fun x => { timers := x, pc := .check x.tick }
    | _ => none

/-- No timer is started; the tick counter has any value. -/
structure TimerInit (base : BitVec 32) (s : TimerState ι) : Prop where
  list : s.timers.list = []
  softList : s.timers.softList = []
  temp : s.timers.temp = []
  tick : s.timers.tick = base
  activated : ∀ t, (s.timers.timer t).activated = false
  pc : s.pc = .idle

def timers (ι : Type) [DecidableEq ι] (base : BitVec 32) : System (TimerState ι) (TimerAction ι) where
  init := TimerInit base
  step := timerStep

/-! ## What happened in a run -/

/-- How often the tick counter was increased. -/
def ticks : History (TimerState ι) (TimerAction ι) → Nat
  | [] => 0
  | (_, .tick) :: h => ticks h + 1
  | (_, _) :: h => ticks h

/-- The timer that a step starts: an operation, or the check when a timeout function returns. -/
def started (s : TimerState ι) : TimerAction ι → Option ι
  | .op (.start t) => some t
  | .ret =>
    match s.pc with
    | .callback t => if s.timers.restarts t then some t else none
    | _ => none
  | _ => none

/-- The tick at which a timer ends, as set by its last start. -/
def deadline : History (TimerState ι) (TimerAction ι) → ι → Nat
  | [], _ => 0
  | (s, a) :: h, t =>
    if started s a = some t then ticks h + (s.timers.timer t).initTick.toNat else deadline h t

/-- The number of the step that last started a timer. -/
def startedAt : History (TimerState ι) (TimerAction ι) → ι → Nat
  | [], _ => 0
  | (s, a) :: h, t => if started s a = some t then h.length + 1 else startedAt h t

/-! ## The lists -/

/-- Timers are ordered by their deadlines, and those with the same one by their starts. -/
def rank (deadline startedAt : ι → Nat) (t : ι) : ℕ ×ₗ ℕ := toLex (deadline t, startedAt t)

/-- The lists at tick `n`: every timer is in one of them at most, and is an object. -/
structure Placed (base : BitVec 32) (n : Nat) (s : Timers ι) : Prop where
  tick : s.tick = stamp base n
  nodup : (s.list ++ (s.softList ++ s.temp)).Nodup
  attached : ∀ t ∈ s.list ++ (s.softList ++ s.temp), (s.timer t).attached = true

/-- One list at tick `n`, if timer `t` has the deadline `D t` and was started in step `Q t`. -/
structure Row (base : BitVec 32) (n : Nat) (D Q : ι → Nat) (timer : ι → RtTimer) (l : List ι) : Prop where
  timeout : ∀ t ∈ l, (timer t).timeoutTick = stamp base (D t)
  near : ∀ t ∈ l, D t < n + rtTickMax / 2
  sorted : l.Pairwise fun t u => rank D Q t < rank D Q u

/-- The list of the hard timers at tick `n`: no deadline has passed. -/
structure ListsOk (base : BitVec 32) (n : Nat) (D Q : ι → Nat) (s : Timers ι) : Prop extends
    Placed base n s, Row base n D Q s.timer s.list where
  ahead : ∀ t ∈ s.list, n ≤ D t

section lists

variable {base : BitVec 32} {n q : Nat} {D Q : ι → Nat} {s s' : Timers ι} {t u : ι} {l : List ι}
  {timer : ι → RtTimer}

omit [DecidableEq ι] in
theorem rank_lt : rank D Q t < rank D Q u ↔ D t < D u ∨ D t = D u ∧ Q t < Q u := Prod.Lex.toLex_lt_toLex

omit [DecidableEq ι] in
theorem insertRow_eq (timer : ι → RtTimer) (t : ι) (l : List ι) :
    Timers.insertRow timer t l = Ordered.insert (fun u =>
      decide ((timer u).timeoutTick - (timer t).timeoutTick ≠ 0#32 ∧
        ((timer u).timeoutTick - (timer t).timeoutTick).toNat < rtTickMax / 2)) t l := by
  induction l with
  | nil => rfl
  | cons u l ih =>
    rw [Timers.insertRow, Ordered.insert, ← ih]
    by_cases hzero : (timer u).timeoutTick - (timer t).timeoutTick = 0#32
    · simp [hzero]
    · simp [hzero]

omit [DecidableEq ι] in
@[simp] theorem mem_insertRow : u ∈ Timers.insertRow timer t l ↔ u = t ∨ u ∈ l := by
  rw [insertRow_eq]
  exact Ordered.mem_insert

omit [DecidableEq ι] in
theorem insertRow_perm : (Timers.insertRow timer t l).Perm (t :: l) := by
  rw [insertRow_eq]
  exact Ordered.insert_perm

omit [DecidableEq ι] in
theorem insertRow_sorted (hl : l.Pairwise fun u v => rank D Q u < rank D Q v)
    (hself : (timer t).timeoutTick = stamp base (D t))
    (htimeout : ∀ u ∈ l, (timer u).timeoutTick = stamp base (D u))
    (hnear : ∀ u ∈ l, D t - D u + rtTickMax / 2 ≤ 2 ^ 32 ∧ D u - D t < rtTickMax / 2) (hq : ∀ u ∈ l, Q u < Q t) :
    (Timers.insertRow timer t l).Pairwise fun u v => rank D Q u < rank D Q v := by
  have hstop (u : ι) (hu : u ∈ l) : ((timer u).timeoutTick - (timer t).timeoutTick ≠ 0#32 ∧
      ((timer u).timeoutTick - (timer t).timeoutTick).toNat < rtTickMax / 2) ↔ D t < D u := by
    obtain ⟨hpast, hfuture⟩ := hnear u hu
    have hmax : rtTickMax / 2 < 2 ^ 32 := by decide
    have hpos : 0 < rtTickMax / 2 := by decide
    rw [htimeout u hu, hself, Ne, stamp_sub_eq_zero_iff (by omega) (by omega),
      stamp_sub_lt_iff hpast hfuture hmax]
    omega
  rw [insertRow_eq]
  refine Ordered.pairwise_insert hl (fun u hu hs => ?_) fun u hu hs => ?_
  · exact rank_lt.mpr (.inl ((hstop u hu).mp (of_decide_eq_true hs)))
  · have hle : ¬ D t < D u := fun hlt => of_decide_eq_false hs ((hstop u hu).mpr hlt)
    have := hq u hu
    exact rank_lt.mpr (by omega)

theorem rtTimerStart_spec (hs : s.rtTimerStart t = some s') :
    (s.timer t).attached = true ∧ (s.timer t).initTick.toNat < rtTickMax / 2 ∧ s'.tick = s.tick ∧
      s'.temp = s.temp.erase t ∧ (∀ u, u ≠ t → s'.timer u = s.timer u) ∧
      s'.timer t = { s.timer t with timeoutTick := s.tick + (s.timer t).initTick, activated := true } ∧
      if (s.timer t).soft = true then
        s'.list = s.list.erase t ∧ s'.softList = Timers.insertRow s'.timer t (s.softList.erase t)
      else s'.list = Timers.insertRow s'.timer t (s.list.erase t) ∧ s'.softList = s.softList.erase t := by
  unfold Timers.rtTimerStart at hs
  split_ifs at hs with hok
  dsimp only at hs
  by_cases hsoft : (s.timer t).soft = true
  all_goals
    first
      | rw [if_pos hsoft] at hs ⊢
      | rw [if_neg hsoft] at hs ⊢
    obtain rfl := Option.some.inj hs
    exact ⟨hok.1, hok.2, rfl, rfl, fun u hut => Function.update_of_ne hut _ _, Function.update_self .., rfl, rfl⟩

theorem rtTimerStart_defined (hattached : (s.timer t).attached = true)
    (hinit : (s.timer t).initTick.toNat < rtTickMax / 2) : ∃ s', s.rtTimerStart t = some s' := by
  rw [Timers.rtTimerStart, if_pos ⟨hattached, hinit⟩]
  dsimp only
  split_ifs
  · exact ⟨_, rfl⟩
  · exact ⟨_, rfl⟩

section row

variable {timer' : ι → RtTimer} {l' : List ι}

omit [DecidableEq ι] in
theorem Row.sub (hr : Row base n D Q timer l) (hl : l'.Sublist l)
    (htimeout : ∀ u ∈ l', (timer' u).timeoutTick = (timer u).timeoutTick) : Row base n D Q timer' l' where
  timeout u hu := (htimeout u hu).trans (hr.timeout u (hl.subset hu))
  near u hu := hr.near u (hl.subset hu)
  sorted := hr.sorted.sublist hl

omit [DecidableEq ι] in
theorem Row.later (hr : Row base n D Q timer l) : Row base (n + 1) D Q timer l where
  timeout := hr.timeout
  near u hu := (hr.near u hu).trans_le (by omega)
  sorted := hr.sorted

theorem Row.update (hr : Row base n D Q timer l) (ht : t ∉ l) (d q : Nat) :
    Row base n (Function.update D t d) (Function.update Q t q) timer l := by
  have hsame (u : ι) (hu : u ∈ l) : Function.update D t d u = D u ∧ Function.update Q t q u = Q u :=
    ⟨Function.update_of_ne (ne_of_mem_of_not_mem hu ht) _ _, Function.update_of_ne (ne_of_mem_of_not_mem hu ht) _ _⟩
  refine ⟨fun u hu => ?_, fun u hu => ?_, hr.sorted.imp_of_mem fun {u v} hu hv hlt => ?_⟩
  · rw [(hsame u hu).1]
    exact hr.timeout u hu
  · rw [(hsame u hu).1]
    exact hr.near u hu
  · rw [rank_lt] at hlt ⊢
    rwa [(hsame u hu).1, (hsame u hu).2, (hsame v hv).1, (hsame v hv).2]

omit [DecidableEq ι] in
/-- A timer enters the list, if no deadline in it is too far behind that of the timer. -/
theorem Row.insert (hr : Row base n D Q timer l) (hself : (timer t).timeoutTick = stamp base (D t)) (hle : n ≤ D t)
    (hlt : D t < n + rtTickMax / 2) (hfar : ∀ u ∈ l, D t - D u + rtTickMax / 2 ≤ 2 ^ 32) (hq : ∀ u ∈ l, Q u < Q t) :
    Row base n D Q timer (Timers.insertRow timer t l) where
  timeout u hu := by
    rcases mem_insertRow.mp hu with rfl | hu
    · exact hself
    · exact hr.timeout u hu
  near u hu := by
    rcases mem_insertRow.mp hu with rfl | hu
    · exact hlt
    · exact hr.near u hu
  sorted := insertRow_sorted hr.sorted hself hr.timeout
    (fun u hu => ⟨hfar u hu, by have := hr.near u hu; omega⟩) hq

theorem Row.start_leave (hr : Row base n D Q s.timer l) (hl : l.Nodup) (hs : s.rtTimerStart t = some s') (d q : Nat) :
    Row base n (Function.update D t d) (Function.update Q t q) s'.timer (l.erase t) := by
  obtain ⟨-, -, -, -, hother, -⟩ := rtTimerStart_spec hs
  have hnot : t ∉ l.erase t := hl.not_mem_erase
  refine Row.update (hr.sub List.erase_sublist fun u hu => ?_) hnot d q
  rw [hother u (ne_of_mem_of_not_mem hu hnot)]

theorem Row.start_enter (hr : Row base n D Q s.timer l) (hl : l.Nodup) (htick : s.tick = stamp base n)
    (hs : s.rtTimerStart t = some s') (hq : ∀ u, Q u < q)
    (hfar : ∀ u ∈ l.erase t, n + (s.timer t).initTick.toNat - D u + rtTickMax / 2 ≤ 2 ^ 32) :
    Row base n (Function.update D t (n + (s.timer t).initTick.toNat)) (Function.update Q t q) s'.timer
      (Timers.insertRow s'.timer t (l.erase t)) := by
  obtain ⟨-, hinit, -, -, -, hself, -⟩ := rtTimerStart_spec hs
  have hne (u : ι) (hu : u ∈ l.erase t) : u ≠ t := ne_of_mem_of_not_mem hu hl.not_mem_erase
  refine (hr.start_leave hl hs _ _).insert ?_ ?_ ?_ (fun u hu => ?_) fun u hu => ?_
  · rw [hself, Function.update_self, stamp_add, htick, BitVec.ofNat_toNat, BitVec.setWidth_eq]
  · rw [Function.update_self]
    omega
  · rw [Function.update_self]
    omega
  · rw [Function.update_self, Function.update_of_ne (hne u hu)]
    exact hfar u hu
  · rw [Function.update_self, Function.update_of_ne (hne u hu)]
    exact hq u

omit [DecidableEq ι] in
theorem Row.due_iff (hr : Row base n D Q s.timer l) (htick : s.tick = stamp base n) (ht : t ∈ l)
    (hlate : n - D t < rtTickMax / 2) : s.due s.tick t = true ↔ D t ≤ n := by
  have hnear := hr.near t ht
  have hmax : rtTickMax / 2 + rtTickMax / 2 ≤ 2 ^ 32 := by decide
  rw [Timers.due, decide_eq_true_eq, htick, hr.timeout t ht, stamp_sub_lt_iff (by omega) (by omega) (by decide)]

end row

theorem nodup_remove (h : (s.list ++ (s.softList ++ s.temp)).Nodup) (t : ι) :
    ((s.remove t).list ++ ((s.remove t).softList ++ (s.remove t).temp)).Nodup :=
  h.sublist ((List.erase_sublist ..).append ((List.erase_sublist ..).append (List.erase_sublist ..)))

theorem mem_of_mem_remove
    (hu : u ∈ (s.remove t).list ++ ((s.remove t).softList ++ (s.remove t).temp)) :
    u ∈ s.list ++ (s.softList ++ s.temp) :=
  ((List.erase_sublist ..).append ((List.erase_sublist ..).append (List.erase_sublist ..))).subset hu

theorem not_mem_remove (h : (s.list ++ (s.softList ++ s.temp)).Nodup) (t : ι) :
    t ∉ (s.remove t).list ++ ((s.remove t).softList ++ (s.remove t).temp) := by
  obtain ⟨hlist, hrest, -⟩ := List.nodup_append'.mp h
  obtain ⟨hsoft, htemp, -⟩ := List.nodup_append'.mp hrest
  simp only [List.mem_append, not_or]
  exact ⟨hlist.not_mem_erase, hsoft.not_mem_erase, htemp.not_mem_erase⟩

omit [DecidableEq ι] in
theorem Placed.list_nodup (hi : Placed base n s) : s.list.Nodup := (List.nodup_append'.mp hi.nodup).1

omit [DecidableEq ι] in
theorem Placed.softList_nodup (hi : Placed base n s) : s.softList.Nodup :=
  (List.nodup_append'.mp (List.nodup_append'.mp hi.nodup).2.1).1

theorem Placed.drop (hi : Placed base n s) (t : ι) (x : RtTimer) : Placed base n ((s.remove t).setTimer t x) where
  tick := hi.tick
  nodup := nodup_remove hi.nodup t
  attached u hu := by
    rw [show ((s.remove t).setTimer t x).timer u = s.timer u from
      Function.update_of_ne (ne_of_mem_of_not_mem hu (not_mem_remove hi.nodup t)) _ _]
    exact hi.attached u (mem_of_mem_remove hu)

theorem Row.drop (hr : Row base n D Q s.timer l) (hl : l.Nodup) (t : ι) (x : RtTimer) :
    Row base n D Q ((s.remove t).setTimer t x).timer (l.erase t) :=
  hr.sub List.erase_sublist fun u hu => by
    rw [show ((s.remove t).setTimer t x).timer u = s.timer u from
      Function.update_of_ne (ne_of_mem_of_not_mem hu hl.not_mem_erase) _ _]

theorem ListsOk.drop (hi : ListsOk base n D Q s) (t : ι) (x : RtTimer) :
    ListsOk base n D Q ((s.remove t).setTimer t x) where
  toPlaced := hi.toPlaced.drop t x
  toRow := hi.toRow.drop hi.list_nodup t x
  ahead u hu := hi.ahead u (List.mem_of_mem_erase hu)

/-- Fields of a timer are set: of one that is an object, no others than its period and kind. -/
theorem Placed.set (hi : Placed base n s) {x : RtTimer} (hx : x.attached = true) :
    Placed base n (s.setTimer t x) where
  tick := hi.tick
  nodup := hi.nodup
  attached u hu := by
    by_cases hut : u = t
    · rw [hut, show (s.setTimer t x).timer t = x from Function.update_self ..]
      exact hx
    · rw [show (s.setTimer t x).timer u = s.timer u from Function.update_of_ne hut ..]
      exact hi.attached u hu

theorem Row.set (hr : Row base n D Q s.timer l) {x : RtTimer}
    (htimeout : t ∈ l → x.timeoutTick = (s.timer t).timeoutTick) : Row base n D Q (s.setTimer t x).timer l :=
  hr.sub (.refl l) fun u hu => by
    by_cases hut : u = t
    · subst hut
      rw [show (s.setTimer u x).timer u = x from Function.update_self ..]
      exact htimeout hu
    · rw [show (s.setTimer t x).timer u = s.timer u from Function.update_of_ne hut ..]

theorem ListsOk.set (hi : ListsOk base n D Q s) {x : RtTimer} (hx : x.attached = true)
    (htimeout : (s.timer t).attached = true → x.timeoutTick = (s.timer t).timeoutTick) :
    ListsOk base n D Q (s.setTimer t x) where
  toPlaced := hi.toPlaced.set hx
  toRow := hi.toRow.set fun ht => htimeout (hi.attached t (List.mem_append_left _ ht))
  ahead := hi.ahead

theorem start_perm (hs : s.rtTimerStart t = some s') :
    (s'.list ++ (s'.softList ++ s'.temp)).Perm
      (t :: ((s.remove t).list ++ ((s.remove t).softList ++ (s.remove t).temp))) := by
  obtain ⟨-, -, -, htemp, -, -, hlists⟩ := rtTimerStart_spec hs
  split_ifs at hlists with hsoft
  all_goals rw [hlists.1, hlists.2, htemp]
  · exact ((insertRow_perm.append_right _).append_left _).trans List.perm_middle
  · exact insertRow_perm.append_right _

theorem Placed.start (hi : Placed base n s) (hs : s.rtTimerStart t = some s') : Placed base n s' := by
  obtain ⟨hok, -, htick, -, hother, hself, -⟩ := rtTimerStart_spec hs
  have hnot := not_mem_remove hi.nodup t
  refine ⟨htick.trans hi.tick, ?_, fun u hu => ?_⟩
  · exact (start_perm hs).nodup_iff.mpr (List.nodup_cons.mpr ⟨hnot, nodup_remove hi.nodup t⟩)
  · rcases List.mem_cons.mp ((start_perm hs).mem_iff.mp hu) with rfl | hu
    · rw [hself]
      exact hok
    · rw [hother u (ne_of_mem_of_not_mem hu hnot)]
      exact hi.attached u (mem_of_mem_remove hu)

theorem ListsOk.start (hi : ListsOk base n D Q s) (hs : s.rtTimerStart t = some s') (hq : ∀ u, Q u < q) :
    ListsOk base n (Function.update D t (n + (s.timer t).initTick.toNat)) (Function.update Q t q) s' := by
  obtain ⟨-, hinit, -, -, -, -, hlists⟩ := rtTimerStart_spec hs
  have hnodup := hi.list_nodup
  have hahead (u : ι) (hu : u ∈ s.list.erase t) :
      n ≤ Function.update D t (n + (s.timer t).initTick.toNat) u := by
    rw [Function.update_of_ne (ne_of_mem_of_not_mem hu hnodup.not_mem_erase)]
    exact hi.ahead u (List.mem_of_mem_erase hu)
  split_ifs at hlists with hsoft
  · obtain ⟨hlist, -⟩ := hlists
    exact ⟨hi.toPlaced.start hs, hlist ▸ hi.toRow.start_leave hnodup hs _ q, hlist ▸ hahead⟩
  · obtain ⟨hlist, -⟩ := hlists
    refine ⟨hi.toPlaced.start hs, hlist ▸ hi.toRow.start_enter hnodup hi.tick hs hq fun u hu => ?_, fun u hu => ?_⟩
    · have := hi.ahead u (List.mem_of_mem_erase hu)
      have : rtTickMax / 2 + rtTickMax / 2 ≤ 2 ^ 32 := by decide
      omega
    · rw [hlist] at hu
      rcases mem_insertRow.mp hu with rfl | hu
      · rw [Function.update_self]
        omega
      · exact hahead u hu

/-- What an operation does: it starts a timer; it removes one, if it was started; or it sets fields. -/
theorem op_cases {o : TimerOp ι} (hs : s.op o = some s') :
    (∃ t, o = .start t ∧ s.rtTimerStart t = some s') ∨
    (∃ t x, (o = .stop t ∨ o = .detach t) ∧ s' = (s.remove t).setTimer t x ∧ x.activated = false) ∨
    (∃ t x, o.timer = t ∧ (∀ u, o ≠ .start u ∧ o ≠ .detach u) ∧ (o = .stop t → (s.timer t).activated = false) ∧
      s' = s.setTimer t x ∧ x.attached = true ∧
      ((s.timer t).attached = true ∧ x.timeoutTick = (s.timer t).timeoutTick ∧
        x.activated = (s.timer t).activated ∧ x.soft = (s.timer t).soft ∨
      (s.timer t).attached = false ∧ x.activated = false)) := by
  cases o with
  | init t time periodic soft =>
    simp only [Timers.op, Timers.rtTimerInit] at hs
    split_ifs at hs with hattached
    obtain rfl := Option.some.inj hs
    exact .inr (.inr ⟨t, _, rfl, by simp, by simp, rfl, rfl, .inr ⟨by simpa using hattached, rfl⟩⟩)
  | start t => exact .inl ⟨t, rfl, hs⟩
  | stop t =>
    simp only [Timers.op, Timers.rtTimerStop] at hs
    split_ifs at hs with hattached hactivated
    · obtain rfl := Option.some.inj hs
      exact .inr (.inl ⟨t, _, .inl rfl, rfl, rfl⟩)
    · obtain rfl := Option.some.inj hs
      refine .inr (.inr ⟨t, s.timer t, rfl, by simp, fun _ => by simpa using hactivated, ?_, hattached,
        .inl ⟨hattached, rfl, rfl, rfl⟩⟩)
      rw [Timers.setTimer, Function.update_eq_self]
  | setTime t time | setOneshot t | setPeriodic t =>
    simp only [Timers.op, Timers.rtTimerControl] at hs
    split_ifs at hs with hattached
    obtain rfl := Option.some.inj hs
    exact .inr (.inr ⟨t, _, rfl, by simp, by simp, rfl, hattached, .inl ⟨hattached, rfl, rfl, rfl⟩⟩)
  | detach t =>
    simp only [Timers.op, Timers.rtTimerDetach] at hs
    split_ifs at hs with hattached
    obtain rfl := Option.some.inj hs
    exact .inr (.inl ⟨t, _, .inr rfl, rfl, rfl⟩)

theorem remove_remove (h : (s.list ++ (s.softList ++ s.temp)).Nodup) (t : ι) : (s.remove t).remove t = s.remove t := by
  have hnot := not_mem_remove h t
  simp only [List.mem_append, not_or] at hnot
  unfold Timers.remove at hnot ⊢
  rw [List.erase_of_not_mem hnot.1, List.erase_of_not_mem hnot.2.1, List.erase_of_not_mem hnot.2.2]

/-- What a check does behind a timeout function: it starts the timer again, or leaves it alone. -/
theorem finish_cases (h : (s.list ++ (s.softList ++ s.temp)).Nodup) (hs : s.finish t = some s') :
    s.restarts t = true ∧ s.rtTimerStart t = some s' ∨
    s.restarts t = false ∧ (s.temp = [] ∧ s' = s ∨
      s.temp ≠ [] ∧ s' = s.remove t ∧ ¬ ((s.timer t).periodic = true ∧ (s.timer t).activated = true)) := by
  unfold Timers.finish at hs
  by_cases htemp : s.temp = []
  · rw [if_pos htemp] at hs
    exact .inr ⟨by simp [Timers.restarts, htemp], .inl ⟨htemp, (Option.some.inj hs).symm⟩⟩
  · rw [if_neg htemp] at hs
    dsimp only at hs
    rw [show (s.remove t).timer = s.timer from rfl] at hs
    by_cases hflags : (s.timer t).periodic = true ∧ (s.timer t).activated = true
    · rw [if_pos hflags] at hs
      refine .inl ⟨by simp [Timers.restarts, htemp, hflags], ?_⟩
      have hself : ((s.remove t).setTimer t { s.timer t with activated := false }).timer t =
          { s.timer t with activated := false } := Function.update_self ..
      have hremove : ((s.remove t).setTimer t { s.timer t with activated := false }).remove t =
          (s.remove t).setTimer t { s.timer t with activated := false } :=
        congrArg (fun x => Timers.setTimer x t { s.timer t with activated := false }) (remove_remove h t)
      unfold Timers.rtTimerStart at hs ⊢
      rw [hself, hremove] at hs
      simp only [Timers.setTimer, Function.update_idem] at hs ⊢
      exact hs
    · rw [if_neg hflags] at hs
      exact .inr ⟨by simpa [Timers.restarts, htemp] using hflags,
        .inr ⟨htemp, (Option.some.inj hs).symm, hflags⟩⟩

theorem expire_spec (s : Timers ι) (t : ι) :
    (s.expire t).list = s.list.erase t ∧ (s.expire t).softList = s.softList.erase t ∧
      (s.expire t).temp = t :: s.temp.erase t ∧ (s.expire t).tick = s.tick ∧
      (∀ u, u ≠ t → (s.expire t).timer u = s.timer u) ∧
      (s.expire t).timer t = { s.timer t with activated := (s.timer t).periodic && (s.timer t).activated } := by
  have hflag : (s.remove t).timer = s.timer := rfl
  unfold Timers.expire
  dsimp only
  rw [hflag]
  by_cases hp : (s.timer t).periodic = true
  · rw [if_pos hp, hp, Bool.true_and]
    exact ⟨rfl, rfl, rfl, rfl, fun _ _ => rfl, by rw [← hp]; rfl⟩
  · rw [if_neg hp, Bool.eq_false_iff.mpr hp, Bool.false_and]
    refine ⟨rfl, rfl, rfl, rfl, fun u hut => Function.update_of_ne hut .., ?_⟩
    rw [← Bool.eq_false_iff.mpr hp]
    exact Function.update_self ..

theorem Placed.expire (hi : Placed base n s) (ht : t ∈ s.list ++ (s.softList ++ s.temp)) :
    Placed base n (s.expire t) := by
  obtain ⟨hlist, hsoft, htemp, htick, hother, hself⟩ := expire_spec s t
  have hnot := not_mem_remove hi.nodup t
  have hperm : ((s.expire t).list ++ ((s.expire t).softList ++ (s.expire t).temp)).Perm
      (t :: ((s.remove t).list ++ ((s.remove t).softList ++ (s.remove t).temp))) := by
    rw [hlist, hsoft, htemp]
    exact (List.perm_middle.append_left _).trans List.perm_middle
  refine ⟨htick.trans hi.tick, ?_, fun u hu => ?_⟩
  · exact hperm.nodup_iff.mpr (List.nodup_cons.mpr ⟨hnot, nodup_remove hi.nodup t⟩)
  · rcases List.mem_cons.mp (hperm.mem_iff.mp hu) with rfl | hu
    · rw [hself]
      exact hi.attached u ht
    · rw [hother u (ne_of_mem_of_not_mem hu hnot)]
      exact hi.attached u (mem_of_mem_remove hu)

theorem Row.expire (hr : Row base n D Q s.timer l) (hl : l.Nodup) (t : ι) :
    Row base n D Q (s.expire t).timer (l.erase t) := by
  obtain ⟨-, -, -, -, hother, -⟩ := expire_spec s t
  refine hr.sub List.erase_sublist fun u hu => ?_
  rw [hother u (ne_of_mem_of_not_mem hu hl.not_mem_erase)]

theorem ListsOk.expire (hi : ListsOk base n D Q s) (ht : t ∈ s.list) : ListsOk base n D Q (s.expire t) := by
  have hlist : (s.expire t).list = s.list.erase t := (expire_spec s t).1
  refine ⟨hi.toPlaced.expire (List.mem_append_left _ ht), hlist ▸ hi.toRow.expire hi.list_nodup t, fun u hu => ?_⟩
  rw [hlist] at hu
  exact hi.ahead u (List.mem_of_mem_erase hu)

omit [DecidableEq ι] in
theorem ListsOk.due_iff (hi : ListsOk base n D Q s) (ht : t ∈ s.list) : s.due s.tick t = true ↔ D t = n := by
  have hahead := hi.ahead t ht
  have hpos : 0 < rtTickMax / 2 := by decide
  rw [hi.toRow.due_iff hi.tick ht (by omega)]
  omega

omit [DecidableEq ι] in
theorem ListsOk.future_of_head (hi : ListsOk base n D Q s) (hnone : ∀ t ∈ s.list.head?, s.due s.tick t = false)
    (u : ι) (hu : u ∈ s.list) : n < D u := by
  cases hlist : s.list with
  | nil => simp [hlist] at hu
  | cons t rest =>
    have ht : t ∈ s.list := by simp [hlist]
    have hdue := hnone t (by simp [hlist])
    have hne : D t ≠ n := fun he => by simp [(hi.due_iff ht).mpr he] at hdue
    have hlt : n < D t := by
      have := hi.ahead t ht
      omega
    have hsorted := hi.sorted
    rw [hlist] at hu hsorted
    rcases List.mem_cons.mp hu with rfl | hu
    · exact hlt
    · have := rank_lt.mp ((List.pairwise_cons.mp hsorted).1 u hu)
      omega

omit [DecidableEq ι] in
theorem Placed.advance (hi : Placed base n s) : Placed base (n + 1) { s with tick := s.tick + 1 } where
  tick := by
    rw [stamp_succ]
    exact congrArg (· + 1) hi.tick
  nodup := hi.nodup
  attached := hi.attached

omit [DecidableEq ι] in
theorem ListsOk.advance (hi : ListsOk base n D Q s) (hfuture : ∀ u ∈ s.list, n < D u) :
    ListsOk base (n + 1) D Q { s with tick := s.tick + 1 } :=
  ⟨hi.toPlaced.advance, hi.toRow.later, hfuture⟩

omit [DecidableEq ι] in
theorem ListsOk.dist (hi : ListsOk base n D Q s) (ht : t ∈ s.list) :
    ((s.timer t).timeoutTick - s.tick).toNat = D t - n := by
  have hnear := hi.near t ht
  have hmax : rtTickMax / 2 ≤ 2 ^ 32 := by decide
  rw [hi.tick, hi.timeout t ht]
  exact stamp_sub_of_le (hi.ahead t ht) (by omega)

theorem setTimer_self (s : Timers ι) (t : ι) : s.setTimer t (s.timer t) = s := by
  rw [Timers.setTimer, Function.update_eq_self]

/-! ## The flag -/

/-- Apart from the timer whose function runs, the timers with the flag are those in the lists. -/
def FlagsOk (s : Timers ι) : Prop :=
  ∀ t, t ∉ s.temp → ((s.timer t).activated = true ↔ t ∈ s.list ∨ t ∈ s.softList)

theorem FlagsOk.other (hf : FlagsOk s) (hut : u ≠ t) (htimer : s'.timer u = s.timer u)
    (hlist : u ∈ s'.list ↔ u ∈ (s.remove t).list) (hsoft : u ∈ s'.softList ↔ u ∈ (s.remove t).softList)
    (htemp : u ∉ (s.remove t).temp) :
    (s'.timer u).activated = true ↔ u ∈ s'.list ∨ u ∈ s'.softList := by
  have hmem (l : List ι) : u ∈ l.erase t ↔ u ∈ l := List.mem_erase_of_ne hut
  simp only [Timers.remove, hmem] at hlist hsoft htemp
  rw [htimer, hlist, hsoft]
  exact hf u htemp

theorem FlagsOk.start (hf : FlagsOk s) (hs : s.rtTimerStart t = some s') : FlagsOk s' := by
  obtain ⟨-, -, -, htemp, hother, hself, hlists⟩ := rtTimerStart_spec hs
  intro u hu
  rw [htemp] at hu
  by_cases hut : u = t
  · subst hut
    rw [hself]
    split_ifs at hlists
    all_goals simp [hlists.1, hlists.2]
  · split_ifs at hlists
    all_goals
      refine hf.other hut (hother u hut) ?_ ?_ hu
      · simp [hlists.1, Timers.remove, hut]
      · simp [hlists.2, Timers.remove, hut]

theorem FlagsOk.drop (hf : FlagsOk s) (hnodup : (s.list ++ (s.softList ++ s.temp)).Nodup) {x : RtTimer}
    (hx : x.activated = false) : FlagsOk ((s.remove t).setTimer t x) := by
  intro u hu
  by_cases hut : u = t
  · subst hut
    have hnot := not_mem_remove hnodup u
    simp only [List.mem_append, not_or] at hnot
    rw [show ((s.remove u).setTimer u x).timer u = x from Function.update_self ..]
    simp [hx, Timers.setTimer, hnot.1, hnot.2.1]
  · exact hf.other hut (Function.update_of_ne hut ..) .rfl .rfl hu

theorem FlagsOk.set (hf : FlagsOk s) {x : RtTimer}
    (hx : x.activated = (s.timer t).activated ∨ x.activated = false ∧ t ∉ s.list ∧ t ∉ s.softList) :
    FlagsOk (s.setTimer t x) := by
  intro u hu
  by_cases hut : u = t
  · subst hut
    rw [show (s.setTimer u x).timer u = x from Function.update_self ..]
    rcases hx with hx | ⟨hx, hlist, hsoft⟩
    · rw [hx]
      exact hf u hu
    · simp [hx, Timers.setTimer, hlist, hsoft]
  · rw [show (s.setTimer t x).timer u = s.timer u from Function.update_of_ne hut ..]
    exact hf u hu

theorem FlagsOk.expire (hf : FlagsOk s) (t : ι) : FlagsOk (s.expire t) := by
  obtain ⟨hlist, hsoft, htemp, -, hother, -⟩ := expire_spec s t
  intro u hu
  rw [htemp, List.mem_cons, not_or] at hu
  exact hf.other hu.1 (hother u hu.1) (by rw [hlist]; rfl) (by rw [hsoft]; rfl) hu.2

theorem flagsOk_remove (hf : FlagsOk s) (hnodup : (s.list ++ (s.softList ++ s.temp)).Nodup) :
    FlagsOk (s.remove t) ↔ (s.timer t).activated = false := by
  have hnot := not_mem_remove hnodup t
  simp only [List.mem_append, not_or] at hnot
  constructor
  · intro hf'
    have hiff := hf' t hnot.2.2
    rw [show (s.remove t).timer = s.timer from rfl] at hiff
    simpa [hnot.1, hnot.2.1] using hiff
  · intro hflag u hu
    by_cases hut : u = t
    · subst hut
      simp [show (s.remove u).timer u = s.timer u from rfl, hflag, hnot.1, hnot.2.1]
    · exact hf.other hut rfl .rfl .rfl hu

end lists

/-! ## All runs -/

/-- Every timer that is started has a period. -/
def PeriodsOk (h : History (TimerState ι) (TimerAction ι)) : Prop :=
  Throughout (fun _ s a => ∀ t, started s a = some t → 0 < (s.timers.timer t).initTick.toNat) h

/-- The invariant of the runs: outside of the check no deadline has been reached. -/
structure TimerInv (base : BitVec 32) (h : History (TimerState ι) (TimerAction ι)) (s : TimerState ι) : Prop where
  lists : ListsOk base (ticks h) (deadline h) (startedAt h) s.timers
  startedAt : ∀ t, startedAt h t ≤ h.length
  future : s.pc = .idle → ∀ t ∈ s.timers.list, ticks h < deadline h t
  temp : ∀ t ∈ s.timers.temp, s.pc = .callback t
  current : ∀ current, s.pc = .check current → current = s.timers.tick

section runs

variable {base : BitVec 32} {h : History (TimerState ι) (TimerAction ι)} {s s' : TimerState ι} {a : TimerAction ι}
  {t : ι}

theorem deadline_started (ha : started s a = some t) :
    deadline ((s, a) :: h) = Function.update (deadline h) t (ticks h + (s.timers.timer t).initTick.toNat) := by
  funext u
  by_cases hut : u = t
  · subst hut
    rw [deadline, if_pos ha, Function.update_self]
  · rw [deadline, if_neg (by rw [ha]; exact fun he => hut (Option.some.inj he).symm), Function.update_of_ne hut]

theorem startedAt_started (ha : started s a = some t) :
    TimerLists.startedAt ((s, a) :: h) = Function.update (TimerLists.startedAt h) t (h.length + 1) := by
  funext u
  by_cases hut : u = t
  · subst hut
    rw [TimerLists.startedAt, if_pos ha, Function.update_self]
  · rw [TimerLists.startedAt, if_neg (by rw [ha]; exact fun he => hut (Option.some.inj he).symm),
      Function.update_of_ne hut]

theorem deadline_not_started (ha : started s a = none) : deadline ((s, a) :: h) = deadline h := by
  funext u
  rw [deadline, if_neg (by simp [ha])]

theorem startedAt_not_started (ha : started s a = none) :
    TimerLists.startedAt ((s, a) :: h) = TimerLists.startedAt h := by
  funext u
  rw [TimerLists.startedAt, if_neg (by simp [ha])]

omit [DecidableEq ι] in
theorem ticks_other (ha : a ≠ .tick) : ticks ((s, a) :: h) = ticks h := by
  cases a <;> first | rfl | exact absurd rfl ha

/-- What a step does. -/
inductive TimerEffect (s : TimerState ι) : TimerAction ι → TimerState ι → Prop
  | opStart {t : ι} {x : Timers ι} (hs : s.timers.rtTimerStart t = some x) :
    TimerEffect s (.op (.start t)) { s with timers := x }
  | opDrop {t : ι} {o : TimerOp ι} (x : RtTimer) (ho : o = .stop t ∨ o = .detach t) (hx : x.activated = false) :
    TimerEffect s (.op o) { s with timers := (s.timers.remove t).setTimer t x }
  | opSet {t : ι} {o : TimerOp ι} (x : RtTimer) (htimer : o.timer = t) (ho : ∀ u, o ≠ .start u ∧ o ≠ .detach u)
      (hstop : o = .stop t → (s.timers.timer t).activated = false) (hx : x.attached = true)
      (hsame : (s.timers.timer t).attached = true ∧ x.timeoutTick = (s.timers.timer t).timeoutTick ∧
          x.activated = (s.timers.timer t).activated ∧ x.soft = (s.timers.timer t).soft ∨
        (s.timers.timer t).attached = false ∧ x.activated = false) :
    TimerEffect s (.op o) { s with timers := s.timers.setTimer t x }
  | tick (hpc : s.pc = .idle) :
    TimerEffect s .tick
      { timers := { s.timers with tick := s.timers.tick + 1 }, pc := .check (s.timers.tick + 1) }
  | due {current : BitVec 32} {t : ι} {rest : List ι} (hpc : s.pc = .check current)
      (hlist : s.timers.list = t :: rest) (hdue : s.timers.due current t = true) :
    TimerEffect s .check { timers := s.timers.expire t, pc := .callback t }
  | leave {current : BitVec 32} (hpc : s.pc = .check current)
      (hnone : ∀ t ∈ s.timers.list.head?, s.timers.due current t = false) :
    TimerEffect s .check { s with pc := .idle }
  | restart {t : ι} {x : Timers ι} (hpc : s.pc = .callback t) (hr : s.timers.restarts t = true)
      (hs : s.timers.rtTimerStart t = some x) :
    TimerEffect s .ret { timers := x, pc := .check x.tick }
  | gone {t : ι} (hpc : s.pc = .callback t) (htemp : s.timers.temp = []) :
    TimerEffect s .ret { s with pc := .check s.timers.tick }
  | finished {t : ι} (hpc : s.pc = .callback t) (htemp : s.timers.temp ≠ [])
      (hflags : ¬ ((s.timers.timer t).periodic = true ∧ (s.timers.timer t).activated = true)) :
    TimerEffect s .ret { timers := s.timers.remove t, pc := .check s.timers.tick }

theorem timerStep_effect (hnodup : (s.timers.list ++ (s.timers.softList ++ s.timers.temp)).Nodup)
    (hs : timerStep s a = some s') : TimerEffect s a s' := by
  cases a with
  | op o =>
    have hop : ∃ x, s.timers.op o = some x ∧ s' = { s with timers := x } := by
      cases hpc : s.pc with
      | check current => simp [timerStep, hpc] at hs
      | idle | callback t =>
        simp only [timerStep, hpc, Option.map_eq_some_iff] at hs
        obtain ⟨x, hx, rfl⟩ := hs
        exact ⟨x, hx, rfl⟩
    obtain ⟨x, hx, rfl⟩ := hop
    rcases op_cases hx with ⟨t, rfl, hstart⟩ | ⟨t, y, ho, rfl, hy⟩ | ⟨t, y, htimer, ho, hstop, rfl, hy, hsame⟩
    · exact .opStart hstart
    · exact .opDrop y ho hy
    · exact .opSet y htimer ho hstop hy hsame
  | tick =>
    cases hpc : s.pc with
    | idle =>
      simp only [timerStep, hpc, Option.some.injEq] at hs
      subst hs
      exact .tick hpc
    | check current => simp [timerStep, hpc] at hs
    | callback t => simp [timerStep, hpc] at hs
  | check =>
    cases hpc : s.pc with
    | idle => simp [timerStep, hpc] at hs
    | callback t => simp [timerStep, hpc] at hs
    | check current =>
      simp only [timerStep, hpc] at hs
      cases hlist : s.timers.list with
      | nil =>
        simp only [hlist, Option.some.injEq] at hs
        subst hs
        exact .leave hpc (by simp [hlist])
      | cons t rest =>
        simp only [hlist] at hs
        split_ifs at hs with hdue
        · obtain rfl := Option.some.inj hs
          exact .due hpc hlist hdue
        · obtain rfl := Option.some.inj hs
          exact .leave hpc (by simpa [hlist] using hdue)
  | ret =>
    cases hpc : s.pc with
    | idle => simp [timerStep, hpc] at hs
    | check current => simp [timerStep, hpc] at hs
    | callback t =>
      simp only [timerStep, hpc, Option.map_eq_some_iff] at hs
      obtain ⟨x, hx, rfl⟩ := hs
      rcases finish_cases hnodup hx with ⟨hr, hstart⟩ | ⟨-, ⟨htemp, rfl⟩ | ⟨htemp, rfl, hflags⟩⟩
      · exact .restart hpc hr hstart
      · exact .gone hpc htemp
      · exact .finished hpc htemp hflags

/-- What a step does to the numbers of the history, if it starts no timer. -/
theorem ListsOk.frame {x : Timers ι} (hi : ListsOk base (ticks h) (deadline h) (TimerLists.startedAt h) x)
    (ha : started s a = none) (htick : a ≠ .tick) :
    ListsOk base (ticks ((s, a) :: h)) (deadline ((s, a) :: h)) (TimerLists.startedAt ((s, a) :: h)) x := by
  rw [ticks_other htick, deadline_not_started ha, startedAt_not_started ha]
  exact hi

theorem startedAt_le (hi : ∀ t, TimerLists.startedAt h t ≤ h.length) (t : ι) :
    TimerLists.startedAt ((s, a) :: h) t ≤ ((s, a) :: h).length := by
  rw [TimerLists.startedAt]
  split_ifs
  · exact le_rfl
  · exact (hi t).trans (Nat.le_succ _)

theorem TimerInv.start (hi : TimerInv base h s) (ha : started s a = some t) (htick : a ≠ .tick)
    (hperiod : 0 < (s.timers.timer t).initTick.toNat) (hs : s.timers.rtTimerStart t = some s'.timers)
    (hpc : s'.pc = s.pc ∨ s.pc = .callback t ∧ s'.pc = .check s'.timers.tick) : TimerInv base ((s, a) :: h) s' := by
  obtain ⟨-, -, hnow, htemp, -, -, hlists⟩ := rtTimerStart_spec hs
  refine
    { lists := ?_
      startedAt := startedAt_le hi.startedAt
      future := fun hidle u hu => ?_
      temp := fun u hu => ?_
      current := fun current hcheck => ?_ }
  · rw [ticks_other htick, deadline_started ha, startedAt_started ha]
    exact hi.lists.start hs fun u => Nat.lt_succ_of_le (hi.startedAt u)
  · rw [ticks_other htick, deadline_started ha]
    by_cases hut : u = t
    · subst hut
      rw [Function.update_self]
      omega
    · rw [Function.update_of_ne hut]
      have hidle' : s.pc = .idle := by
        rcases hpc with hpc | ⟨-, hpc⟩
        · exact hpc ▸ hidle
        · simp [hpc] at hidle
      refine hi.future hidle' u ?_
      split_ifs at hlists
      · rw [hlists.1] at hu
        exact List.mem_of_mem_erase hu
      · rw [hlists.1] at hu
        exact List.mem_of_mem_erase ((mem_insertRow.mp hu).resolve_left hut)
  · rw [htemp] at hu
    have hold := hi.temp u (List.mem_of_mem_erase hu)
    rcases hpc with hpc | ⟨hpc, -⟩
    · exact hpc.trans hold
    · obtain rfl := CheckPc.callback.inj (hpc.symm.trans hold)
      exact absurd (List.mem_append_right _ (List.mem_append_right _ hu)) (not_mem_remove hi.lists.nodup t)
  · rcases hpc with hpc | ⟨-, hpc⟩
    · rw [hnow]
      exact hi.current current (hpc ▸ hcheck)
    · exact (CheckPc.check.inj (hpc.symm.trans hcheck)).symm

theorem timerInv_step (hi : TimerInv base h s)
    (hperiod : ∀ t, started s a = some t → 0 < (s.timers.timer t).initTick.toNat)
    (hs : timerStep s a = some s') : TimerInv base ((s, a) :: h) s' := by
  cases timerStep_effect hi.lists.nodup hs with
  | opStart hstart => exact hi.start rfl (by simp) (hperiod _ rfl) hstart (.inl rfl)
  | @restart t x hpc hr hstart =>
    have ha : started s .ret = some t := by simp only [started, hpc, hr, ↓reduceIte]
    exact hi.start ha (by simp) (hperiod _ ha) hstart (.inr ⟨hpc, rfl⟩)
  | @opDrop t o x ho hx =>
    have ha : started s (.op o) = none := by
      rcases ho with rfl | rfl <;> rfl
    exact
      { lists := (hi.lists.drop t x).frame ha (by simp)
        startedAt := startedAt_le hi.startedAt
        future := fun hidle u hu => by
          rw [ticks_other (by simp), deadline_not_started ha]
          exact hi.future hidle u (List.mem_of_mem_erase hu)
        temp := fun u hu => hi.temp u (List.mem_of_mem_erase hu)
        current := hi.current }
  | @opSet t o x htimer ho hstop hx hsame =>
    have ha : started s (.op o) = none := by
      cases o with
      | start u => exact absurd rfl (ho u).1
      | _ => rfl
    have hset : ListsOk base (ticks h) (deadline h) (TimerLists.startedAt h) (s.timers.setTimer t x) :=
      hi.lists.set hx fun hattached => by
        rcases hsame with ⟨-, htimeout, -⟩ | ⟨hnot, -⟩
        · exact htimeout
        · simp [hnot] at hattached
    exact
      { lists := hset.frame ha (by simp)
        startedAt := startedAt_le hi.startedAt
        future := fun hidle u hu => by
          rw [ticks_other (by simp), deadline_not_started ha]
          exact hi.future hidle u hu
        temp := hi.temp
        current := hi.current }
  | tick hpc =>
    have ha : started s .tick = none := rfl
    exact
      { lists := by
          rw [deadline_not_started ha, startedAt_not_started ha]
          exact hi.lists.advance (hi.future hpc)
        startedAt := startedAt_le hi.startedAt
        future := nofun
        temp := fun u hu => by simpa [hpc] using hi.temp u hu
        current := fun current hcheck => (CheckPc.check.inj hcheck).symm }
  | @due current t rest hpc hlist hdue =>
    have ha : started s .check = none := rfl
    obtain ⟨-, -, htemp, -, -, -⟩ := expire_spec s.timers t
    exact
      { lists := (hi.lists.expire (by simp [hlist])).frame ha (by simp)
        startedAt := startedAt_le hi.startedAt
        future := nofun
        temp := fun u hu => by
          rw [htemp] at hu
          rcases List.mem_cons.mp hu with rfl | hu
          · rfl
          · simpa [hpc] using hi.temp u (List.mem_of_mem_erase hu)
        current := nofun }
  | @leave current hpc hnone =>
    have ha : started s .check = none := rfl
    obtain rfl := hi.current current hpc
    exact
      { lists := hi.lists.frame ha (by simp)
        startedAt := startedAt_le hi.startedAt
        future := fun _ u hu => by
          rw [ticks_other (by simp), deadline_not_started ha]
          exact hi.lists.future_of_head hnone u hu
        temp := fun u hu => by simpa [hpc] using hi.temp u hu
        current := nofun }
  | @gone t hpc htemp =>
    have ha : started s .ret = none := by simp [started, hpc, Timers.restarts, htemp]
    exact
      { lists := hi.lists.frame ha (by simp)
        startedAt := startedAt_le hi.startedAt
        future := nofun
        temp := fun u hu => by simp [htemp] at hu
        current := fun current hcheck => (CheckPc.check.inj hcheck).symm }
  | @finished t hpc htemp hflags =>
    have ha : started s .ret = none := by simpa [started, hpc, Timers.restarts, htemp] using hflags
    have hdrop := hi.lists.drop t (s.timers.timer t)
    rw [show (s.timers.remove t).setTimer t (s.timers.timer t) = s.timers.remove t from setTimer_self _ _] at hdrop
    exact
      { lists := hdrop.frame ha (by simp)
        startedAt := startedAt_le hi.startedAt
        future := nofun
        temp := fun u hu => by
          obtain rfl := CheckPc.callback.inj (hpc.symm.trans (hi.temp u (List.mem_of_mem_erase hu)))
          exact absurd (List.mem_append_right _ (List.mem_append_right _ hu)) (not_mem_remove hi.lists.nodup t)
        current := fun current hcheck => (CheckPc.check.inj hcheck).symm }

theorem timerInv (hrun : (timers ι base).Run h s) (hperiod : PeriodsOk h) : TimerInv base h s := by
  refine hrun.invariant (I := fun h s => TimerInv base h s) ?_ ?_ hperiod
  · rintro s ⟨hlist, hsoft, htemp, htick, -, hpc⟩
    exact
      { lists :=
          { tick := htick.trans stamp_zero.symm
            nodup := by simp [hlist, hsoft, htemp]
            attached := by simp [hlist, hsoft, htemp]
            timeout := by simp [hlist]
            near := by simp [hlist]
            sorted := by simp [hlist]
            ahead := by simp [hlist] }
        startedAt := fun _ => Nat.zero_le _
        future := by simp [hlist]
        temp := by simp [htemp]
        current := by simp [hpc] }
  · rintro h s a s' - hi hp hs
    exact timerInv_step hi hp hs

/-- The lists as they should be: every timer is in one list at most; the hard timers are sorted by the time that is
left, and those that end at the same tick by their starts; the flag is set of the timers in the lists, apart from the
one whose function runs. -/
structure Listed (h : History (TimerState ι) (TimerAction ι)) (s : TimerState ι) : Prop where
  nodup : (s.timers.list ++ (s.timers.softList ++ s.timers.temp)).Nodup
  sorted : s.timers.list.Pairwise fun t u =>
    ((s.timers.timer t).timeoutTick - s.timers.tick).toNat < ((s.timers.timer u).timeoutTick - s.timers.tick).toNat ∨
    (s.timers.timer t).timeoutTick = (s.timers.timer u).timeoutTick ∧ startedAt h t < startedAt h u
  flags : FlagsOk s.timers

/-- When its function returns, a timer that is still in the temporary list and has the flag is periodic. -/
def KindKept (s : TimerState ι) (a : TimerAction ι) : Prop :=
  ∀ t, s.pc = .callback t → a = .ret → t ∈ s.timers.temp → (s.timers.timer t).activated = true →
    (s.timers.timer t).periodic = true

theorem TimerInv.listed (hi : TimerInv base h s) (hf : FlagsOk s.timers) : Listed h s where
  nodup := hi.lists.nodup
  sorted := hi.lists.sorted.imp_of_mem fun {t u} ht hu hlt => by
    have htn := hi.lists.ahead t ht
    have hun := hi.lists.ahead u hu
    rw [hi.lists.dist ht, hi.lists.dist hu]
    rcases rank_lt.mp hlt with hlt | ⟨heq, hlt⟩
    · exact .inl (by omega)
    · exact .inr ⟨by rw [hi.lists.timeout t ht, hi.lists.timeout u hu, heq], hlt⟩
  flags := hf

/-- A step keeps the flags right exactly if the kind of a timer is not changed in its function. -/
theorem flags_step (hi : TimerInv base h s) (hf : FlagsOk s.timers) (hs : timerStep s a = some s') :
    FlagsOk s'.timers ↔ KindKept s a := by
  cases timerStep_effect hi.lists.nodup hs with
  | opStart hstart => exact iff_of_true (hf.start hstart) nofun
  | opDrop x ho hx => exact iff_of_true (hf.drop hi.lists.nodup hx) nofun
  | @opSet t o x htimer ho hstop hx hsame =>
    refine iff_of_true (hf.set ?_) nofun
    rcases hsame with ⟨-, -, hactivated, -⟩ | ⟨hnot, hactivated⟩
    · exact .inl hactivated
    · have hnone : t ∉ s.timers.list ++ (s.timers.softList ++ s.timers.temp) := fun hm => by
        simpa [hnot] using hi.lists.attached t hm
      simp only [List.mem_append, not_or] at hnone
      exact .inr ⟨hactivated, hnone.1, hnone.2.1⟩
  | tick hpc => exact iff_of_true hf nofun
  | due hpc hlist hdue => exact iff_of_true (hf.expire _) nofun
  | leave hpc hnone => exact iff_of_true hf nofun
  | @restart t x hpc hr hstart =>
    refine iff_of_true (hf.start hstart) fun u hu _ _ _ => ?_
    obtain rfl := CheckPc.callback.inj (hpc.symm.trans hu)
    exact (of_decide_eq_true hr).2.1
  | gone hpc htemp => exact iff_of_true hf fun u _ _ hu _ => by simp [htemp] at hu
  | @finished t hpc htemp hflags =>
    obtain ⟨u, hu⟩ := List.exists_mem_of_ne_nil _ htemp
    obtain rfl := CheckPc.callback.inj (hpc.symm.trans (hi.temp u hu))
    rw [flagsOk_remove hf hi.lists.nodup]
    constructor
    · intro hflag u hcb _ _ hactivated
      obtain rfl := CheckPc.callback.inj (hpc.symm.trans hcb)
      simp [hflag] at hactivated
    · intro hkept
      by_contra hne
      have hactivated : (s.timers.timer t).activated = true := by simpa using hne
      exact hflags ⟨hkept t hpc rfl hu hactivated, hactivated⟩

/-- With a period of at least one tick for every timer that is started, and below half of the range of the counter as
the assertion demands: the lists are as they should be in every state of a run exactly if no timeout function returns
after it has made its own periodic timer a one-shot timer that it neither stops, detaches nor starts. -/
theorem timer_lists (hrun : (timers ι base).Run h s) (hperiod : PeriodsOk h) :
    (Throughout (fun h s _ => Listed h s) h ∧ Listed h s) ↔ Throughout (fun _ s a => KindKept s a) h := by
  induction hrun with
  | @init s hs =>
    have hflags : FlagsOk s.timers := fun t _ => by simp [hs.activated, hs.list, hs.softList]
    exact ⟨fun _ => trivial, fun _ => ⟨trivial, (timerInv (.init hs) trivial).listed hflags⟩⟩
  | step hr hs ih =>
    have hi := timerInv hr hperiod.2
    have hi' := timerInv (.step hr hs) hperiod
    constructor
    · rintro ⟨⟨hlisted, hpast⟩, hlisted'⟩
      exact ⟨(flags_step hi hlisted.flags hs).mp hlisted'.flags, (ih hperiod.2).mp ⟨hpast, hlisted⟩⟩
    · rintro ⟨hkept, hpast⟩
      obtain ⟨hthrough, hlisted⟩ := (ih hperiod.2).mpr hpast
      exact ⟨⟨hlisted, hthrough⟩, hi'.listed ((flags_step hi hlisted.flags hs).mpr hkept)⟩

instance [Fintype ι] : Decidable (PeriodsOk h) :=
  inferInstanceAs (Decidable (Throughout (fun _ s a => ∀ t, started s a = some t → 0 < _) h))

instance [Fintype ι] : Decidable (KindKept s a) :=
  inferInstanceAs (Decidable (∀ t, s.pc = .callback t → a = .ret → t ∈ s.timers.temp →
    (s.timers.timer t).activated = true → (s.timers.timer t).periodic = true))

/-- Two timers that are not in use; the counter is about to wrap. -/
def timersStart : TimerState Bool where
  timers :=
    { timer := fun _ =>
        { initTick := 0, timeoutTick := 0, activated := false, periodic := false, soft := false, attached := false }
      list := []
      softList := []
      temp := []
      tick := 4294967294 }
  pc := .idle

theorem timersInit_start : TimerInit 4294967294 timersStart where
  list := rfl
  softList := rfl
  temp := rfl
  tick := rfl
  activated _ := rfl
  pc := rfl

/-- The function of a periodic timer makes it a one-shot timer: it is in no list, and has the flag. -/
theorem activated_in_no_list : ∃ h s, (timers Bool 4294967294).Run h s ∧ PeriodsOk h ∧ s.pc = .idle ∧
    (s.timers.timer true).activated = true ∧ s.timers.list = [] ∧ s.timers.softList = [] ∧ s.timers.temp = [] :=
  System.exists_run (S := timers Bool 4294967294) timersInit_start
    [.op (.init true 1 true false), .op (.start true), .tick, .check, .op (.setOneshot true), .ret, .check]
    (fun h s => PeriodsOk h ∧ s.pc = .idle ∧ (s.timers.timer true).activated = true ∧ s.timers.list = [] ∧
      s.timers.softList = [] ∧ s.timers.temp = []) (by decide +kernel)

/-- Across the wrap, two timers are called, and the periodic one is in the list again. -/
theorem timer_lists_run : ∃ h s, (timers Bool 4294967294).Run h s ∧ Listed h s ∧ s.timers.list = [true] := by
  obtain ⟨h, s, hrun, hperiod, hkept, hlist⟩ := System.exists_run (S := timers Bool 4294967294) timersInit_start
    [.op (.init true 3 true false), .op (.init false 1 false false), .op (.start true), .op (.start false), .tick,
      .check, .ret, .check, .tick, .check, .tick, .check, .op (.start false), .op (.stop false), .ret, .check]
    (fun h s => PeriodsOk h ∧ Throughout (fun _ s a => KindKept s a) h ∧ s.timers.list = [true])
    (by decide +kernel)
  exact ⟨h, s, hrun, ((timer_lists hrun hperiod).mpr hkept).2, hlist⟩

end runs

end ThyristorController.TimerLists
