import ThyristorController.Kernel.Timer

/-!
# Periodic delays (`src/thread.c`)

`rt_thread_delay_until`, which a thread calls again and again with the same variable `*tick` and the same increment.
The timer of the thread makes it ready, and it runs some ticks later. The other threads and timers are left out, as is
the error number of the thread, which nothing reads here.

`*tick` is the tick at which the thread ran, and not the one for which its timer was armed. So each call is late by all
the ticks that the thread has waited for the processor before (`delay_until_drift`).
-/

namespace ThyristorController.DelayUntil

open Transition Clock
open TimerLists (Timers RtTimer)

/-! ## The system -/

/-- Where the thread is: it runs; it is suspended until its timer fires; it is ready. -/
inductive DelayPc where
  | running
  | suspended
  | ready
deriving DecidableEq

/-- The timer of the thread, with the tick counter; and the variable `*tick`. -/
structure DelayState where
  timers : Timers Unit
  stored : BitVec 32
  pc : DelayPc

/-- The tick interrupt; the call, up to `rt_schedule`; the thread is scheduled and returns. -/
inductive DelayAction where
  | tick
  | call
  | goOn
deriving DecidableEq

/-- `rt_tick_increase`, with `rt_timer_check`, which calls `rt_thread_timeout`. One round is enough: the timer is alone
and one-shot. -/
def rtTickIncrease (s : DelayState) : Option DelayState :=
  let w := { s.timers with tick := s.timers.tick + 1 }
  match w.list with
  | [] => some { s with timers := w }
  | t :: _ =>
    if w.due w.tick t then ((w.expire t).finish t).map fun w => { s with timers := w, pc := .ready }
    else some { s with timers := w }

/-- `rt_thread_delay_until` up to `rt_schedule`, or to its end if it does not wait; `none` is a failed assertion. -/
def rtThreadDelayUntil (s : DelayState) (incTick : BitVec 32) : Option DelayState :=
  if s.timers.tick - s.stored < incTick then
    let stored := s.stored + incTick - s.timers.tick
    (s.timers.rtTimerControl () fun x => { x with initTick := stored }).bind fun w =>
      (w.rtTimerStart ()).map fun w => { timers := w, stored := stored, pc := .suspended }
  else some { s with stored := s.timers.tick }

/-- `rt_thread_delay_until` from behind `rt_schedule`: "get the wakeup tick". -/
def delayUntilGoOn (s : DelayState) : DelayState := { s with stored := s.timers.tick, pc := .running }

def delayStep (incTick : BitVec 32) (s : DelayState) : DelayAction → Option DelayState
  | .tick => rtTickIncrease s
  | .call => if s.pc = .running then rtThreadDelayUntil s incTick else none
  | .goOn => if s.pc = .ready then some (delayUntilGoOn s) else none

/-- The thread starts at tick `t₀`, with its timer from `rt_thread_init`. -/
structure DelayInit (t₀ : BitVec 32) (s : DelayState) : Prop where
  tick : s.timers.tick = t₀
  stored : s.stored = t₀
  pc : s.pc = .running
  list : s.timers.list = [] ∧ s.timers.softList = [] ∧ s.timers.temp = []
  timer : (s.timers.timer ()).attached = true ∧ (s.timers.timer ()).periodic = false ∧ (s.timers.timer ()).soft = false

def delayUntil (t₀ incTick : BitVec 32) : System DelayState DelayAction where
  init := DelayInit t₀
  step := delayStep incTick

/-! ## What happened in a run -/

/-- How many ticks have passed. -/
def ticks (h : History DelayState DelayAction) : Nat := count (fun _ a => a = .tick) h

/-- How many calls were made. -/
def calls (h : History DelayState DelayAction) : Nat := count (fun _ a => a = .call) h

/-- How many ticks the thread has been ready, in all its calls. -/
def late (h : History DelayState DelayAction) : Nat := count (fun s a => a = .tick ∧ s.pc = .ready) h

/-- Tick `k` times the increment, and the delays behind the timers. -/
def wakeup (incTick : BitVec 32) (k : Nat) (h : History DelayState DelayAction) : Nat := k * incTick.toNat + late h

/-- A call is made before the tick for which it arms the timer. -/
def InTime (incTick : BitVec 32) (h : History DelayState DelayAction) (_ : DelayState) (a : DelayAction) : Prop :=
  a = .call → ticks h < wakeup incTick (calls h + 1) h

instance (incTick : BitVec 32) (h : History DelayState DelayAction) (s : DelayState) (a : DelayAction) :
    Decidable (InTime incTick h s a) := inferInstanceAs (Decidable (_ → _))

/-- The thread's place and the ticks. -/
structure DelayInv (t₀ incTick : BitVec 32) (h : History DelayState DelayAction) (s : DelayState) : Prop where
  tick : s.timers.tick = stamp t₀ (ticks h)
  timer : (s.timers.timer ()).attached = true ∧ (s.timers.timer ()).periodic = false ∧ (s.timers.timer ()).soft = false
  temp : s.timers.softList = [] ∧ s.timers.temp = []
  running : s.pc = .running → s.timers.list = [] ∧ s.stored = stamp t₀ (wakeup incTick (calls h) h) ∧
    wakeup incTick (calls h) h ≤ ticks h
  suspended : s.pc = .suspended → s.timers.list = [()] ∧
    (s.timers.timer ()).timeoutTick = stamp t₀ (wakeup incTick (calls h) h) ∧ ticks h < wakeup incTick (calls h) h ∧
    wakeup incTick (calls h) h < ticks h + rtTickMax / 2
  ready : s.pc = .ready → s.timers.list = [] ∧ ticks h = wakeup incTick (calls h) h

section delay

variable {t₀ incTick : BitVec 32} {h : History DelayState DelayAction} {s s' : DelayState}

@[simp] theorem ticks_cons (h : History DelayState DelayAction) (s : DelayState) (a : DelayAction) :
    ticks ((s, a) :: h) = ticks h + if a = .tick then 1 else 0 := count_cons

@[simp] theorem calls_cons (h : History DelayState DelayAction) (s : DelayState) (a : DelayAction) :
    calls ((s, a) :: h) = calls h + if a = .call then 1 else 0 := count_cons

@[simp] theorem late_cons (h : History DelayState DelayAction) (s : DelayState) (a : DelayAction) :
    late ((s, a) :: h) = late h + if a = .tick ∧ s.pc = .ready then 1 else 0 := count_cons

theorem wakeup_tick : wakeup incTick (calls ((s, .tick) :: h)) ((s, .tick) :: h) =
    wakeup incTick (calls h) h + if s.pc = .ready then 1 else 0 := by
  simp [wakeup, Nat.add_assoc]

theorem expire_finish {w : Timers Unit} (hlist : w.list = [()]) (hrest : w.softList = [] ∧ w.temp = [])
    (hkind : (w.timer ()).periodic = false) :
    (w.expire ()).finish () = some { w with
      timer := Function.update w.timer () { w.timer () with activated := false }
      list := [] } := by
  obtain ⟨hsoft, htemp⟩ := hrest
  simp [Timers.expire, Timers.finish, Timers.remove, Timers.setTimer, hlist, hsoft, htemp, hkind]

theorem due_iff {w : Timers Unit} {n m : Nat} (htick : w.tick = stamp t₀ n)
    (htimeout : (w.timer ()).timeoutTick = stamp t₀ m) (hle : n ≤ m) (hlt : m < n + rtTickMax / 2) :
    w.due w.tick () = true ↔ n = m := by
  have hmax : rtTickMax / 2 + rtTickMax / 2 ≤ 2 ^ 32 := by decide
  rw [Timers.due, decide_eq_true_eq, htick, htimeout, stamp_sub_lt_iff (by omega) (by omega) (by decide)]
  omega

theorem rtTickIncrease_cases (hs : rtTickIncrease s = some s') :
    (s.timers.list = [] ∧ s' = { s with timers := { s.timers with tick := s.timers.tick + 1 } }) ∨
    ∃ rest w, s.timers.list = () :: rest ∧ w = { s.timers with tick := s.timers.tick + 1 } ∧
      (w.due w.tick () = true ∧
          ((w.expire ()).finish ()).map (fun w => { s with timers := w, pc := .ready }) = some s' ∨
        w.due w.tick () = false ∧ s' = { s with timers := w }) := by
  unfold rtTickIncrease at hs
  dsimp only at hs
  split at hs
  · next hlist => exact .inl ⟨hlist, (Option.some.inj hs).symm⟩
  · next t rest hlist =>
    refine .inr ⟨rest, _, hlist, rfl, ?_⟩
    split_ifs at hs with hdue
    · exact .inl ⟨hdue, hs⟩
    · exact .inr ⟨by simpa using hdue, (Option.some.inj hs).symm⟩

theorem delayInv_tick (hi : DelayInv t₀ incTick h s) (hs : rtTickIncrease s = some s') :
    DelayInv t₀ incTick ((s, .tick) :: h) s' := by
  have htick : s.timers.tick + 1 = stamp t₀ (ticks h + 1) := by rw [hi.tick, stamp_succ]
  rcases rtTickIncrease_cases hs with ⟨hlist, rfl⟩ | ⟨rest, w, hlist, hw, hcheck⟩
  · exact
      { tick := by simpa using htick
        timer := hi.timer
        temp := hi.temp
        running := fun hpc => by
          obtain ⟨-, hstored, hle⟩ := hi.running hpc
          have hne : s.pc ≠ .ready := fun hready => by cases hready.symm.trans hpc
          rw [wakeup_tick, if_neg hne, ticks_cons, if_pos rfl]
          exact ⟨hlist, hstored, by omega⟩
        suspended := fun hpc => absurd ((hi.suspended hpc).1.symm.trans hlist) (by simp)
        ready := fun hpc => by
          obtain ⟨-, hend⟩ := hi.ready hpc
          rw [wakeup_tick, if_pos hpc, ticks_cons, if_pos rfl, hend]
          exact ⟨hlist, rfl⟩ }
  · have hpc : s.pc = .suspended := by
      cases hpc : s.pc with
      | running => simp [(hi.running hpc).1] at hlist
      | suspended => rfl
      | ready => simp [(hi.ready hpc).1] at hlist
    obtain ⟨hone, htimeout, hlt, hnear⟩ := hi.suspended hpc
    have hwtick : w.tick = stamp t₀ (ticks h + 1) := by rw [hw]; exact htick
    have hwtimer : w.timer = s.timers.timer := by rw [hw]
    have hwlist : w.list = [()] := by rw [hw]; exact hone
    have hwrest : w.softList = [] ∧ w.temp = [] := by rw [hw]; exact hi.temp
    have hdue : w.due w.tick () = true ↔ ticks h + 1 = wakeup incTick (calls h) h :=
      due_iff hwtick (by rw [hwtimer]; exact htimeout) hlt (by omega)
    have hwakeup : wakeup incTick (calls ((s, .tick) :: h)) ((s, .tick) :: h) = wakeup incTick (calls h) h := by
      rw [wakeup_tick, if_neg (by simp [hpc]), Nat.add_zero]
    have hticks : ticks ((s, .tick) :: h) = ticks h + 1 := by simp
    rcases hcheck with ⟨hd, hs⟩ | ⟨hd, rfl⟩
    · rw [expire_finish hwlist hwrest (by rw [hwtimer]; exact hi.timer.2.1)] at hs
      obtain rfl := Option.some.inj hs
      exact
        { tick := by rw [hticks]; exact hwtick
          timer := by simpa [hwtimer] using hi.timer
          temp := hwrest
          running := nofun
          suspended := nofun
          ready := fun _ => ⟨rfl, by rw [hwakeup, hticks]; exact hdue.mp hd⟩ }
    · have hend : ¬ ticks h + 1 = wakeup incTick (calls h) h := fun he => by simp [hdue.mpr he] at hd
      exact
        { tick := by rw [hticks]; exact hwtick
          timer := by rw [hwtimer]; exact hi.timer
          temp := hwrest
          running := fun hne => by simp [hpc] at hne
          suspended := fun _ => by
            rw [hwakeup, hticks, hwtimer]
            exact ⟨hwlist, htimeout, by omega, by omega⟩
          ready := fun hne => by simp [hpc] at hne }

theorem wakeup_succ (n : Nat) : wakeup incTick (n + 1) h = wakeup incTick n h + incTick.toNat := by
  simp only [wakeup, Nat.add_mul]
  omega

theorem delay_left (hi : DelayInv t₀ incTick h s) (hlt : incTick.toNat < rtTickMax / 2) (hpc : s.pc = .running)
    (hin : ticks h < wakeup incTick (calls h + 1) h) :
    s.timers.tick - s.stored < incTick ∧ s.stored + incTick = stamp t₀ (wakeup incTick (calls h + 1) h) ∧
      (s.stored + incTick - s.timers.tick).toNat < rtTickMax / 2 := by
  obtain ⟨-, hstored, hle⟩ := hi.running hpc
  have hnext : wakeup incTick (calls h + 1) h = wakeup incTick (calls h) h + incTick.toNat := wakeup_succ _
  have hmax : rtTickMax / 2 < 2 ^ 32 := by decide
  have hpast : (s.timers.tick - s.stored).toNat = ticks h - wakeup incTick (calls h) h := by
    rw [hi.tick, hstored, stamp_sub_of_le hle (by omega)]
  have hgoal : s.stored + incTick = stamp t₀ (wakeup incTick (calls h + 1) h) := by
    rw [hnext, stamp_add, hstored, BitVec.ofNat_toNat, BitVec.setWidth_eq]
  have hleft : (s.stored + incTick - s.timers.tick).toNat = wakeup incTick (calls h + 1) h - ticks h := by
    rw [hgoal, hi.tick, stamp_sub_of_le (Nat.le_of_lt hin) (by omega)]
  refine ⟨?_, hgoal, by omega⟩
  rw [BitVec.lt_def, hpast]
  omega

theorem rtThreadDelayUntil_eq (hi : DelayInv t₀ incTick h s) (hlt : incTick.toNat < rtTickMax / 2)
    (hpc : s.pc = .running) (hin : ticks h < wakeup incTick (calls h + 1) h) :
    ∃ s', rtThreadDelayUntil s incTick = some s' ∧ s'.pc = .suspended ∧ s'.timers.list = [()] ∧
      (s'.timers.timer ()).timeoutTick = stamp t₀ (wakeup incTick (calls h + 1) h) ∧
      s'.timers.tick = s.timers.tick ∧ s'.timers.softList = [] ∧ s'.timers.temp = [] ∧
      (s'.timers.timer ()).attached = true ∧ (s'.timers.timer ()).periodic = false ∧
      (s'.timers.timer ()).soft = false := by
  obtain ⟨hlist, -⟩ := hi.running hpc
  obtain ⟨hattached, hperiodic, hsoft⟩ := hi.timer
  obtain ⟨hsoftList, htemp⟩ := hi.temp
  obtain ⟨hwaits, hgoal, hinit⟩ := delay_left hi hlt hpc hin
  obtain ⟨x, hx⟩ : ∃ x, x = s.timers.setTimer ()
    { s.timers.timer () with initTick := s.stored + incTick - s.timers.tick } := ⟨_, rfl⟩
  have htimer : x.timer () = { s.timers.timer () with initTick := s.stored + incTick - s.timers.tick } := by
    simp [hx, Timers.setTimer]
  obtain ⟨w, hw⟩ : ∃ w, x.rtTimerStart () = some w :=
    TimerLists.rtTimerStart_defined (by rw [htimer]; exact hattached) (by rw [htimer]; exact hinit)
  have hcall : rtThreadDelayUntil s incTick =
      some { timers := w, stored := s.stored + incTick - s.timers.tick, pc := .suspended } := by
    have hcontrol : s.timers.rtTimerControl ()
        (fun y => { y with initTick := s.stored + incTick - s.timers.tick }) = some x := by
      rw [hx]
      exact if_pos hattached
    rw [rtThreadDelayUntil, if_pos hwaits]
    dsimp only
    rw [hcontrol, Option.bind_some, hw, Option.map_some]
  obtain ⟨-, -, htick, htemp', -, hself, hlists⟩ := TimerLists.rtTimerStart_spec hw
  rw [htimer, if_neg (by simp [hsoft])] at hlists
  rw [htimer] at hself
  refine ⟨_, hcall, rfl, ?_, ?_, ?_, ?_, ?_, ?_⟩
  · rw [hlists.1, hx]
    simp [Timers.setTimer, hlist, Timers.insertRow]
  · rw [hself, hx]
    exact (BitVec.add_comm ..).trans ((BitVec.sub_add_cancel ..).trans hgoal)
  · rw [htick, hx]
    rfl
  · rw [hlists.2, hx]
    simp [Timers.setTimer, hsoftList]
  · rw [htemp', hx]
    simp [Timers.setTimer, htemp]
  · rw [hself]
    exact ⟨hattached, hperiodic, hsoft⟩

theorem delayInv_step (hi : DelayInv t₀ incTick h s) (hlt : incTick.toNat < rtTickMax / 2) {a : DelayAction}
    (hin : InTime incTick h s a) (hs : delayStep incTick s a = some s') : DelayInv t₀ incTick ((s, a) :: h) s' := by
  cases a with
  | tick => exact delayInv_tick hi hs
  | call =>
    simp only [delayStep] at hs
    split_ifs at hs with hpc
    obtain ⟨x, hx, hpc', hlist, htimeout, htick, hsoftList, htemp, hkind⟩ :=
      rtThreadDelayUntil_eq hi hlt hpc (hin rfl)
    obtain rfl := Option.some.inj (hs.symm.trans hx)
    obtain ⟨-, -, hle⟩ := hi.running hpc
    have hwakeup : wakeup incTick (calls ((s, .call) :: h)) ((s, .call) :: h) =
        wakeup incTick (calls h + 1) h := by simp [wakeup]
    have hticks : ticks ((s, .call) :: h) = ticks h := by simp
    have hnext : wakeup incTick (calls h + 1) h = wakeup incTick (calls h) h + incTick.toNat := wakeup_succ _
    exact
      { tick := by rw [hticks, htick]; exact hi.tick
        timer := hkind
        temp := ⟨hsoftList, htemp⟩
        running := fun hne => by simp [hpc'] at hne
        suspended := fun _ => by
          rw [hwakeup, hticks]
          exact ⟨hlist, htimeout, hin rfl, by omega⟩
        ready := fun hne => by simp [hpc'] at hne }
  | goOn =>
    simp only [delayStep] at hs
    split_ifs at hs with hpc
    obtain rfl := Option.some.inj hs
    obtain ⟨hlist, hend⟩ := hi.ready hpc
    have hwakeup : wakeup incTick (calls ((s, .goOn) :: h)) ((s, .goOn) :: h) = wakeup incTick (calls h) h := by
      simp [wakeup]
    have hticks : ticks ((s, .goOn) :: h) = ticks h := by simp
    exact
      { tick := by rw [hticks]; exact hi.tick
        timer := hi.timer
        temp := hi.temp
        running := fun _ => by
          rw [hwakeup, hticks]
          exact ⟨hlist, by rw [← hend]; exact hi.tick, hend.ge⟩
        suspended := nofun
        ready := nofun }

theorem delayInv_run (hlt : incTick.toNat < rtTickMax / 2) (hrun : (delayUntil t₀ incTick).Run h s)
    (hin : Throughout (InTime incTick) h) : DelayInv t₀ incTick h s := by
  refine hrun.invariant (I := fun h s => DelayInv t₀ incTick h s) ?_ ?_ hin
  · rintro s ⟨htick, hstored, hpc, hlist, htimer⟩
    exact
      { tick := htick.trans stamp_zero.symm
        timer := htimer
        temp := hlist.2
        running := fun _ => ⟨hlist.1, by simpa [wakeup, calls, late] using hstored, by simp [wakeup, calls, late]⟩
        suspended := fun hne => by simp [hpc] at hne
        ready := fun hne => by simp [hpc] at hne }
  · rintro h s a s' - hi hp hs
    exact delayInv_step hi hlt hp hs

/-- With an increment below half of the range of the counter, and if every call is made in time: call `k` arms a
wake-up for the tick `k` times the increment, and the ticks the thread was ready in the calls before; it leaves that
tick in `*tick`, and the ticks it was ready in this call. -/
theorem delay_until_drift (hlt : incTick.toNat < rtTickMax / 2)
    (hrun : (delayUntil t₀ incTick).Run h s) (hin : Throughout (InTime incTick) h) :
    (s.pc = .running → InTime incTick h s .call → ∃ s', delayStep incTick s .call = some s' ∧ s'.pc = .suspended ∧
      s'.timers.list = [()] ∧
      (s'.timers.timer ()).timeoutTick = t₀ + BitVec.ofNat 32 ((calls h + 1) * incTick.toNat + late h)) ∧
    (s.pc = .suspended → s.timers.list = [()] ∧
      (s.timers.timer ()).timeoutTick = t₀ + BitVec.ofNat 32 (calls h * incTick.toNat + late h) ∧
      ticks h < calls h * incTick.toNat + late h) ∧
    (s.pc = .ready → ∃ s', delayStep incTick s .goOn = some s' ∧ s'.pc = .running ∧
      s'.stored = t₀ + BitVec.ofNat 32 (calls h * incTick.toNat + late h)) := by
  have hi := delayInv_run hlt hrun hin
  refine ⟨fun hpc hcall => ?_, fun hpc => ?_, fun hpc => ?_⟩
  · obtain ⟨s', hs, hpc', hlist, htimeout, -⟩ := rtThreadDelayUntil_eq hi hlt hpc (hcall rfl)
    exact ⟨s', by rw [delayStep, if_pos hpc, hs], hpc', hlist, htimeout⟩
  · obtain ⟨hlist, htimeout, hahead, -⟩ := hi.suspended hpc
    exact ⟨hlist, htimeout, hahead⟩
  · obtain ⟨-, hend⟩ := hi.ready hpc
    exact ⟨_, by rw [delayStep, if_pos hpc], rfl, by rw [delayUntilGoOn, hi.tick, hend]; rfl⟩

/-- The timer of a thread that was just started, at tick 0. -/
def delayStart : DelayState where
  timers :=
    { timer := fun _ =>
        { initTick := 0, timeoutTick := 0, activated := false, periodic := false, soft := false, attached := true }
      list := []
      softList := []
      temp := []
      tick := 0 }
  stored := 0
  pc := .running

theorem delayInit_start : DelayInit 0 delayStart where
  tick := rfl
  stored := rfl
  pc := rfl
  list := ⟨rfl, rfl, rfl⟩
  timer := ⟨rfl, rfl, rfl⟩

/-- With an increment of 10, the thread runs at tick 12 after the first call. The second call, at tick 12 too, arms a
wake-up for tick 22, and not for tick 20. -/
theorem second_wakeup_late : ∃ h s, (delayUntil 0 10).Run h s ∧
    Throughout (fun h _ a => a = .call → ticks h < (calls h + 1) * 10) h ∧ calls h = 1 ∧ s.pc = .running ∧
    s.stored = 12#32 ∧ ticks h < 20 ∧
    (delayStep 10 s .call).map (fun s' => (s'.timers.timer ()).timeoutTick) = some 22#32 :=
  System.exists_run (S := delayUntil 0 10) delayInit_start
    (.call :: (List.replicate 12 .tick ++ [.goOn]))
    (fun h s => Throughout (fun h _ a => a = .call → ticks h < (calls h + 1) * 10) h ∧ calls h = 1 ∧
      s.pc = .running ∧ s.stored = 12#32 ∧ ticks h < 20 ∧
      (delayStep 10 s .call).map (fun s' => (s'.timers.timer ()).timeoutTick) = some 22#32) (by decide +kernel)

/-- With an increment of 3, two calls, and a tick between the first wake-up and the thread. -/
theorem delay_until_drift_run : ∃ h s, (delayUntil 0 3).Run h s ∧ calls h = 2 ∧
    (s.timers.timer ()).timeoutTick = 0#32 + BitVec.ofNat 32 (2 * 3 + 1) := by
  obtain ⟨h, s, hrun, hin, hcalls, hlate, hpc⟩ := System.exists_run (S := delayUntil 0 3) delayInit_start
    [.call, .tick, .tick, .tick, .tick, .goOn, .call, .tick]
    (fun h s => Throughout (InTime 3) h ∧ calls h = 2 ∧ late h = 1 ∧ s.pc = .suspended) (by decide +kernel)
  have hdrift := ((delay_until_drift (by decide) hrun hin).2.1 hpc).2.1
  rw [hcalls, hlate] at hdrift
  exact ⟨h, s, hrun, hcalls, hdrift⟩

end delay

end ThyristorController.DelayUntil
