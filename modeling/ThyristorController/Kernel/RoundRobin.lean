import ThyristorController.Kernel.ReadyTable
import Mathlib.Data.Fintype.Option
import Mathlib.Data.List.Rotate

/-!
# Round robin (`src/clock.c`, `src/thread.c`, `src/scheduler.c`)

`rt_tick_increase` counts the running thread's ticks down, and lets it yield when none is left. The tick
interrupt has the highest interrupt priority, so all of it up to `rt_timer_check` is one step; the threads
whose timers fire there are steps of their own.

`round_robin` compares the kernel with an abstract round robin, `turn`, which knows only how many turns of the
threads of a set have ended and how many ticks the turn that is on has had.
-/

namespace ThyristorController

open Transition

variable {τ ι : Type} [DecidableEq τ] [DecidableEq ι]

/-! ## The system -/

/-- `rt_tick_increase` up to its call of `rt_timer_check`. -/
def rtTickIncrease (k : Kernel τ ι) : Option (Kernel τ ι) :=
  match k.current with
  | none => none
  | some t =>
    let remainingTick := (k.tcb t).remainingTick - 1
    if remainingTick = 0 then rtThreadYield (k.setTcb t { k.tcb t with remainingTick := (k.tcb t).initTick })
    else some (k.setTcb t { k.tcb t with remainingTick := remainingTick })

/-- `yieldMove` is the critical section of `rt_thread_yield`, apart from its call of `rt_schedule`. -/
inductive TickAction (τ ι : Type) where
  | tick
  | yieldMove
  | op (a : SchedAction τ ι)

def tickStep (k : Kernel τ ι) : TickAction τ ι → Option (Kernel τ ι)
  | .tick => rtTickIncrease k
  | .yieldMove => k.current.bind fun t => yieldMove k t
  | .op a => schedStep k a

/-- A set of threads of one priority, in the order of their ready list, with their time slices and the ticks that
they have left of the first one. -/
structure RobinSet (τ : Type) where
  prio : Priority
  order : List τ
  initTick : τ → Nat
  remainingTick : τ → Nat
  nodup : order.Nodup
  two : 2 ≤ order.length
  initTick_pos : ∀ t, 0 < initTick t
  remainingTick_pos : ∀ t, 0 < remainingTick t

/-- The threads of the set are ready, the scheduler is unlocked, and if one of them runs it is the first of the
ready list. -/
structure RobinInit (S : RobinSet τ) (k : Kernel τ ι) : Prop where
  sched : SchedInv k
  lock : k.lockNest = 0
  order : (k.table S.prio).filter (fun t => decide (t ∈ S.order)) = S.order
  head : ∀ t ∈ S.order, k.current = some t → (k.table S.prio).head? = some t
  initTick : ∀ t ∈ S.order, (k.tcb t).initTick.toNat = S.initTick t
  remainingTick : ∀ t ∈ S.order, (k.tcb t).remainingTick.toNat = S.remainingTick t

def roundRobin (ι : Type) [DecidableEq ι] (S : RobinSet τ) : System (Kernel τ ι) (TickAction τ ι) where
  init := RobinInit S
  step := tickStep

/-- The thread runs and is in the set. -/
def RobinSet.Runs (S : RobinSet τ) (k : Kernel τ ι) : Prop := ∃ t, k.current = some t ∧ t ∈ S.order

instance (S : RobinSet τ) (k : Kernel τ ι) : Decidable (S.Runs k) :=
  match h : k.current with
  | none => isFalse fun ⟨t, ht, _⟩ => by simp [h] at ht
  | some t => decidable_of_iff (t ∈ S.order) (by simp [RobinSet.Runs, h])

/-- What the environment of the set does: the threads of the set do not suspend themselves, yield, or end, nobody
else suspends, ends or changes the priority of one of them, and the scheduler is not locked. -/
def RobinSet.Undisturbed (S : RobinSet τ) (k : Kernel τ ι) : TickAction τ ι → Prop
  | .tick => True
  | .yieldMove => ¬ S.Runs k
  | .op (.insert t) => ValidUse k (.insert t)
  | .op (.remove t) => (k.tcb t).stat ≠ .ready
  | .op (.suspend t) | .op (.changePriority t _) | .op (.detach t) | .op (.delete t) => t ∉ S.order
  | .op .yield | .op (.ipcSuspend _ _) => ¬ S.Runs k
  | .op .enterCritical => False
  | .op (.startup _) | .op (.resume _) | .op (.timeout _) | .op .schedule | .op .start | .op .exitCritical => True

/-! ## The abstract round robin -/

/-- The number of ticks of the `n`th turn. -/
def RobinSet.slice (S : RobinSet τ) (n : Nat) : Nat :=
  match S.order[n % S.order.length]? with
  | some t => if n < S.order.length then S.remainingTick t else S.initTick t
  | none => 0

/-- How many turns have ended, and how many ticks the turn that is on has had: a tick counts if a thread of the set
runs, and the turn ends with its last tick. -/
def RobinSet.turn (S : RobinSet τ) : History (Kernel τ ι) (TickAction τ ι) → Nat × Nat
  | [] => (0, 0)
  | (k, .tick) :: h =>
    let (n, c) := S.turn h
    if S.Runs k then if c + 1 = S.slice n then (n + 1, 0) else (n, c + 1) else (n, c)
  | (_, .yieldMove) :: h => S.turn h
  | (_, .op _) :: h => S.turn h

section turn

variable {S : RobinSet τ} {h : History (Kernel τ ι) (TickAction τ ι)} {k : Kernel τ ι} {t : τ}

omit [DecidableEq ι]

theorem RobinSet.turn_other (hk : ¬ S.Runs k) : S.turn ((k, .tick) :: h) = S.turn h := by
  simp only [RobinSet.turn, if_neg hk]

theorem RobinSet.turn_more (hk : S.Runs k) (hc : (S.turn h).2 + 1 ≠ S.slice (S.turn h).1) :
    S.turn ((k, .tick) :: h) = ((S.turn h).1, (S.turn h).2 + 1) := by
  simp only [RobinSet.turn, if_pos hk, if_neg hc]

theorem RobinSet.turn_end (hk : S.Runs k) (hc : (S.turn h).2 + 1 = S.slice (S.turn h).1) :
    S.turn ((k, .tick) :: h) = ((S.turn h).1 + 1, 0) := by
  simp only [RobinSet.turn, if_pos hk, if_pos hc]

omit [DecidableEq τ] in
theorem RobinSet.slice_eq {n : Nat} (ht : S.order[n % S.order.length]? = some t) :
    S.slice n = if n % S.order.length < n then S.initTick t else S.remainingTick t := by
  have hpos : 0 < S.order.length := Nat.lt_of_lt_of_le (by decide) S.two
  have hmod := Nat.mod_lt n hpos
  unfold slice
  rw [ht]
  by_cases hn : n < S.order.length
  · rw [Nat.mod_eq_of_lt hn, if_neg (Nat.lt_irrefl n)]
    exact if_pos hn
  · rw [if_pos (by omega)]
    exact if_neg hn

end turn

/-! ## What leaves the set alone -/

/-- The threads of the set keep their fields and their order, the first of the list stays first, and the scheduler
is still unlocked. -/
structure RobinSet.Keeps (S : RobinSet τ) (k k' : Kernel τ ι) : Prop where
  tcb : ∀ t ∈ S.order, k'.tcb t = k.tcb t
  order : (k'.table S.prio).filter (fun t => decide (t ∈ S.order)) =
    (k.table S.prio).filter (fun t => decide (t ∈ S.order))
  head : ∀ t ∈ S.order, (k.table S.prio).head? = some t → (k'.table S.prio).head? = some t
  lock : k'.lockNest = k.lockNest

namespace RobinSet

variable {S : RobinSet τ} {k k' : Kernel τ ι} {t : τ}

omit [DecidableEq ι]

theorem Keeps.refl (S : RobinSet τ) (k : Kernel τ ι) : S.Keeps k k := ⟨fun _ _ => rfl, rfl, fun _ _ => id, rfl⟩

theorem Keeps.trans {k₁ k₂ k₃ : Kernel τ ι} (h₁ : S.Keeps k₁ k₂) (h₂ : S.Keeps k₂ k₃) : S.Keeps k₁ k₃ where
  tcb t ht := (h₂.tcb t ht).trans (h₁.tcb t ht)
  order := h₂.order.trans h₁.order
  head t ht hh := h₂.head t ht (h₁.head t ht hh)
  lock := h₂.lock.trans h₁.lock

theorem filter_erase_of_not_mem (l : List τ) (ht : t ∉ S.order) :
    (l.erase t).filter (fun u => decide (u ∈ S.order)) = l.filter (fun u => decide (u ∈ S.order)) := by
  rw [← List.erase_filter, List.erase_of_not_mem]
  simp [ht]

theorem filter_append_of_not_mem (l : List τ) (ht : t ∉ S.order) :
    (l ++ [t]).filter (fun u => decide (u ∈ S.order)) = l.filter (fun u => decide (u ∈ S.order)) := by
  simp [ht]

theorem head?_erase_of_ne {l : List τ} {u : τ} (hut : u ≠ t) (hh : l.head? = some u) :
    (l.erase t).head? = some u := by
  cases l with
  | nil => cases hh
  | cons v vs =>
    obtain rfl := Option.some.inj hh
    rw [List.erase_cons_tail (by simpa using hut)]
    rfl

omit [DecidableEq τ] in
theorem head?_append_of_some {l : List τ} {u : τ} (hh : l.head? = some u) : (l ++ [t]).head? = some u := by
  cases l with
  | nil => cases hh
  | cons v vs => exact hh

theorem keeps_unlink (k : Kernel τ ι) (ht : t ∉ S.order) : S.Keeps k (k.unlink t) where
  tcb _ _ := rfl
  order := filter_erase_of_not_mem _ ht
  head _ hu hh := head?_erase_of_ne (ne_of_mem_of_not_mem hu ht) hh
  lock := rfl

theorem keeps_setTcb (k : Kernel τ ι) (tcb : Tcb) (ht : t ∉ S.order) : S.Keeps k (k.setTcb t tcb) :=
  ⟨fun _ hu => k.setTcb_other tcb (ne_of_mem_of_not_mem hu ht), rfl, fun _ _ => id, rfl⟩

theorem keeps_insert (k : Kernel τ ι) (ht : t ∉ S.order) : S.Keeps k (rtScheduleInsertThread k t) where
  tcb _ hu := Function.update_of_ne (ne_of_mem_of_not_mem hu ht) _ _
  order := by
    unfold rtScheduleInsertThread
    dsimp only
    by_cases hp : S.prio = (k.tcb t).currentPriority
    · rw [hp, Function.update_self]
      exact filter_append_of_not_mem _ ht
    · rw [Function.update_of_ne hp]
  head _ _ hh := by
    unfold rtScheduleInsertThread
    dsimp only
    by_cases hp : S.prio = (k.tcb t).currentPriority
    · rw [hp] at hh ⊢
      rw [Function.update_self]
      exact head?_append_of_some hh
    · rw [Function.update_of_ne hp]
      exact hh
  lock := rfl

theorem keeps_remove (k : Kernel τ ι) (ht : t ∉ S.order) : S.Keeps k (rtScheduleRemoveThread k t) := by
  have hunlink := keeps_unlink k ht
  rw [rtScheduleRemoveThread_eq]
  exact ⟨hunlink.tcb, hunlink.order, hunlink.head, hunlink.lock⟩

theorem keeps_schedule (hs : rtSchedule k = some k') : S.Keeps k k' := by
  obtain ⟨htcb, htable, -, -, -, hlock⟩ := rtSchedule_frame hs
  exact ⟨fun u _ => by rw [htcb], by rw [htable], fun u _ => by rw [htable]; exact id, hlock⟩

theorem keeps_yieldMove (ht : t ∉ S.order) (hs : ThyristorController.yieldMove k t = some k') : S.Keeps k k' := by
  obtain ⟨⟨-, -, hlen⟩, hs⟩ := Option.ite_none_right_eq_some.mp hs
  obtain rfl := Option.some.inj hs
  refine ⟨fun _ _ => rfl, ?_, fun u hu hh => ?_, rfl⟩
  · dsimp only
    by_cases hp : S.prio = (k.tcb t).currentPriority
    · rw [hp, Function.update_self, filter_append_of_not_mem _ ht, filter_erase_of_not_mem _ ht]
    · rw [Function.update_of_ne hp]
  · dsimp only
    by_cases hp : S.prio = (k.tcb t).currentPriority
    · rw [hp] at hh ⊢
      rw [Function.update_self]
      exact head?_append_of_some (head?_erase_of_ne (ne_of_mem_of_not_mem hu ht) hh)
    · rw [Function.update_of_ne hp]
      exact hh

theorem keeps_suspend (k : Kernel τ ι) (ht : t ∉ S.order) : S.Keeps k (rtThreadSuspend k t) := by
  unfold rtThreadSuspend
  split_ifs
  · exact .refl S k
  · exact (keeps_remove k ht).trans (keeps_setTcb _ _ ht)

theorem keeps_resume (k : Kernel τ ι) (ht : t ∉ S.order) : S.Keeps k (rtThreadResume k t) := by
  unfold rtThreadResume
  split_ifs
  · exact .refl S k
  · exact (keeps_unlink k ht).trans (keeps_insert _ ht)

theorem keeps_close (k : Kernel τ ι) (ht : t ∉ S.order) : S.Keeps k (closeThread k t) := by
  unfold closeThread
  dsimp only
  split_ifs
  · exact (keeps_remove k ht).trans (keeps_setTcb _ _ ht)
  · exact keeps_setTcb k _ ht

theorem keeps_changePriority (k : Kernel τ ι) (prio : Priority) (ht : t ∉ S.order) :
    S.Keeps k (rtThreadChangePriority k t prio) := by
  unfold rtThreadChangePriority
  dsimp only
  split_ifs
  · exact ((keeps_remove k ht).trans (keeps_setTcb _ _ ht)).trans (keeps_insert _ ht)
  · exact keeps_setTcb k _ ht

/-- The thread that `rt_schedule` makes run is the first of its list. -/
theorem schedule_head (h : SchedInv k) (hs : rtSchedule k = some k') (hlock : k.lockNest = 0)
    (hcur : k'.current = some t) : (k'.table (k.tcb t).currentPriority).head? = some t := by
  obtain ⟨-, htable, -⟩ := rtSchedule_frame hs
  rw [htable]
  rcases rtSchedule_head hs hcur with ⟨hne, -⟩ | ⟨p, hm, hhead⟩
  · exact absurd hlock hne
  · rwa [(h.mem t p hm).2.2]

end RobinSet

/-! ## The invariant -/

/-- The ready list, without the threads that are not in the set, is the order of the set turned round once for each
turn that has ended; a thread of the set that runs is the first; and the thread at place `j` has had all its
turns up to the one that is on. -/
structure RobinInv (S : RobinSet τ) (h : History (Kernel τ ι) (TickAction τ ι)) (k : Kernel τ ι) : Prop where
  sched : SchedInv k
  lock : k.lockNest = 0
  order : (k.table S.prio).filter (fun t => decide (t ∈ S.order)) = S.order.rotate (S.turn h).1
  head : ∀ t ∈ S.order, k.current = some t → (k.table S.prio).head? = some t
  initTick : ∀ t ∈ S.order, (k.tcb t).initTick.toNat = S.initTick t
  pos : ∀ t ∈ S.order, 0 < (k.tcb t).remainingTick.toNat
  remainingTick : ∀ j t, S.order[j]? = some t → (k.tcb t).remainingTick.toNat +
    (if j = (S.turn h).1 % S.order.length then (S.turn h).2 else 0) =
      if j < (S.turn h).1 then S.initTick t else S.remainingTick t

namespace RobinInv

variable {S : RobinSet τ} {h : History (Kernel τ ι) (TickAction τ ι)} {k k' : Kernel τ ι} {t : τ}
  {a : TickAction τ ι}

omit [DecidableEq ι]

theorem ready (hi : RobinInv S h k) (ht : t ∈ S.order) :
    t ∈ k.table S.prio ∧ (k.tcb t).stat = .ready ∧ (k.tcb t).currentPriority = S.prio := by
  have hrot : t ∈ S.order.rotate (S.turn h).1 := List.mem_rotate.mpr ht
  rw [← hi.order] at hrot
  have hmem := (List.mem_filter.mp hrot).1
  exact ⟨hmem, (hi.sched.mem t _ hmem).2⟩

theorem not_mem (hi : RobinInv S h k) (hstat : (k.tcb t).stat ≠ .ready) : t ∉ S.order :=
  fun ht => hstat (hi.ready ht).2.1

theorem frame (hi : RobinInv S h k) (hk : S.Keeps k k') (hsched : SchedInv k')
    (hturn : S.turn ((k, a) :: h) = S.turn h)
    (hhead : ∀ t ∈ S.order, k'.current = some t → k.current = some t ∨ (k'.table S.prio).head? = some t) :
    RobinInv S ((k, a) :: h) k' where
  sched := hsched
  lock := hk.lock.trans hi.lock
  order := by
    rw [hk.order, hturn]
    exact hi.order
  head t ht hc := (hhead t ht hc).elim (fun hc => hk.head t ht (hi.head t ht hc)) id
  initTick t ht := by
    rw [hk.tcb t ht]
    exact hi.initTick t ht
  pos t ht := by
    rw [hk.tcb t ht]
    exact hi.pos t ht
  remainingTick j t hj := by
    rw [hk.tcb t (List.mem_of_getElem? hj), hturn]
    exact hi.remainingTick j t hj

/-- After `rt_schedule`, a thread of the set that runs is the first of the ready list. -/
theorem head_schedule (hi : RobinInv S h k) {k₁ : Kernel τ ι} (hk : S.Keeps k k₁) (h₁ : SchedInv k₁)
    (hs : rtSchedule k₁ = some k') (ht : t ∈ S.order) (hcur : k'.current = some t) :
    (k'.table S.prio).head? = some t := by
  have hhead := RobinSet.schedule_head h₁ hs (hk.lock.trans hi.lock) hcur
  rwa [hk.tcb t ht, (hi.ready ht).2.2] at hhead

theorem op [DecidableEq ι] {b : SchedAction τ ι} (hi : RobinInv S h k) (hU : S.Undisturbed k (.op b))
    (hs : schedStep k b = some k') : RobinInv S ((k, .op b) :: h) k' := by
  have stays (hk : S.Keeps k k') (hsched : SchedInv k') (hcur : k'.current = k.current) :
      RobinInv S ((k, .op b) :: h) k' := hi.frame hk hsched rfl fun _ _ hc => .inl (hcur ▸ hc)
  have schedules {k₁ : Kernel τ ι} (hk : S.Keeps k k₁) (h₁ : SchedInv k₁) (hs₁ : rtSchedule k₁ = some k') :
      RobinInv S ((k, .op b) :: h) k' := hi.frame (hk.trans (RobinSet.keeps_schedule hs₁)) (inv_schedule h₁ hs₁) rfl
    fun _ ht hc => .inr (hi.head_schedule hk h₁ hs₁ ht hc)
  cases b with
  | startup u =>
    obtain ⟨hstat, hs⟩ := Option.ite_none_right_eq_some.mp hs
    have hu : u ∉ S.order := hi.not_mem (by simp [hstat])
    have hk := (RobinSet.keeps_setTcb k { k.tcb u with
      currentPriority := (k.tcb u).initPriority
      numberMask := prioMask (k.tcb u).initPriority
      stat := .suspend } hu).trans (RobinSet.keeps_resume _ hu)
    have hinv := inv_startup_resume hi.sched hstat
    dsimp only at hs
    split_ifs at hs with hcur
    · exact schedules hk hinv hs
    · obtain rfl := Option.some.inj hs
      exact hi.frame hk hinv rfl fun t _ hc => absurd (by rw [hc]; simp) hcur
  | insert u =>
    obtain rfl := Option.some.inj hs
    exact stays (RobinSet.keeps_insert k (hi.not_mem (by simp [hU.1])))
      (schedInv_step hi.sched (a := .insert u) hU rfl) rfl
  | remove u =>
    obtain rfl := Option.some.inj hs
    exact stays (RobinSet.keeps_remove k (hi.not_mem hU)) (inv_remove_idle hi.sched hU) (by simp)
  | suspend u =>
    obtain rfl := Option.some.inj hs
    exact stays (RobinSet.keeps_suspend k hU) (inv_suspend hi.sched u) (by simp)
  | resume u =>
    obtain rfl := Option.some.inj hs
    refine stays ?_ (inv_resume hi.sched u) (by simp)
    by_cases hstat : (k.tcb u).stat = .suspend
    · exact RobinSet.keeps_resume k (hi.not_mem (by simp [hstat]))
    · rw [rtThreadResume, if_pos hstat]
      exact .refl S k
  | timeout u =>
    obtain ⟨hstat, hs⟩ := Option.ite_none_right_eq_some.mp hs
    have hu : u ∉ S.order := hi.not_mem (by simp [hstat])
    exact schedules (((RobinSet.keeps_setTcb k _ hu).trans (RobinSet.keeps_unlink _ hu)).trans
      (RobinSet.keeps_insert _ hu)) (inv_timeout_insert hi.sched hstat) hs
  | yield =>
    obtain ⟨u, hcur, ⟨k₁, hmove, hs⟩ | ⟨-, rfl⟩⟩ := rtThreadYield_cases hs
    · have hu : u ∉ S.order := fun hu => hU ⟨u, hcur, hu⟩
      exact schedules (RobinSet.keeps_yieldMove hu hmove) (inv_yieldMove hi.sched hmove) hs
    · exact stays (.refl S _) hi.sched rfl
  | changePriority u prio =>
    obtain rfl := Option.some.inj hs
    exact stays (RobinSet.keeps_changePriority k prio hU) (inv_changePriority hi.sched u prio) (by simp)
  | detach u =>
    have hinv := inv_detach hi.sched hs
    rcases rtThreadDetach_cases hs with rfl | rfl
    · exact stays (.refl S _) hinv rfl
    · exact stays (RobinSet.keeps_close k hU) hinv (closeThread_current k u)
  | delete u =>
    have hinv := inv_delete hi.sched hs
    rcases rtThreadDelete_cases hs with rfl | rfl
    · exact stays (.refl S _) hinv rfl
    · have hk := RobinSet.keeps_close k hU
      exact stays ⟨hk.tcb, hk.order, hk.head, hk.lock⟩ hinv (closeThread_current k u)
  | schedule => exact schedules (.refl S k) hi.sched hs
  | start =>
    have hinv := schedInv_step hi.sched (a := .start) trivial hs
    obtain ⟨⟨p, u⟩, hready, rfl⟩ := Option.map_eq_some_iff.mp hs
    refine hi.frame ⟨fun _ _ => rfl, rfl, fun _ _ => id, rfl⟩ hinv rfl fun t ht hc => .inr ?_
    obtain rfl := Option.some.inj hc
    obtain ⟨hmem, hhead⟩ := highestReady_head hready
    rwa [← (hi.sched.mem u p hmem).2.2, (hi.ready ht).2.2] at hhead
  | ipcSuspend q i =>
    have hinv := inv_ipcSuspend hi.sched hs
    have hcurrent := suspendSelf_current (p := some (q, i)) hs
    obtain ⟨u, hcur, -, -, rfl⟩ := rtIpcListSuspend_cases hs
    have hk := RobinSet.keeps_suspend k (S := S) (t := u) fun hu => hU ⟨u, hcur, hu⟩
    exact stays ⟨hk.tcb, hk.order, hk.head, hk.lock⟩ hinv hcurrent
  | enterCritical => exact hU.elim
  | exitCritical =>
    have hkeep : S.Keeps k { k with lockNest := k.lockNest - 1 } :=
      ⟨fun _ _ => rfl, rfl, fun _ _ => id, by simp [hi.lock]⟩
    have hinv : SchedInv { k with lockNest := k.lockNest - 1 } := inv_frame hi.sched rfl rfl rfl rfl rfl
    rcases rtExitCritical_cases hs with hs | rfl
    · exact schedules hkeep hinv hs
    · exact stays hkeep hinv rfl

theorem yieldMove (hi : RobinInv S h k) (hU : ¬ S.Runs k)
    (hs : (k.current.bind fun t => ThyristorController.yieldMove k t) = some k') :
    RobinInv S ((k, .yieldMove) :: h) k' := by
  obtain ⟨u, hcur, hmove⟩ := Option.bind_eq_some_iff.mp hs
  have hcurrent : k'.current = k.current := by
    obtain ⟨-, hmove⟩ := Option.ite_none_right_eq_some.mp hmove
    exact Option.some.inj hmove ▸ rfl
  exact hi.frame (RobinSet.keeps_yieldMove (fun hu => hU ⟨u, hcur, hu⟩) hmove) (inv_yieldMove hi.sched hmove) rfl
    fun _ _ hc => .inl (hcurrent ▸ hc)

/-! ## The tick -/

/-- A thread of the set that runs is the one whose turn is on, and the first of the list. -/
theorem current_turn (hi : RobinInv S h k) (ht : t ∈ S.order) (hcur : k.current = some t) :
    S.order[(S.turn h).1 % S.order.length]? = some t ∧ ∃ l, k.table S.prio = t :: l ∧
      S.order.rotate (S.turn h).1 = t :: l.filter (fun u => decide (u ∈ S.order)) := by
  have hpos : 0 < S.order.length := Nat.lt_of_lt_of_le (by decide) S.two
  have hhead := hi.head t ht hcur
  obtain ⟨l, hl⟩ : ∃ l, k.table S.prio = t :: l := by
    cases hl : k.table S.prio with
    | nil => rw [hl] at hhead; cases hhead
    | cons u l => rw [hl] at hhead; exact ⟨l, by rw [Option.some.inj hhead]⟩
  have hrot : S.order.rotate (S.turn h).1 = t :: l.filter (fun u => decide (u ∈ S.order)) := by
    rw [← hi.order, hl, List.filter_cons_of_pos (by simpa using ht)]
  refine ⟨?_, l, hl, hrot⟩
  rw [← List.head?_rotate (Nat.mod_lt _ hpos), List.rotate_mod, hrot]
  rfl

theorem remaining_slice (hi : RobinInv S h k) (ht : S.order[(S.turn h).1 % S.order.length]? = some t) :
    (k.tcb t).remainingTick.toNat + (S.turn h).2 = S.slice (S.turn h).1 := by
  have hrem := hi.remainingTick _ t ht
  rw [if_pos rfl] at hrem
  rw [hrem, S.slice_eq ht]

omit [DecidableEq τ] in
theorem place_unique {i j : Nat} (hi : S.order[i]? = some t) (hj : S.order[j]? = some t) : j = i :=
  (List.getElem?_inj (List.getElem?_eq_some_iff.mp hj).1 S.nodup).mp (hj.trans hi.symm)

theorem remaining_other (hi : RobinInv S h k) (hplace : S.order[(S.turn h).1 % S.order.length]? = some t)
    {j : Nat} {u : τ} (hj : S.order[j]? = some u) (hut : u ≠ t) : j ≠ (S.turn h).1 % S.order.length ∧
      (k.tcb u).remainingTick.toNat = if j < (S.turn h).1 then S.initTick u else S.remainingTick u := by
  have hne : j ≠ (S.turn h).1 % S.order.length := fun he => by
    rw [he, hplace] at hj
    exact hut (Option.some.inj hj).symm
  have hold := hi.remainingTick j u hj
  rw [if_neg hne, Nat.add_zero] at hold
  exact ⟨hne, hold⟩

section setTick

/-! What a change of the ticks that one thread has left keeps. -/

variable {r : BitVec 32} {u : τ}

theorem initTick_set (hi : RobinInv S h k) (hu : u ∈ S.order) :
    ((k.setTcb t { k.tcb t with remainingTick := r }).tcb u).initTick.toNat = S.initTick u := by
  by_cases hut : u = t
  · subst hut
    rw [Kernel.setTcb_self]
    exact hi.initTick u hu
  · rw [k.setTcb_other _ hut]
    exact hi.initTick u hu

theorem pos_set (hi : RobinInv S h k) (hr : 0 < r.toNat) (hu : u ∈ S.order) :
    0 < ((k.setTcb t { k.tcb t with remainingTick := r }).tcb u).remainingTick.toNat := by
  by_cases hut : u = t
  · subst hut
    rw [Kernel.setTcb_self]
    exact hr
  · rw [k.setTcb_other _ hut]
    exact hi.pos u hu

end setTick

theorem tick_other (hi : RobinInv S h k) (hcur : k.current = some t) (ht : t ∉ S.order)
    (hs : rtTickIncrease k = some k') : RobinInv S ((k, .tick) :: h) k' := by
  have hturn : S.turn ((k, .tick) :: h) = S.turn h :=
    RobinSet.turn_other fun ⟨u, hu, hm⟩ => ht (Option.some.inj (hcur.symm.trans hu) ▸ hm)
  have hset (tcb : Tcb) := RobinSet.keeps_setTcb k tcb ht
  simp only [rtTickIncrease, hcur] at hs
  split_ifs at hs
  · have hinv : SchedInv (k.setTcb t { k.tcb t with remainingTick := (k.tcb t).initTick }) :=
      inv_setTcb_same hi.sched rfl rfl rfl
    have hcur' : (k.setTcb t { k.tcb t with remainingTick := (k.tcb t).initTick }).current = some t := hcur
    simp only [rtThreadYield, hcur'] at hs
    split at hs
    · next k₁ hmove =>
      have hk := (hset _).trans (RobinSet.keeps_yieldMove ht hmove)
      have h₁ := inv_yieldMove hinv hmove
      exact hi.frame (hk.trans (RobinSet.keeps_schedule hs)) (inv_schedule h₁ hs) hturn
        fun _ hu hc => .inr (hi.head_schedule hk h₁ hs hu hc)
    · obtain rfl := Option.some.inj hs
      exact hi.frame (hset _) hinv hturn fun _ _ hc => .inl hc
  · obtain rfl := Option.some.inj hs
    exact hi.frame (hset _) (inv_setTcb_same hi.sched rfl rfl rfl) hturn fun _ _ hc => .inl hc

theorem tick_more (hi : RobinInv S h k) (hcur : k.current = some t) (ht : t ∈ S.order)
    (hmore : (k.tcb t).remainingTick - 1 ≠ 0) :
    RobinInv S ((k, .tick) :: h) (k.setTcb t { k.tcb t with remainingTick := (k.tcb t).remainingTick - 1 }) := by
  obtain ⟨hplace, -⟩ := hi.current_turn ht hcur
  have hslice := hi.remaining_slice hplace
  have hpos := hi.pos t ht
  have hsub : ((k.tcb t).remainingTick - 1).toNat = (k.tcb t).remainingTick.toNat - 1 := by bv_omega
  have hne : (k.tcb t).remainingTick.toNat ≠ 1 := fun he => hmore (by bv_omega)
  have hturn : S.turn ((k, .tick) :: h) = ((S.turn h).1, (S.turn h).2 + 1) :=
    RobinSet.turn_more ⟨t, hcur, ht⟩ (by omega)
  exact
    { sched := inv_setTcb_same hi.sched rfl rfl rfl
      lock := hi.lock
      order := by
        rw [hturn]
        exact hi.order
      head := hi.head
      initTick := fun _ hu => hi.initTick_set hu
      pos := fun _ hu => hi.pos_set (by omega) hu
      remainingTick := fun j u hj => by
        rw [hturn]
        by_cases hut : u = t
        · subst hut
          obtain rfl := place_unique hplace hj
          have hold := hi.remainingTick _ u hj
          rw [if_pos rfl] at hold ⊢
          rw [Kernel.setTcb_self, ← hold]
          dsimp only
          rw [hsub]
          omega
        · obtain ⟨hne, hold⟩ := hi.remaining_other hplace hj hut
          rw [if_neg hne, Nat.add_zero, k.setTcb_other _ hut]
          exact hold }

/-- The last tick of the turn that is on: the thread gets a new slice and goes to the end of the list. -/
theorem tick_end (hi : RobinInv S h k) (hcur : k.current = some t) (ht : t ∈ S.order)
    (hend : (k.tcb t).remainingTick - 1 = 0)
    (hs : rtThreadYield (k.setTcb t { k.tcb t with remainingTick := (k.tcb t).initTick }) = some k') :
    RobinInv S ((k, .tick) :: h) k' := by
  obtain ⟨hplace, l, hl, hrot⟩ := hi.current_turn ht hcur
  obtain ⟨hmem, hstat, hprio⟩ := hi.ready ht
  have hslice := hi.remaining_slice hplace
  have hpos := hi.pos t ht
  have hone : (k.tcb t).remainingTick.toNat = 1 := by bv_omega
  have hturn : S.turn ((k, .tick) :: h) = ((S.turn h).1 + 1, 0) :=
    RobinSet.turn_end ⟨t, hcur, ht⟩ (by omega)
  -- the list has at least the threads of the set
  have hlen : 2 ≤ (k.table S.prio).length := by
    have hle := List.length_filter_le (fun u => decide (u ∈ S.order)) (k.table S.prio)
    rw [hi.order, List.length_rotate] at hle
    exact Nat.le_trans S.two hle
  have hinv : SchedInv (k.setTcb t { k.tcb t with remainingTick := (k.tcb t).initTick }) :=
    inv_setTcb_same hi.sched rfl rfl rfl
  generalize hkt : k.setTcb t { k.tcb t with remainingTick := (k.tcb t).initTick } = kt at hs hinv
  have hself : kt.tcb t = { k.tcb t with remainingTick := (k.tcb t).initTick } := by rw [← hkt, Kernel.setTcb_self]
  have htable : kt.table = k.table := by rw [← hkt]; rfl
  have hlock : kt.lockNest = 0 := by rw [← hkt]; exact hi.lock
  have hmove : ThyristorController.yieldMove kt t =
      some { kt with table := Function.update kt.table S.prio (l ++ [t]) } := by
    unfold ThyristorController.yieldMove
    rw [hself, htable]
    dsimp only
    rw [hprio, if_pos ⟨hstat, hmem, hlen⟩, hl, List.erase_cons_head]
  have hcur' : kt.current = some t := by rw [← hkt]; exact hcur
  have hs : rtSchedule { kt with table := Function.update kt.table S.prio (l ++ [t]) } = some k' := by
    simpa only [rtThreadYield, hcur', hmove] using hs
  have h₁ := inv_yieldMove hinv hmove
  obtain ⟨htcb, htable', -, -, -, hlock'⟩ := rtSchedule_frame hs
  have hprio' {u : τ} (hu : u ∈ S.order) : (kt.tcb u).currentPriority = S.prio := by
    by_cases hut : u = t
    · subst hut
      rw [hself]
      exact hprio
    · rw [← hkt, k.setTcb_other _ hut]
      exact (hi.ready hu).2.2
  exact
    { sched := inv_schedule h₁ hs
      lock := hlock'.trans hlock
      order := by
        rw [hturn, htable']
        dsimp only
        rw [Function.update_self, ← List.rotate_rotate, hrot, List.rotate_cons_succ, List.rotate_zero,
          List.filter_append, List.filter_cons_of_pos (by simpa using ht), List.filter_nil]
      head := fun u hu hc => by
        have hhead := RobinSet.schedule_head h₁ hs hlock hc
        rwa [hprio' hu] at hhead
      initTick := fun u hu => by
        rw [htcb, ← hkt]
        exact hi.initTick_set hu
      pos := fun u hu => by
        rw [htcb, ← hkt]
        exact hi.pos_set (by rw [hi.initTick t ht]; exact S.initTick_pos t) hu
      remainingTick := fun j u hj => by
        have hjlt := (List.getElem?_eq_some_iff.mp hj).1
        rw [hturn, htcb]
        dsimp only
        rw [ite_self, Nat.add_zero]
        by_cases hut : u = t
        · subst hut
          obtain rfl := place_unique hplace hj
          rw [hself]
          dsimp only
          rw [hi.initTick u ht, if_pos (Nat.lt_succ_of_le (Nat.mod_le _ _))]
        · obtain ⟨hne, hold⟩ := hi.remaining_other hplace hj hut
          have hnj : j ≠ (S.turn h).1 := fun he => hne (by rw [← he, Nat.mod_eq_of_lt hjlt])
          rw [← hkt, k.setTcb_other _ hut, hold]
          by_cases hlt : j < (S.turn h).1
          · rw [if_pos hlt, if_pos (by omega)]
          · rw [if_neg hlt, if_neg (by omega)] }

theorem tick (hi : RobinInv S h k) (hs : rtTickIncrease k = some k') : RobinInv S ((k, .tick) :: h) k' := by
  cases hcur : k.current with
  | none => simp [rtTickIncrease, hcur] at hs
  | some t =>
    by_cases ht : t ∈ S.order
    · simp only [rtTickIncrease, hcur] at hs
      split_ifs at hs with hend
      · exact hi.tick_end hcur ht hend hs
      · exact Option.some.inj hs ▸ hi.tick_more hcur ht hend
    · exact hi.tick_other hcur ht hs

end RobinInv

/-! ## All runs -/

section runs

variable {S : RobinSet τ} {h : History (Kernel τ ι) (TickAction τ ι)} {k : Kernel τ ι}

theorem robinInv (hrun : (roundRobin ι S).Run h k) (hU : Throughout (fun _ k a => S.Undisturbed k a) h) :
    RobinInv S h k := by
  refine hrun.invariant (I := RobinInv S) ?_ ?_ hU
  · rintro k ⟨hsched, hlock, horder, hhead, hinit, hrem⟩
    exact
      { sched := hsched
        lock := hlock
        order := horder.trans (List.rotate_zero _).symm
        head := hhead
        initTick := hinit
        pos := fun t ht => by
          rw [hrem t ht]
          exact S.remainingTick_pos t
        remainingTick := fun j t hj => by
          rw [hrem t (List.mem_of_getElem? hj)]
          show S.remainingTick t + (if j = 0 % S.order.length then 0 else 0) =
            if j < 0 then S.initTick t else S.remainingTick t
          rw [ite_self, Nat.add_zero, if_neg (Nat.not_lt_zero j)] }
  · intro h k a k' _ hi hU hs
    cases a with
    | tick => exact hi.tick hs
    | yieldMove => exact hi.yieldMove hU hs
    | op b => exact hi.op hU hs

/-- The kernel does round robin: a thread of the set runs only in its turn, in the order of the ready list; it has
the ticks left that its turn has left, however often it was preempted; and when nothing else of this or a higher
priority is ready, `rt_schedule` selects it. -/
theorem round_robin (hrun : (roundRobin ι S).Run h k) (hU : Throughout (fun _ k a => S.Undisturbed k a) h) :
    (∀ t ∈ S.order, k.current = some t → S.order[(S.turn h).1 % S.order.length]? = some t) ∧
    (∀ t, S.order[(S.turn h).1 % S.order.length]? = some t →
      (k.tcb t).remainingTick.toNat + (S.turn h).2 = S.slice (S.turn h).1 ∧ 0 < (k.tcb t).remainingTick.toNat) ∧
    ((∀ q < S.prio, k.table q = []) → (∀ t ∈ k.table S.prio, t ∈ S.order) →
      ∃ k', rtSchedule k = some k' ∧ k'.current = S.order[(S.turn h).1 % S.order.length]?) := by
  have hi := robinInv hrun hU
  have hpos : 0 < S.order.length := Nat.lt_of_lt_of_le (by decide) S.two
  refine ⟨fun t ht hcur => (hi.current_turn ht hcur).1,
    fun t ht => ⟨hi.remaining_slice ht, hi.pos t (List.mem_of_getElem? ht)⟩, fun hlow hall => ?_⟩
  have horder := hi.order
  rw [List.filter_eq_self.mpr fun t ht => by simpa using hall t ht] at horder
  have hne : k.table S.prio ≠ [] := by
    rw [horder, Ne, List.rotate_eq_nil_iff]
    exact List.ne_nil_of_length_pos hpos
  obtain ⟨k', hs, hcur⟩ := rtSchedule_selects hi.sched hi.lock hne hlow
  refine ⟨k', hs, ?_⟩
  rw [hcur, horder, ← List.head?_rotate (Nat.mod_lt _ hpos), List.rotate_mod]

end runs

instance (S : RobinSet τ) [Fintype ι] (k : Kernel τ ι) : (a : TickAction τ ι) → Decidable (S.Undisturbed k a)
  | .tick => isTrue trivial
  | .yieldMove => inferInstanceAs (Decidable (¬ S.Runs k))
  | .op (.insert t) => inferInstanceAs (Decidable (ValidUse k (.insert t)))
  | .op (.remove t) => inferInstanceAs (Decidable ((k.tcb t).stat ≠ .ready))
  | .op (.suspend t) => inferInstanceAs (Decidable (t ∉ S.order))
  | .op (.changePriority t _) => inferInstanceAs (Decidable (t ∉ S.order))
  | .op (.detach t) => inferInstanceAs (Decidable (t ∉ S.order))
  | .op (.delete t) => inferInstanceAs (Decidable (t ∉ S.order))
  | .op .yield => inferInstanceAs (Decidable (¬ S.Runs k))
  | .op (.ipcSuspend _ _) => inferInstanceAs (Decidable (¬ S.Runs k))
  | .op .enterCritical => isFalse id
  | .op (.startup _) | .op (.resume _) | .op (.timeout _) | .op .schedule | .op .start | .op .exitCritical =>
    isTrue trivial

/-- Two threads of priority 20 with two ticks each, and a thread of priority 10 that runs. -/
def robinStart : Kernel (Option Bool) Unit where
  tcb t :=
    let prio : Priority := if t = none then priority 10 else priority 20
    { stat := .ready, initPriority := prio, currentPriority := prio, numberMask := prioMask prio
      initTick := 2, remainingTick := 2, error := rtEok, isSystem := false }
  table p := if p.val = 10 then [none] else if p.val = 20 then [some true, some false] else []
  group := prioMask (priority 10) ||| prioMask (priority 20)
  current := some none
  currentPriority := priority 10
  lockNest := 0
  waiting _ := []
  defunct := []

def robinPair : RobinSet (Option Bool) where
  prio := priority 20
  order := [some true, some false]
  initTick _ := 2
  remainingTick _ := 2
  nodup := by decide
  two := by decide
  initTick_pos _ := by decide
  remainingTick_pos _ := by decide

theorem robinInit_start : RobinInit robinPair robinStart where
  sched := by decide +kernel
  lock := rfl
  order := by decide +kernel
  head := by decide +kernel
  initTick := by decide +kernel
  remainingTick := by decide +kernel

/-- The first thread is preempted after one tick, resumes its turn, and the second one follows. -/
theorem round_robin_run :
    ∃ h k, (roundRobin Unit robinPair).Run h k ∧ Throughout (fun _ k a => robinPair.Undisturbed k a) h ∧
      robinPair.order[(robinPair.turn h).1 % robinPair.order.length]? = some (some false) ∧
      (k.tcb (some false)).remainingTick.toNat + (robinPair.turn h).2 = robinPair.slice (robinPair.turn h).1 := by
  obtain ⟨h, k, hrun, hU, hcur⟩ := System.exists_run (S := roundRobin Unit robinPair) robinInit_start
    [.tick, .op (.ipcSuspend () 0), .op .schedule, .tick, .op (.timeout none), .tick, .op (.ipcSuspend () 0),
      .op .schedule, .tick, .tick]
    (fun h k => Throughout (fun _ k a => robinPair.Undisturbed k a) h ∧ k.current = some (some false))
    (by decide +kernel)
  obtain ⟨hturn, hticks, -⟩ := round_robin hrun hU
  have hplace := hturn (some false) (by decide) hcur
  exact ⟨h, k, hrun, hU, hplace, (hticks (some false) hplace).1⟩

end ThyristorController
