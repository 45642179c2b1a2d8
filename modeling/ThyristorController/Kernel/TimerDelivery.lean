import ThyristorController.Kernel.Timer

/-!
# When timeout functions are called (`src/timer.c`)

A timer is armed when it is started, by `rt_timer_start` or by `rt_timer_check` behind its timeout function. An arming
at tick `n` with period `p` ends with the call of the function, or when the timer is stopped, detached or armed again.

`timer_delivery` says that it ends with the call at tick `n + p` and at no other, that it does not last longer, and
which timers `rt_timer_check` arms again; and what follows for a timer that is left alone.
-/

namespace ThyristorController.TimerLists

open Transition Clock

variable {ι : Type} [DecidableEq ι]

/-! ## Events -/

/-- The timer whose function is called in a step. -/
def called (s : TimerState ι) : TimerAction ι → Option ι
  | .check =>
    match s.pc with
    | .check current => s.timers.list.head?.filter (s.timers.due current)
    | _ => none
  | _ => none

/-- The timer that a step stops or detaches. -/
def removed : TimerAction ι → Option ι
  | .op (.stop t) | .op (.detach t) => some t
  | _ => none

section events

variable (s : TimerState ι)

omit [DecidableEq ι]

@[simp] theorem called_op (o : TimerOp ι) : called s (.op o) = none := rfl

@[simp] theorem called_tick : called s .tick = none := rfl

@[simp] theorem called_ret : called s .ret = none := rfl

@[simp] theorem removed_start (t : ι) : removed (.op (.start t)) = none := rfl

@[simp] theorem removed_tick : removed (.tick : TimerAction ι) = none := rfl

@[simp] theorem removed_check : removed (.check : TimerAction ι) = none := rfl

@[simp] theorem removed_ret : removed (.ret : TimerAction ι) = none := rfl

@[simp] theorem started_tick : started s .tick = none := rfl

@[simp] theorem started_check : started s .check = none := rfl

end events

/-- The tick and the period of the arming of a timer that has not ended. -/
def armed : History (TimerState ι) (TimerAction ι) → ι → Option (Nat × Nat)
  | [], _ => none
  | (s, a) :: h, t =>
    if started s a = some t then some (ticks h, (s.timers.timer t).initTick.toNat)
    else if called s a = some t ∨ removed a = some t then none
    else armed h t

/-- The timer is armed, stopped or detached, or its function is called. -/
def Touches (t : ι) (s : TimerState ι) (a : TimerAction ι) : Prop :=
  started s a = some t ∨ removed a = some t ∨ called s a = some t

/-- The last thing that happened to the timer is that its function was called, as that of a periodic timer. -/
def StillPeriodic (t : ι) (h : History (TimerState ι) (TimerAction ι)) : Prop :=
  Since (fun s a => called s a = some t ∧ (s.timers.timer t).periodic = true) (Touches t) h

/-! ## The invariant -/

/-- The timer is in a list. -/
def Linked (s : Timers ι) (t : ι) : Prop := t ∈ s.list ∨ t ∈ s.softList

section linked

variable {s s' : Timers ι} {t u : ι}

theorem linked_remove (h : (s.list ++ (s.softList ++ s.temp)).Nodup) :
    Linked (s.remove t) u ↔ u ≠ t ∧ Linked s u := by
  have hnot := not_mem_remove h t
  simp only [List.mem_append, not_or] at hnot
  by_cases hut : u = t
  · subst hut
    simp [Linked, hnot.1, hnot.2.1]
  · simp [Linked, Timers.remove, hut]

theorem linked_start (h : (s.list ++ (s.softList ++ s.temp)).Nodup) (hs : s.rtTimerStart t = some s') :
    Linked s' u ↔ u = t ∨ Linked s u := by
  obtain ⟨-, -, -, -, -, -, hlists⟩ := rtTimerStart_spec hs
  have hremove := linked_remove (u := u) (t := t) h
  by_cases hut : u = t
  · subst hut
    split_ifs at hlists
    all_goals simp [Linked, hlists.1, hlists.2]
  · split_ifs at hlists
    all_goals simp [Linked, hlists.1, hlists.2, hut]

theorem kind_start (h : (s.list ++ (s.softList ++ s.temp)).Nodup) (hs : s.rtTimerStart t = some s')
    (hkind : ∀ u, (u ∈ s.list → (s.timer u).soft = false) ∧ (u ∈ s.softList → (s.timer u).soft = true)) (u : ι) :
    (u ∈ s'.list → (s'.timer u).soft = false) ∧ (u ∈ s'.softList → (s'.timer u).soft = true) := by
  obtain ⟨-, -, -, -, hother, hself, hlists⟩ := rtTimerStart_spec hs
  have hnot := not_mem_remove h t
  simp only [List.mem_append, not_or] at hnot
  by_cases hut : u = t
  · subst hut
    rw [hself]
    split_ifs at hlists with hsoft
    · simpa [hlists.1, hsoft, Timers.remove] using hnot.1
    · simpa [hlists.2, hsoft, Timers.remove] using hnot.2.1
  · rw [hother u hut]
    split_ifs at hlists
    all_goals simpa [hlists.1, hlists.2, hut] using hkind u

end linked

/-- The timers in the lists are those that are armed, and they have the flag; in a timeout function, the timer is
still in the temporary list and has the flag exactly if it will be armed again as a periodic timer. -/
structure DeliveryInv (base : BitVec 32) (h : History (TimerState ι) (TimerAction ι)) (s : TimerState ι) :
    Prop where
  timer : TimerInv base h s
  linked : ∀ t, (∃ x, armed h t = some x) ↔ Linked s.timers t
  ends : ∀ t n p, armed h t = some (n, p) → n + p = deadline h t
  activated : ∀ t, Linked s.timers t → (s.timers.timer t).activated = true
  kind : ∀ t, (t ∈ s.timers.list → (s.timers.timer t).soft = false) ∧
    (t ∈ s.timers.softList → (s.timers.timer t).soft = true)
  again : ∀ t, s.pc = .callback t → (StillPeriodic t h ↔ t ∈ s.timers.temp ∧ (s.timers.timer t).activated = true)

section steps

variable {base : BitVec 32} {h : History (TimerState ι) (TimerAction ι)} {s s' : TimerState ι} {a : TimerAction ι}
  {t u : ι} {n p : Nat}

theorem armed_started (ha : started s a = some t) :
    armed ((s, a) :: h) = Function.update (armed h) t (some (ticks h, (s.timers.timer t).initTick.toNat)) := by
  funext u
  by_cases hut : u = t
  · subst hut
    rw [armed, if_pos ha, Function.update_self]
  · have hne (o : Option ι) (ho : o = some t ∨ o = none) : o ≠ some u := by
      rcases ho with rfl | rfl
      · exact fun he => hut (Option.some.inj he).symm
      · simp
    have hcalled : called s a = none := by cases a <;> simp_all [started, called]
    have hremoved : removed a = none := by
      cases a with
      | op o => cases o <;> simp_all [started, removed]
      | _ => rfl
    rw [armed, if_neg (hne _ (.inl ha)), if_neg (not_or.mpr ⟨hne _ (.inr hcalled), hne _ (.inr hremoved)⟩),
      Function.update_of_ne hut]

theorem armed_ended (ha : started s a = none)
    (he : called s a = some t ∧ removed a = none ∨ called s a = none ∧ removed a = some t) :
    armed ((s, a) :: h) = Function.update (armed h) t none := by
  funext u
  have hiff : (called s a = some u ∨ removed a = some u) ↔ u = t := by
    rcases he with ⟨hc, hr⟩ | ⟨hc, hr⟩ <;> simp [hc, hr, eq_comm]
  rw [armed, if_neg (by simp [ha])]
  by_cases hut : u = t
  · rw [if_pos (hiff.mpr hut), hut, Function.update_self]
  · rw [if_neg (hiff.not.mpr hut), Function.update_of_ne hut]

theorem armed_same (ha : started s a = none) (hc : called s a = none) (hr : removed a = none) :
    armed ((s, a) :: h) = armed h := by
  funext u
  rw [armed, if_neg (by simp [ha]), if_neg (by simp [hc, hr])]

theorem TimerInv.mem_temp (hi : TimerInv base h s) (hpc : s.pc = .callback t) (htemp : s.timers.temp ≠ []) :
    t ∈ s.timers.temp := by
  obtain ⟨u, hu⟩ := List.exists_mem_of_ne_nil _ htemp
  rwa [CheckPc.callback.inj (hpc.symm.trans (hi.temp u hu))]

theorem TimerInv.not_linked (hi : TimerInv base h s) (ht : t ∈ s.timers.temp) : ¬ Linked s.timers t := by
  obtain ⟨-, hrest, hlist⟩ := List.nodup_append'.mp hi.lists.nodup
  rintro (hm | hm)
  · exact hlist hm (List.mem_append_right _ ht)
  · exact (List.nodup_append'.mp hrest).2.2 hm ht

theorem DeliveryInv.not_armed (hi : DeliveryInv base h s) (ht : t ∈ s.timers.temp) : armed h t = none := by
  by_contra hne
  exact hi.timer.not_linked ht ((hi.linked t).mp (Option.ne_none_iff_exists'.mp hne))

omit [DecidableEq ι] in
theorem stillPeriodic_cons : StillPeriodic t ((s, a) :: h) ↔
    (called s a = some t ∧ (s.timers.timer t).periodic = true) ∨ ¬ Touches t s a ∧ StillPeriodic t h := Iff.rfl

theorem DeliveryInv.start (hi : DeliveryInv base h s) (ha : started s a = some t)
    (hs : s.timers.rtTimerStart t = some s'.timers) (hinv : TimerInv base ((s, a) :: h) s')
    (hagain : ∀ u, s'.pc = .callback u →
      (StillPeriodic u ((s, a) :: h) ↔ u ∈ s'.timers.temp ∧ (s'.timers.timer u).activated = true)) :
    DeliveryInv base ((s, a) :: h) s' := by
  have hnodup := hi.timer.lists.nodup
  obtain ⟨-, -, -, -, hother, hself, -⟩ := rtTimerStart_spec hs
  refine
    { timer := hinv
      linked := fun u => ?_
      ends := fun u n p hu => ?_
      activated := fun u hu => ?_
      kind := kind_start hnodup hs hi.kind
      again := hagain }
  · rw [armed_started ha, linked_start hnodup hs, ← hi.linked]
    by_cases hut : u = t
    · subst hut
      simp
    · simp [hut]
  · rw [armed_started ha] at hu
    rw [deadline_started ha]
    by_cases hut : u = t
    · subst hut
      rw [Function.update_self] at hu ⊢
      obtain ⟨rfl, rfl⟩ := Prod.mk.inj (Option.some.inj hu)
      rfl
    · rw [Function.update_of_ne hut] at hu ⊢
      exact hi.ends u n p hu
  · rcases (linked_start hnodup hs).mp hu with rfl | hu
    · rw [hself]
    · by_cases hut : u = t
      · subst hut
        rw [hself]
      · rw [hother u hut]
        exact hi.activated u hu

theorem DeliveryInv.ended (hi : DeliveryInv base h s) (ha : started s a = none)
    (he : called s a = some t ∧ removed a = none ∨ called s a = none ∧ removed a = some t)
    (hlinked : ∀ u, Linked s'.timers u ↔ u ≠ t ∧ Linked s.timers u)
    (hmem : ∀ u, (u ∈ s'.timers.list → u ∈ s.timers.list) ∧ (u ∈ s'.timers.softList → u ∈ s.timers.softList))
    (hother : ∀ u, u ≠ t → s'.timers.timer u = s.timers.timer u) (hinv : TimerInv base ((s, a) :: h) s')
    (hagain : ∀ u, s'.pc = .callback u →
      (StillPeriodic u ((s, a) :: h) ↔ u ∈ s'.timers.temp ∧ (s'.timers.timer u).activated = true)) :
    DeliveryInv base ((s, a) :: h) s' := by
  refine
    { timer := hinv
      linked := fun u => ?_
      ends := fun u n p hu => ?_
      activated := fun u hu => ?_
      kind := fun u => ?_
      again := hagain }
  · rw [armed_ended ha he, hlinked, ← hi.linked]
    by_cases hut : u = t
    · subst hut
      simp
    · simp [hut]
  · rw [armed_ended ha he] at hu
    rw [deadline_not_started ha]
    by_cases hut : u = t
    · subst hut
      simp at hu
    · rw [Function.update_of_ne hut] at hu
      exact hi.ends u n p hu
  · obtain ⟨hut, hu⟩ := (hlinked u).mp hu
    rw [hother u hut]
    exact hi.activated u hu
  · have hne (hl : Linked s'.timers u) : u ≠ t := ((hlinked u).mp hl).1
    constructor
    · intro hu
      rw [hother u (hne (.inl hu))]
      exact (hi.kind u).1 ((hmem u).1 hu)
    · intro hu
      rw [hother u (hne (.inr hu))]
      exact (hi.kind u).2 ((hmem u).2 hu)

theorem DeliveryInv.same (hi : DeliveryInv base h s) (ha : started s a = none) (harmed : armed ((s, a) :: h) = armed h)
    (hlist : s'.timers.list = s.timers.list) (hsoft : s'.timers.softList = s.timers.softList)
    (htimer : ∀ u, Linked s.timers u → (s'.timers.timer u).activated = (s.timers.timer u).activated ∧
      (s'.timers.timer u).soft = (s.timers.timer u).soft) (hinv : TimerInv base ((s, a) :: h) s')
    (hagain : ∀ u, s'.pc = .callback u →
      (StillPeriodic u ((s, a) :: h) ↔ u ∈ s'.timers.temp ∧ (s'.timers.timer u).activated = true)) :
    DeliveryInv base ((s, a) :: h) s' := by
  have hlinked (u : ι) : Linked s'.timers u ↔ Linked s.timers u := by rw [Linked, hlist, hsoft, Linked]
  exact
    { timer := hinv
      linked := fun u => by rw [harmed, hlinked, hi.linked]
      ends := fun u n p hu => by
        rw [harmed] at hu
        rw [deadline_not_started ha]
        exact hi.ends u n p hu
      activated := fun u hu => by
        rw [hlinked] at hu
        rw [(htimer u hu).1]
        exact hi.activated u hu
      kind := fun u => by
        rw [hlist, hsoft]
        constructor
        · intro hu
          rw [(htimer u (.inl hu)).2]
          exact (hi.kind u).1 hu
        · intro hu
          rw [(htimer u (.inr hu)).2]
          exact (hi.kind u).2 hu
      again := hagain }

/-- An operation on a timer that neither starts nor detaches it, and stops it only if it is not active. -/
theorem DeliveryInv.set {o : TimerOp ι} {x : RtTimer} (hi : DeliveryInv base h s) (htimer : o.timer = t)
    (ho : ∀ u, o ≠ .start u ∧ o ≠ .detach u) (hstop : o = .stop t → (s.timers.timer t).activated = false)
    (hsame : (s.timers.timer t).attached = true ∧ x.timeoutTick = (s.timers.timer t).timeoutTick ∧
        x.activated = (s.timers.timer t).activated ∧ x.soft = (s.timers.timer t).soft ∨
      (s.timers.timer t).attached = false ∧ x.activated = false)
    (hinv : TimerInv base ((s, .op o) :: h) { s with timers := s.timers.setTimer t x }) :
    DeliveryInv base ((s, .op o) :: h) { s with timers := s.timers.setTimer t x } := by
  have ha : started s (.op o) = none := by
    cases o with
    | start u => exact absurd rfl (ho u).1
    | _ => rfl
  have hrem (u : ι) (hu : removed (.op o) = some u) : u = t ∧ (s.timers.timer t).activated = false := by
    cases o with
    | stop v =>
      obtain rfl : v = t := htimer
      exact ⟨(Option.some.inj hu).symm, hstop rfl⟩
    | detach v => exact absurd rfl (ho v).2
    | _ => simp [removed] at hu
  have hother (u : ι) (hut : u ≠ t) : (s.timers.setTimer t x).timer u = s.timers.timer u :=
    Function.update_of_ne hut ..
  have hself : (s.timers.setTimer t x).timer t = x := Function.update_self ..
  have hflag (u : ι) (hu : u ∈ s.timers.list ++ (s.timers.softList ++ s.timers.temp)) :
      ((s.timers.setTimer t x).timer u).activated = (s.timers.timer u).activated ∧
        ((s.timers.setTimer t x).timer u).soft = (s.timers.timer u).soft := by
    by_cases hut : u = t
    · subst hut
      rw [hself]
      rcases hsame with ⟨-, -, hactivated, hsoft⟩ | ⟨hnot, -⟩
      · exact ⟨hactivated, hsoft⟩
      · simp [hi.timer.lists.attached u hu] at hnot
    · rw [hother u hut]
      exact ⟨rfl, rfl⟩
  have harmed : armed ((s, .op o) :: h) = armed h := by
    cases hr : removed (.op o) with
    | none => exact armed_same ha rfl hr
    | some u =>
      obtain ⟨rfl, hoff⟩ := hrem u hr
      have hnone : armed h u = none := by
        by_contra hne
        have := hi.activated u ((hi.linked u).mp (Option.ne_none_iff_exists'.mp hne))
        simp [hoff] at this
      rw [armed_ended ha (.inr ⟨rfl, hr⟩), ← hnone, Function.update_eq_self]
  refine hi.same ha harmed rfl rfl (fun u hu => hflag u ?_) hinv fun u hpc => ?_
  · rcases hu with hu | hu <;> simp [hu]
  · have hold := hi.again u hpc
    rw [stillPeriodic_cons]
    have hsame' : (u ∈ s.timers.temp ∧ ((s.timers.setTimer t x).timer u).activated = true) ↔
        u ∈ s.timers.temp ∧ (s.timers.timer u).activated = true :=
      and_congr_right fun hm => by rw [(hflag u (by simp [hm])).1]
    rw [show (s.timers.setTimer t x).temp = s.timers.temp from rfl, hsame', ← hold]
    by_cases hr : removed (.op o) = some u
    · obtain ⟨rfl, hoff⟩ := hrem u hr
      simp [called, Touches, hr, hold, hoff]
    · simp [called, Touches, ha, hr]

theorem deliveryInv_step (hi : DeliveryInv base h s)
    (hperiod : ∀ t, started s a = some t → 0 < (s.timers.timer t).initTick.toNat)
    (hs : timerStep s a = some s') : DeliveryInv base ((s, a) :: h) s' := by
  have hinv := timerInv_step hi.timer hperiod hs
  have hnodup := hi.timer.lists.nodup
  cases timerStep_effect hnodup hs with
  | @opStart t x hstart =>
    obtain ⟨-, -, -, htemp, hother, -, -⟩ := rtTimerStart_spec hstart
    refine hi.start rfl hstart hinv fun u hpc => ?_
    have hold := hi.again u hpc
    rw [stillPeriodic_cons, htemp]
    by_cases hut : u = t
    · subst hut
      have hnot : u ∉ s.timers.temp.erase u := fun hm =>
        not_mem_remove hnodup u (List.mem_append_right _ (List.mem_append_right _ hm))
      simp [hnot, Touches, started, called]
    · rw [hother u hut, List.mem_erase_of_ne hut]
      simp [Touches, started, removed, called, Ne.symm hut, hold]
  | @restart t x hpc hr hstart =>
    have ha : started s .ret = some t := by simp only [started, hpc, hr, ↓reduceIte]
    exact hi.start ha hstart hinv fun _ he => by cases he
  | @opDrop t o x ho hx =>
    have ha : started s (.op o) = none := by rcases ho with rfl | rfl <;> rfl
    have hrem : removed (.op o) = some t := by rcases ho with rfl | rfl <;> rfl
    refine hi.ended ha (.inr ⟨rfl, hrem⟩) (fun u => linked_remove hnodup)
      (fun u => ⟨List.mem_of_mem_erase, List.mem_of_mem_erase⟩) (fun u hut => Function.update_of_ne hut ..) hinv
      fun u hpc => ?_
    have hold := hi.again u hpc
    rw [stillPeriodic_cons]
    by_cases hut : u = t
    · subst hut
      simp [Timers.setTimer, hx, Touches, hrem, called]
    · simp [Timers.setTimer, Timers.remove, hut, Touches, ha, hrem, called, Ne.symm hut, hold]
  | opSet x htimer ho hstop hx hsame => exact hi.set htimer ho hstop hsame hinv
  | tick hpc =>
    exact hi.same rfl (armed_same rfl rfl rfl) rfl rfl (fun _ _ => ⟨rfl, rfl⟩) hinv fun _ he => by cases he
  | @due current t rest hpc hlist hdue =>
    have hcalled : called s .check = some t := by simp [called, hpc, hlist, hdue]
    obtain ⟨hl, hsoft, htemp, -, hother, hself⟩ := expire_spec s.timers t
    have hon : (s.timers.timer t).activated = true := hi.activated t (.inl (by simp [hlist]))
    refine hi.ended rfl (.inl ⟨hcalled, rfl⟩) (fun u => ?_) (fun u => ?_) hother hinv fun u hcb => ?_
    · rw [← linked_remove hnodup, Linked, hl, hsoft]
      rfl
    · rw [hl, hsoft]
      exact ⟨List.mem_of_mem_erase, List.mem_of_mem_erase⟩
    · obtain rfl := CheckPc.callback.inj hcb
      rw [stillPeriodic_cons, htemp, hself, hon]
      simp [hcalled, Touches]
  | @leave current hpc hnone =>
    have hcalled : called s .check = none := by
      simp only [called, hpc, Option.filter_eq_none_iff]
      exact fun t ht => by simp [hnone t ht]
    exact hi.same rfl (armed_same rfl hcalled rfl) rfl rfl (fun _ _ => ⟨rfl, rfl⟩) hinv fun _ he => by cases he
  | @gone t hpc htemp =>
    have ha : started s .ret = none := by simp [started, hpc, Timers.restarts, htemp]
    exact hi.same ha (armed_same ha rfl rfl) rfl rfl (fun _ _ => ⟨rfl, rfl⟩) hinv fun _ he => by cases he
  | @finished t hpc htemp hflags =>
    have ha : started s .ret = none := by simpa [started, hpc, Timers.restarts, htemp] using hflags
    have htemp' := hi.timer.mem_temp hpc htemp
    have hnot := hi.timer.not_linked htemp'
    exact hi.same ha (armed_same ha rfl rfl) (List.erase_of_not_mem fun hm => hnot (.inl hm))
      (List.erase_of_not_mem fun hm => hnot (.inr hm)) (fun _ _ => ⟨rfl, rfl⟩) hinv fun _ he => by cases he

theorem deliveryInv (hrun : (timers ι base).Run h s) (hperiod : PeriodsOk h) : DeliveryInv base h s := by
  refine hrun.invariant (I := fun h s => DeliveryInv base h s) ?_ ?_ hperiod
  · intro s hs
    exact
      { timer := timerInv (.init hs) trivial
        linked := fun t => by simp [armed, Linked, hs.list, hs.softList]
        ends := nofun
        activated := fun t ht => by simp [Linked, hs.list, hs.softList] at ht
        kind := fun t => by simp [hs.list, hs.softList]
        again := fun t hpc => by simp [hs.pc] at hpc }
  · rintro h s a s' - hi hp hs
    exact deliveryInv_step hi hp hs

end steps

/-! ## A timer that is left alone -/

/-- A start of a timer: the tick, the period, the kind, and the ticks of the calls since, latest first. -/
structure Course where
  tick : Nat
  period : Nat
  periodic : Bool
  calls : List Nat

/-- The course of a timer since its last start by `rt_timer_start`, if it was the argument of no operation since. -/
def course : History (TimerState ι) (TimerAction ι) → ι → Option Course
  | [], _ => none
  | (s, .op o) :: h, t =>
    if o = .start t then
      some
        { tick := ticks h
          period := (s.timers.timer t).initTick.toNat
          periodic := (s.timers.timer t).periodic
          calls := [] }
    else if o.timer = t then none
    else course h t
  | (s, a) :: h, t =>
    if called s a = some t then (course h t).map fun c => { c with calls := ticks h :: c.calls } else course h t

/-- The ticks at which the function is to be called, up to tick `now`. -/
def Course.due (c : Course) (now : Nat) : List Nat :=
  if c.periodic then (List.range ((now - c.tick) / c.period)).map fun i => c.tick + (i + 1) * c.period
  else if c.tick + c.period ≤ now then [c.tick + c.period] else []

/-- After `k` calls the timer is armed, or in its function; or it is done. -/
def Stage (h : History (TimerState ι) (TimerAction ι)) (s : TimerState ι) (t : ι) (c : Course) (k : Nat) : Prop :=
  (armed h t = some (c.tick + k * c.period, c.period) ∧ c.tick + k * c.period ≤ ticks h ∧
    (c.periodic = false → k = 0)) ∨
  (ticks h = c.tick + k * c.period ∧ s.pc = .callback t ∧ c.periodic = true ∧ StillPeriodic t h) ∨
  (c.periodic = false ∧ k = 1 ∧ c.tick + c.period ≤ ticks h ∧ armed h t = none)

structure CourseOk (h : History (TimerState ι) (TimerAction ι)) (s : TimerState ι) (t : ι) (c : Course) : Prop where
  period : (s.timers.timer t).initTick.toNat = c.period
  pos : 0 < c.period
  periodic : (s.timers.timer t).periodic = c.periodic
  calls : ∃ k, c.calls.reverse = (List.range k).map (fun i => c.tick + (i + 1) * c.period) ∧ Stage h s t c k

section course

variable {base : BitVec 32} {h : History (TimerState ι) (TimerAction ι)} {s s' : TimerState ι} {a : TimerAction ι}
  {t : ι} {c : Course}

theorem CourseOk.keep (hc : CourseOk h s t c) (hstarted : started s a ≠ some t) (hcalled : called s a ≠ some t)
    (hremoved : removed a ≠ some t)
    (htimer : (s'.timers.timer t).initTick = (s.timers.timer t).initTick ∧
      (s'.timers.timer t).periodic = (s.timers.timer t).periodic)
    (hticks : ticks h ≤ ticks ((s, a) :: h))
    (hcb : s.pc = .callback t → c.periodic = true → StillPeriodic t h →
      s'.pc = .callback t ∧ ticks ((s, a) :: h) = ticks h) : CourseOk ((s, a) :: h) s' t c := by
  have harmed : armed ((s, a) :: h) t = armed h t := by
    rw [armed, if_neg hstarted, if_neg (not_or.mpr ⟨hcalled, hremoved⟩)]
  obtain ⟨k, hcalls, hstage⟩ := hc.calls
  refine ⟨htimer.1 ▸ hc.period, hc.pos, htimer.2.trans hc.periodic, k, hcalls, ?_⟩
  unfold Stage
  rw [harmed]
  rcases hstage with ⟨h₁, h₂, h₃⟩ | ⟨h₁, hpc, hp, hstill⟩ | ⟨hp, h₁, h₂, h₃⟩
  · exact .inl ⟨h₁, h₂.trans hticks, h₃⟩
  · obtain ⟨hpc', hsame⟩ := hcb hpc hp hstill
    refine .inr (.inl ⟨hsame.trans h₁, hpc', hp, stillPeriodic_cons.mpr (.inr ⟨?_, hstill⟩)⟩)
    exact not_or.mpr ⟨hstarted, not_or.mpr ⟨hremoved, hcalled⟩⟩
  · exact .inr (.inr ⟨hp, h₁, h₂.trans hticks, h₃⟩)

omit [DecidableEq ι] in
theorem ticks_le : ticks h ≤ ticks ((s, a) :: h) := by
  cases a <;> simp [ticks]

theorem CourseOk.call {current : BitVec 32} {rest : List ι} (hi : DeliveryInv base h s) (hc : CourseOk h s t c)
    (hpc : s.pc = .check current) (hlist : s.timers.list = t :: rest) (hdue : s.timers.due current t = true) :
    CourseOk ((s, .check) :: h) { timers := s.timers.expire t, pc := .callback t } t
      { c with calls := ticks h :: c.calls } := by
  have hcalled : called s .check = some t := by simp [called, hpc, hlist, hdue]
  obtain ⟨-, -, -, -, -, hself⟩ := expire_spec s.timers t
  have hin : t ∈ s.timers.list := by simp [hlist]
  obtain rfl := hi.timer.current current hpc
  have hnow := (hi.timer.lists.due_iff hin).mp hdue
  obtain ⟨⟨n, p⟩, harmed⟩ := (hi.linked t).mpr (.inl hin)
  have hends := hi.ends t n p harmed
  obtain ⟨k, hcalls, hstage⟩ := hc.calls
  -- the timer is in the list, so it is armed
  obtain ⟨rfl, rfl, hzero⟩ : n = c.tick + k * c.period ∧ p = c.period ∧ (c.periodic = false → k = 0) := by
    rcases hstage with ⟨h₁, -, h₃⟩ | ⟨-, hcb, -⟩ | ⟨-, -, -, hnone⟩
    · rw [harmed] at h₁
      obtain ⟨h₁, h₂⟩ := Prod.mk.inj (Option.some.inj h₁)
      exact ⟨h₁, h₂, h₃⟩
    · simp [hpc] at hcb
    · simp [harmed] at hnone
  have htick : ticks h = c.tick + (k + 1) * c.period := by
    rw [← hnow, ← hends, Nat.add_assoc, Nat.succ_mul]
  refine ⟨by rw [hself]; exact hc.period, hc.pos, by rw [hself]; exact hc.periodic, k + 1, ?_, ?_⟩
  · rw [List.range_succ, List.map_append, List.reverse_cons, hcalls, htick]
    rfl
  · by_cases hp : c.periodic = true
    · exact .inr (.inl ⟨htick, rfl, hp, stillPeriodic_cons.mpr (.inl ⟨hcalled, hc.periodic.trans hp⟩)⟩)
    · have hp' : c.periodic = false := by simpa using hp
      refine .inr (.inr ⟨hp', by simp [hzero hp'], ?_, ?_⟩)
      · show c.tick + c.period ≤ ticks h
        rw [htick, hzero hp', Nat.zero_add, Nat.one_mul]
      · rw [armed, if_neg nofun, if_pos (.inl hcalled)]

theorem CourseOk.again {x : Timers ι} (hi : DeliveryInv base h s) (hc : CourseOk h s t c) (hpc : s.pc = .callback t)
    (hr : s.timers.restarts t = true) (hs : s.timers.rtTimerStart t = some x) :
    CourseOk ((s, .ret) :: h) { timers := x, pc := .check x.tick } t c := by
  have hstarted : started s .ret = some t := by simp only [started, hpc, hr, ↓reduceIte]
  obtain ⟨-, -, -, -, -, hself, -⟩ := rtTimerStart_spec hs
  obtain ⟨htemp, hperiodic, -⟩ := of_decide_eq_true hr
  obtain ⟨k, hcalls, hstage⟩ := hc.calls
  refine ⟨by rw [hself]; exact hc.period, hc.pos, by rw [hself]; exact hc.periodic, k, hcalls, .inl ?_⟩
  have hp : c.periodic = true := hc.periodic.symm.trans hperiodic
  have hnone := hi.not_armed (hi.timer.mem_temp hpc htemp)
  rcases hstage with ⟨h₁, -⟩ | ⟨h₁, -⟩ | ⟨hp', -⟩
  · simp [hnone] at h₁
  · refine ⟨?_, h₁.ge, by simp [hp]⟩
    rw [armed, if_pos hstarted, hc.period, ← h₁]
  · simp [hp] at hp'

omit [DecidableEq ι] in
theorem called_eq (ht : called s a = some t) : ∃ current rest, a = .check ∧ s.pc = .check current ∧
    s.timers.list = t :: rest ∧ s.timers.due current t = true := by
  cases a with
  | check =>
    cases hpc : s.pc with
    | check current =>
      simp only [called, hpc, Option.filter_eq_some_iff] at ht
      obtain ⟨hhead, hdue⟩ := ht
      obtain ⟨rest, hrest⟩ := List.head?_eq_some_iff.mp hhead
      exact ⟨current, rest, rfl, rfl, hrest, hdue⟩
    | idle => simp [called, hpc] at ht
    | callback u => simp [called, hpc] at ht
  | _ => simp [called] at ht

omit [DecidableEq ι] in
theorem started_op_ne {o : TimerOp ι} (hne : o.timer ≠ t) : started s (.op o) ≠ some t := by
  cases o with
  | start u => exact fun he => hne (Option.some.inj he)
  | _ => exact fun he => by cases he

omit [DecidableEq ι] in
theorem removed_op_ne {o : TimerOp ι} (hne : o.timer ≠ t) : removed (.op o) ≠ some t := by
  cases o with
  | stop u => exact fun he => hne (Option.some.inj he)
  | detach u => exact fun he => hne (Option.some.inj he)
  | _ => exact fun he => by cases he

theorem CourseOk.op {o : TimerOp ι} (hc : CourseOk h s t c) (hne : o.timer ≠ t) (hpc : s'.pc = s.pc)
    (htimer : s'.timers.timer t = s.timers.timer t) : CourseOk ((s, .op o) :: h) s' t c := by
  refine hc.keep (started_op_ne hne) (by simp) (removed_op_ne hne) ?_ ticks_le fun hcb _ _ => ⟨hpc.trans hcb, rfl⟩
  rw [htimer]
  exact ⟨rfl, rfl⟩

theorem course_op_ne {o : TimerOp ι} (hne : o.timer ≠ t) : course ((s, .op o) :: h) t = course h t := by
  have hstart : o ≠ .start t := by
    rintro rfl
    exact hne rfl
  rw [course, if_neg hstart, if_neg hne]

theorem course_op_self {o : TimerOp ι} (hstart : o ≠ .start t) (htimer : o.timer = t) :
    course ((s, .op o) :: h) t = none := by
  rw [course, if_neg hstart, if_pos htimer]

/-- A step that is no operation, and does not call the function of the timer. -/
theorem course_not_called (ha : ∀ o, a ≠ .op o) (hcalled : called s a ≠ some t) :
    course ((s, a) :: h) t = course h t := by
  rw [course, if_neg hcalled]
  exact fun o => ha o

theorem CourseOk.start {x : Timers ι} (hpos : 0 < (s.timers.timer t).initTick.toNat)
    (hstart : s.timers.rtTimerStart t = some x) :
    CourseOk ((s, .op (.start t)) :: h) { s with timers := x } t
      ⟨ticks h, (s.timers.timer t).initTick.toNat, (s.timers.timer t).periodic, []⟩ := by
  obtain ⟨-, -, -, -, -, hself, -⟩ := rtTimerStart_spec hstart
  refine ⟨by rw [hself], hpos, by rw [hself], 0, rfl, .inl ⟨?_, ?_, fun _ => rfl⟩⟩
  · rw [armed, if_pos (show started s (.op (.start t)) = some t from rfl)]
    simp
  · simp [ticks]

theorem CourseOk.beside (hc : CourseOk h s t c) (hstarted : started s a ≠ some t)
    (hcalled : called s a ≠ some t) (hremoved : removed a ≠ some t)
    (htimer : s'.timers.timer t = s.timers.timer t) (hpc : s.pc ≠ .callback t) : CourseOk ((s, a) :: h) s' t c := by
  refine hc.keep hstarted hcalled hremoved ?_ ticks_le fun hcb => absurd hcb hpc
  rw [htimer]
  exact ⟨rfl, rfl⟩

theorem courseOk_step (hi : DeliveryInv base h s) (hc : ∀ t c, course h t = some c → CourseOk h s t c)
    (hperiod : ∀ t, started s a = some t → 0 < (s.timers.timer t).initTick.toNat) (hs : timerStep s a = some s')
    (t : ι) (c : Course) (ht : course ((s, a) :: h) t = some c) : CourseOk ((s, a) :: h) s' t c := by
  cases timerStep_effect hi.timer.lists.nodup hs with
  | @opStart u x hstart =>
    by_cases hut : u = t
    · subst hut
      rw [course, if_pos rfl] at ht
      obtain rfl := Option.some.inj ht
      exact .start (hperiod u rfl) hstart
    · obtain ⟨-, -, -, -, hother, -, -⟩ := rtTimerStart_spec hstart
      have hne : (TimerOp.start u).timer ≠ t := hut
      rw [course_op_ne hne] at ht
      exact (hc t c ht).op hne rfl (hother t (Ne.symm hut))
  | @opDrop u o x ho hx =>
    have htimer : o.timer = u := by rcases ho with rfl | rfl <;> rfl
    have hnot : o ≠ .start t := by rcases ho with rfl | rfl <;> simp
    by_cases hut : u = t
    · rw [course_op_self hnot (htimer.trans hut)] at ht
      contradiction
    · have hne : o.timer ≠ t := htimer.trans_ne hut
      rw [course_op_ne hne] at ht
      exact (hc t c ht).op hne rfl (Function.update_of_ne (Ne.symm hut) ..)
  | @opSet u o x htimer ho hstop hx hsame =>
    by_cases hut : u = t
    · rw [course_op_self (ho t).1 (htimer.trans hut)] at ht
      contradiction
    · have hne : o.timer ≠ t := htimer.trans_ne hut
      rw [course_op_ne hne] at ht
      exact (hc t c ht).op hne rfl (Function.update_of_ne (Ne.symm hut) ..)
  | tick hpc =>
    rw [course_not_called (by simp) (by simp)] at ht
    exact (hc t c ht).beside (by simp) (by simp) (by simp) rfl (by simp [hpc])
  | @due current u rest hpc hlist hdue =>
    have hcalled : called s .check = some u := by simp [called, hpc, hlist, hdue]
    by_cases hut : u = t
    · subst hut
      rw [course, if_pos hcalled] at ht
      · obtain ⟨c₀, hc₀, rfl⟩ := Option.map_eq_some_iff.mp ht
        exact CourseOk.call hi (hc u c₀ hc₀) hpc hlist hdue
      · simp
    · have hne : called s .check ≠ some t := fun he => hut (Option.some.inj (hcalled.symm.trans he))
      obtain ⟨-, -, -, -, hother, -⟩ := expire_spec s.timers u
      rw [course_not_called (by simp) hne] at ht
      exact (hc t c ht).beside (by simp) hne (by simp) (hother t (Ne.symm hut)) (by simp [hpc])
  | @leave current hpc hnone =>
    have hcalled : called s .check = none := by
      simp only [called, hpc, Option.filter_eq_none_iff]
      exact fun t ht => by simp [hnone t ht]
    rw [course_not_called (by simp) (by simp [hcalled])] at ht
    exact (hc t c ht).beside (by simp) (by simp [hcalled]) (by simp) rfl (by simp [hpc])
  | @restart u x hpc hr hstart =>
    have hstarted : started s .ret = some u := by simp only [started, hpc, hr, ↓reduceIte]
    rw [course_not_called (by simp) (by simp)] at ht
    by_cases hut : u = t
    · subst hut
      exact (hc u c ht).again hi hpc hr hstart
    · obtain ⟨-, -, -, -, hother, -, -⟩ := rtTimerStart_spec hstart
      refine (hc t c ht).beside (by simpa [hstarted] using hut) (by simp) (by simp) (hother t (Ne.symm hut)) ?_
      exact fun hcb => hut (CheckPc.callback.inj (hpc.symm.trans hcb))
  | @gone u hpc htemp =>
    have ha : started s .ret = none := by simp [started, hpc, Timers.restarts, htemp]
    rw [course_not_called (by simp) (by simp)] at ht
    refine (hc t c ht).keep (by simp [ha]) (by simp) (by simp) ⟨rfl, rfl⟩ ticks_le ?_
    intro hcb _ hstill
    have hin := ((hi.again t hcb).mp hstill).1
    simp [htemp] at hin
  | @finished u hpc htemp hflags =>
    have ha : started s .ret = none := by simpa [started, hpc, Timers.restarts, htemp] using hflags
    rw [course_not_called (by simp) (by simp)] at ht
    refine (hc t c ht).keep (by simp [ha]) (by simp) (by simp) ⟨rfl, rfl⟩ ticks_le ?_
    intro hcb hp hstill
    obtain rfl := CheckPc.callback.inj (hpc.symm.trans hcb)
    exact absurd ⟨(hc u c ht).periodic.trans hp, ((hi.again u hcb).mp hstill).2⟩ hflags

theorem courseOk (hrun : (timers ι base).Run h s) (hperiod : PeriodsOk h) :
    ∀ t c, course h t = some c → CourseOk h s t c := by
  refine hrun.invariant (I := fun h s => DeliveryInv base h s ∧ ∀ t c, course h t = some c → CourseOk h s t c)
    ?_ ?_ hperiod |>.2
  · exact fun s hs => ⟨deliveryInv (.init hs) trivial, nofun⟩
  · rintro h s a s' - ⟨hi, hc⟩ hp hs
    exact ⟨deliveryInv_step hi hp hs, courseOk_step hi hc hp hs⟩

/-- Outside of the check, a timer that is left alone has been called as it is to be. -/
theorem CourseOk.calls_eq (hi : DeliveryInv base h s) (hc : CourseOk h s t c) (hidle : s.pc = .idle)
    (hsoft : (s.timers.timer t).soft = false) : c.calls.reverse = c.due (ticks h) := by
  obtain ⟨k, hcalls, hstage⟩ := hc.calls
  rcases hstage with ⟨harmed, hle, hzero⟩ | ⟨-, hcb, -⟩ | ⟨hp, rfl, hle, -⟩
  · have hin : t ∈ s.timers.list := by
      rcases (hi.linked t).mp ⟨_, harmed⟩ with hin | hin
      · exact hin
      · exact absurd ((hi.kind t).2 hin) (by simp [hsoft])
    have hlt := hi.timer.future hidle t hin
    rw [← hi.ends t _ _ harmed] at hlt
    by_cases hp : c.periodic = true
    · have hk : (ticks h - c.tick) / c.period = k := by
        refine Nat.div_eq_of_lt_le ?_ ?_
        · omega
        · rw [Nat.succ_mul]
          omega
      rw [hcalls, Course.due, if_pos hp, hk]
    · obtain rfl := hzero (by simpa using hp)
      rw [hcalls, Course.due, if_neg hp, if_neg (by omega)]
      rfl
  · simp [hidle] at hcb
  · rw [hcalls, Course.due, hp, if_neg (by simp), if_pos hle]
    simp

/-- Every call of a timeout function is that of an arming which has not ended, `p` ticks after it; outside of the check
no arming of a hard timer is older; behind its function a timer is armed again exactly if it was called as a periodic
timer, is one still, and was not touched in between. So a hard timer that is left alone after its start is called once,
at the tick of its deadline, or at every multiple of its period. -/
theorem timer_delivery (hrun : (timers ι base).Run h s) (hperiod : PeriodsOk h) :
    Throughout (fun h s a => ∀ t, called s a = some t → ∃ n p, armed h t = some (n, p) ∧ ticks h = n + p) h ∧
    Throughout (fun h s a => ∀ t, s.pc = .callback t → a = .ret →
      (started s a = some t ↔ StillPeriodic t h ∧ (s.timers.timer t).periodic = true)) h ∧
    (s.pc = .idle → ∀ t, (s.timers.timer t).soft = false →
      (∀ n p, armed h t = some (n, p) → ticks h < n + p) ∧
      ∀ c, course h t = some c → c.calls.reverse = c.due (ticks h)) := by
  have hinv (h : History (TimerState ι) (TimerAction ι)) (s : TimerState ι) (hrun : (timers ι base).Run h s)
      (hperiod : PeriodsOk h) : DeliveryInv base h s := deliveryInv hrun hperiod
  refine ⟨?_, ?_, fun hidle t hsoft => ⟨fun n p harmed => ?_, fun c hc => ?_⟩⟩
  · refine System.Run.throughout hinv ?_ hrun hperiod
    rintro h s a - - hi - - t ht
    obtain ⟨current, rest, -, hpc, hlist, hdue⟩ := called_eq ht
    obtain rfl := hi.timer.current current hpc
    have hin : t ∈ s.timers.list := by simp [hlist]
    obtain ⟨⟨n, p⟩, harmed⟩ := (hi.linked t).mpr (.inl hin)
    refine ⟨n, p, harmed, ?_⟩
    rw [hi.ends t n p harmed, (hi.timer.lists.due_iff hin).mp hdue]
  · refine System.Run.throughout hinv ?_ hrun hperiod
    rintro h s a - - hi - - t hpc rfl
    rw [hi.again t hpc]
    have hrestarts : started s .ret = some t ↔ s.timers.restarts t = true := by simp [started, hpc]
    rw [hrestarts, Timers.restarts, decide_eq_true_eq]
    constructor
    · rintro ⟨htemp, hp, hon⟩
      exact ⟨⟨hi.timer.mem_temp hpc htemp, hon⟩, hp⟩
    · rintro ⟨⟨hin, hon⟩, hp⟩
      exact ⟨List.ne_nil_of_mem hin, hp, hon⟩
  · have hi := deliveryInv hrun hperiod
    rcases (hi.linked t).mp ⟨_, harmed⟩ with hin | hin
    · rw [hi.ends t n p harmed]
      exact hi.timer.future hidle t hin
    · exact absurd ((hi.kind t).2 hin) (by simp [hsoft])
  · exact (courseOk hrun hperiod t c hc).calls_eq (deliveryInv hrun hperiod) hidle hsoft

/-- Two timers end at the same tick, and the function of the first one stops the second. -/
theorem stopped_at_its_tick : ∃ h s, (timers Bool 4294967294).Run h s ∧ PeriodsOk h ∧ s.pc = .idle ∧ ticks h = 1 ∧
    deadline h false = 1 ∧ count (fun s a => started s a = some false) h = 1 ∧
    count (fun s a => called s a = some false) h = 0 ∧
    Throughout (fun h _ a => removed a = some false → ticks h = 1) h :=
  System.exists_run (S := timers Bool 4294967294) timersInit_start
    [.op (.init true 1 true false), .op (.init false 1 false false), .op (.start true), .op (.start false), .tick,
      .check, .op (.stop false), .ret, .check]
    (fun h s => PeriodsOk h ∧ s.pc = .idle ∧ ticks h = 1 ∧ deadline h false = 1 ∧
      count (fun s a => started s a = some false) h = 1 ∧ count (fun s a => called s a = some false) h = 0 ∧
      Throughout (fun h _ a => removed a = some false → ticks h = 1) h) (by decide +kernel)

/-- A periodic timer is called at every second tick, while the function of another one starts that again. -/
theorem timer_delivery_run : ∃ h s, (timers Bool 4294967294).Run h s ∧
    ∃ c, course h true = some c ∧ c.calls.reverse = [2, 4] := by
  obtain ⟨h, s, hrun, hperiod, hidle, hsoft, hticks, hcourse⟩ :=
    System.exists_run (S := timers Bool 4294967294) timersInit_start
      [.op (.init true 2 true false), .op (.init false 1 false false), .op (.start true), .op (.start false), .tick,
        .check, .op (.start false), .ret, .check, .tick, .check, .ret, .check, .op (.start false), .ret, .check,
        .tick, .check, .ret, .check, .tick, .check, .ret, .check]
      (fun h s => PeriodsOk h ∧ s.pc = .idle ∧ (s.timers.timer true).soft = false ∧ ticks h = 4 ∧
        (course h true).map (fun c => (c.tick, c.period, c.periodic)) = some (0, 2, true)) (by decide +kernel)
  obtain ⟨⟨tick, period, periodic, calls⟩, hc, heq⟩ := Option.map_eq_some_iff.mp hcourse
  obtain ⟨rfl, rfl, rfl⟩ : tick = 0 ∧ period = 2 ∧ periodic = true := by simpa using heq
  have hcalls := ((timer_delivery hrun hperiod).2.2 hidle true hsoft).2 _ hc
  rw [hticks] at hcalls
  exact ⟨h, s, hrun, _, hc, by simpa [Course.due, List.range_succ] using hcalls⟩

end course

end ThyristorController.TimerLists
