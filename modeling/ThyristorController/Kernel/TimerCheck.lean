import ThyristorController.Kernel.Timer

/-!
# The loops of the timer checks (`src/timer.c`)

One call of `rt_timer_check`, or of `rt_soft_timer_check`. While a timeout function runs, timers are stopped, detached
and changed, its own too. In the function of a hard timer interrupts are disabled; in that of a soft timer they are not,
and the tick counter advances.

A periodic timer is started again in the loop that looks for due timers. `check_ends` says when each timer is called
once at most, so that the loop comes to its end; with a period of 0 it does not (`period_zero_never_ends`).
-/

namespace ThyristorController.TimerChecks

open Transition
open TimerLists (Timers RtTimer TimerOp TimerState TimerAction)

variable {ι : Type} [DecidableEq ι]

/-! ## The system -/

/-- `rt_soft_timer_list` or `rt_timer_list`. -/
def rows (soft : Bool) (s : Timers ι) : List ι := if soft = true then s.softList else s.list

/-- A step of `rt_soft_timer_check` or `rt_timer_check`, or of a timeout function. -/
def checkStep (soft : Bool) (s : TimerState ι) : TimerAction ι → Option (TimerState ι)
  | .op o =>
    match s.pc with
    | .callback _ => (s.timers.op o).map fun x => { s with timers := x }
    | _ => none
  | .tick =>
    match s.pc with
    | .callback _ => if soft = true then some { s with timers := { s.timers with tick := s.timers.tick + 1 } } else none
    | _ => none
  | .check =>
    match s.pc with
    | .check current =>
      match rows soft s.timers with
      | [] => some { s with pc := .idle }
      | t :: _ =>
        -- the soft check reads the counter in every round, the hard one behind the timeout functions
        let current := if soft = true then s.timers.tick else current
        if s.timers.due current t then some { timers := s.timers.expire t, pc := .callback t }
        else some { s with pc := .idle }
    | _ => none
  | .ret =>
    match s.pc with
    | .callback t => (s.timers.finish t).map fun x => { timers := x, pc := .check x.tick }
    | _ => none

/-- The check begins: the timers are in one list at most, and are objects. -/
structure CheckInit (s : TimerState ι) : Prop where
  pc : s.pc = .check s.timers.tick
  temp : s.timers.temp = []
  nodup : (s.timers.list ++ (s.timers.softList ++ s.timers.temp)).Nodup
  attached : ∀ t ∈ s.timers.list ++ (s.timers.softList ++ s.timers.temp), (s.timers.timer t).attached = true

def timerCheck (soft : Bool) (s₀ : TimerState ι) : System (TimerState ι) (TimerAction ι) where
  init s := s = s₀
  step := checkStep soft

/-! ## What happened in a check -/

/-- How often the loop was entered or left. -/
def rounds (h : History (TimerState ι) (TimerAction ι)) : Nat := count (fun _ a => a = .check) h

/-- The timer was started in this check. -/
def Again : History (TimerState ι) (TimerAction ι) → ι → Prop
  | [], _ => False
  | (s, a) :: h, t => TimerLists.started s a = some t ∨ Again h t

instance Again.decidable : (h : History (TimerState ι) (TimerAction ι)) → (t : ι) → Decidable (Again h t)
  | [], _ => isFalse id
  | (s, a) :: h, t =>
    have : Decidable (Again h t) := Again.decidable h t
    inferInstanceAs (Decidable (TimerLists.started s a = some t ∨ Again h t))

/-- A timer that is started again has a period, and the counter does not get to its deadline while the check runs. -/
structure Rearms (soft : Bool) (h : History (TimerState ι) (TimerAction ι)) (s : TimerState ι) (a : TimerAction ι) :
    Prop where
  period : ∀ t ∈ TimerLists.started s a, (s.timers.timer t).initTick ≠ 0
  tick : a = .tick → ∀ t ∈ rows soft s.timers, Again h t → s.timers.tick + 1 ≠ (s.timers.timer t).timeoutTick

instance [Fintype ι] (soft : Bool) (h : History (TimerState ι) (TimerAction ι)) (s : TimerState ι) (a : TimerAction ι) :
    Decidable (Rearms soft h s a) :=
  decidable_of_iff ((∀ t ∈ TimerLists.started s a, (s.timers.timer t).initTick ≠ 0) ∧
    (a = .tick → ∀ t ∈ rows soft s.timers, Again h t → s.timers.tick + 1 ≠ (s.timers.timer t).timeoutTick))
    ⟨fun ⟨hp, ht⟩ => ⟨hp, ht⟩, fun ⟨hp, ht⟩ => ⟨hp, ht⟩⟩

/-- No timer is started by an operation. -/
def StartsNone (_ : History (TimerState ι) (TimerAction ι)) (_ : TimerState ι) (a : TimerAction ι) : Prop :=
  ∀ t, a ≠ .op (.start t)

instance [Fintype ι] (h : History (TimerState ι) (TimerAction ι)) (s : TimerState ι) (a : TimerAction ι) :
    Decidable (StartsNone h s a) := inferInstanceAs (Decidable (∀ t, a ≠ .op (.start t)))

/-- A deadline is ahead, and not as far as it would look like one that has passed. -/
def Ahead (s : Timers ι) (t : ι) : Prop :=
  0 < ((s.timer t).timeoutTick - s.tick).toNat ∧ ((s.timer t).timeoutTick - s.tick).toNat < rtTickMax / 2

/-- The timers in the list, except for those that were started in this check. -/
def left (soft : Bool) (h : History (TimerState ι) (TimerAction ι)) (s : TimerState ι) : Nat :=
  (rows soft s.timers).countP fun t => decide (¬ Again h t)

/-- Every round, but the last, takes one of the timers that are left. -/
structure CheckInv (soft : Bool) (s₀ : TimerState ι) (h : History (TimerState ι) (TimerAction ι)) (s : TimerState ι) :
    Prop where
  nodup : (s.timers.list ++ (s.timers.softList ++ s.timers.temp)).Nodup
  attached : ∀ t ∈ s.timers.list ++ (s.timers.softList ++ s.timers.temp), (s.timers.timer t).attached = true
  temp : ∀ t ∈ s.timers.temp, s.pc = .callback t
  current : ∀ current, s.pc = .check current → current = s.timers.tick
  ahead : ∀ t ∈ rows soft s.timers, Again h t → Ahead s.timers t
  rounds : rounds h + left soft h s ≤ (rows soft s₀.timers).length + if s.pc = .idle then 1 else 0

section check

variable {soft : Bool} {s₀ s s' : TimerState ι} {h : History (TimerState ι) (TimerAction ι)} {a : TimerAction ι}
  {x x' : Timers ι} {t u : ι}

omit [DecidableEq ι] in
theorem Ahead.not_due (ha : Ahead x t) : x.due x.tick t = false := by
  obtain ⟨hpos, hlt⟩ := ha
  have hmax : rtTickMax / 2 + rtTickMax / 2 ≤ 2 ^ 32 := by decide
  have hneg : x.tick - (x.timer t).timeoutTick = -((x.timer t).timeoutTick - x.tick) := by
    rw [BitVec.neg_sub, BitVec.add_comm, ← BitVec.sub_eq_add_neg]
  rw [Timers.due, decide_eq_false_iff_not, hneg, BitVec.toNat_neg, Nat.mod_eq_of_lt (by omega)]
  omega

omit [DecidableEq ι] in
theorem Ahead.tick (ha : Ahead x t) (hne : x.tick + 1 ≠ (x.timer t).timeoutTick) :
    Ahead { x with tick := x.tick + 1 } t := by
  obtain ⟨hpos, hlt⟩ := ha
  have hsub : (x.timer t).timeoutTick - (x.tick + 1) = (x.timer t).timeoutTick - x.tick - 1 := by bv_omega
  have hone : (x.timer t).timeoutTick - x.tick ≠ 1 := fun he => hne (by rw [← he]; bv_omega)
  unfold Ahead
  dsimp only
  rw [hsub]
  bv_omega

@[simp] theorem rows_remove : rows soft (x.remove t) = (rows soft x).erase t := by
  cases soft
  all_goals rfl

@[simp] theorem rows_setTimer {y : RtTimer} : rows soft (x.setTimer t y) = rows soft x := rfl

@[simp] theorem rows_expire : rows soft (x.expire t) = (rows soft x).erase t := by
  obtain ⟨hlist, hsoftList, -⟩ := TimerLists.expire_spec x t
  cases soft
  · exact hlist
  · exact hsoftList

theorem rows_start (soft : Bool) (hs : x.rtTimerStart t = some x') :
    (rows soft x').Perm (t :: (rows soft x).erase t) ∨ rows soft x' = (rows soft x).erase t := by
  obtain ⟨-, -, -, -, -, -, hlists⟩ := TimerLists.rtTimerStart_spec hs
  cases soft with
  | true =>
    rw [show rows true x' = x'.softList from rfl, show rows true x = x.softList from rfl]
    split_ifs at hlists
    · exact .inl (hlists.2 ▸ TimerLists.insertRow_perm)
    · exact .inr hlists.2
  | false =>
    rw [show rows false x' = x'.list from rfl, show rows false x = x.list from rfl]
    split_ifs at hlists
    · exact .inr hlists.1
    · exact .inl (hlists.1 ▸ TimerLists.insertRow_perm)

omit [DecidableEq ι] in
theorem mem_of_mem_rows (hu : u ∈ rows soft x) : u ∈ x.list ++ (x.softList ++ x.temp) := by
  cases soft
  · exact List.mem_append_left _ hu
  · exact List.mem_append_right _ (List.mem_append_left _ hu)

/-- What a step does. -/
inductive CheckEffect (soft : Bool) (s : TimerState ι) : TimerAction ι → TimerState ι → Prop
  | op {o : TimerOp ι} {t : ι} {x : Timers ι} (hpc : s.pc = .callback t) (hs : s.timers.op o = some x) :
      CheckEffect soft s (.op o) { s with timers := x }
  | tick {t : ι} (hpc : s.pc = .callback t) :
      CheckEffect soft s .tick { s with timers := { s.timers with tick := s.timers.tick + 1 } }
  | due {current : BitVec 32} {t : ι} {rest : List ι} (hpc : s.pc = .check current)
      (hrows : rows soft s.timers = t :: rest)
      (hdue : s.timers.due (if soft = true then s.timers.tick else current) t = true) :
      CheckEffect soft s .check { timers := s.timers.expire t, pc := .callback t }
  | leave {current : BitVec 32} (hpc : s.pc = .check current) : CheckEffect soft s .check { s with pc := .idle }
  | restart {t : ι} {x : Timers ι} (hpc : s.pc = .callback t) (hr : s.timers.restarts t = true)
      (hs : s.timers.rtTimerStart t = some x) : CheckEffect soft s .ret { timers := x, pc := .check x.tick }
  | drop {t : ι} {x : Timers ι} (hpc : s.pc = .callback t) (hr : s.timers.restarts t = false)
      (hx : s.timers.temp = [] ∧ x = s.timers ∨ x = s.timers.remove t) :
      CheckEffect soft s .ret { timers := x, pc := .check x.tick }

theorem checkStep_effect (hnodup : (s.timers.list ++ (s.timers.softList ++ s.timers.temp)).Nodup)
    (hs : checkStep soft s a = some s') : CheckEffect soft s a s' := by
  cases a with
  | op o =>
    cases hpc : s.pc with
    | idle => simp [checkStep, hpc] at hs
    | check current => simp [checkStep, hpc] at hs
    | callback t =>
      simp only [checkStep, hpc, Option.map_eq_some_iff] at hs
      obtain ⟨x, hx, rfl⟩ := hs
      exact hpc ▸ .op hpc hx
  | tick =>
    cases hpc : s.pc with
    | idle => simp [checkStep, hpc] at hs
    | check current => simp [checkStep, hpc] at hs
    | callback t =>
      simp only [checkStep, hpc] at hs
      split_ifs at hs
      obtain rfl := Option.some.inj hs
      exact hpc ▸ .tick hpc
  | check =>
    cases hpc : s.pc with
    | idle => simp [checkStep, hpc] at hs
    | callback t => simp [checkStep, hpc] at hs
    | check current =>
      simp only [checkStep, hpc] at hs
      cases hrows : rows soft s.timers with
      | nil =>
        simp only [hrows] at hs
        obtain rfl := Option.some.inj hs
        exact .leave hpc
      | cons t rest =>
        simp only [hrows] at hs
        by_cases hdue : s.timers.due (if soft = true then s.timers.tick else current) t = true
        · rw [if_pos hdue] at hs
          obtain rfl := Option.some.inj hs
          exact .due hpc hrows hdue
        · rw [if_neg hdue] at hs
          obtain rfl := Option.some.inj hs
          exact .leave hpc
  | ret =>
    cases hpc : s.pc with
    | idle => simp [checkStep, hpc] at hs
    | check current => simp [checkStep, hpc] at hs
    | callback t =>
      simp only [checkStep, hpc, Option.map_eq_some_iff] at hs
      obtain ⟨x, hx, rfl⟩ := hs
      rcases TimerLists.finish_cases hnodup hx with ⟨hr, hstart⟩ | ⟨hr, ⟨htemp, rfl⟩ | ⟨-, rfl, -⟩⟩
      · exact .restart hpc hr hstart
      · exact .drop hpc hr (.inl ⟨htemp, rfl⟩)
      · exact .drop hpc hr (.inr rfl)

omit [DecidableEq ι] in
theorem left_le {l l' : List ι} {p p' : ι → Prop} [DecidablePred p] [DecidablePred p'] (hl : l'.Sublist l)
    (hp : ∀ u, p u → p' u) : (l'.countP fun u => decide (¬ p' u)) ≤ l.countP fun u => decide (¬ p u) :=
  (List.countP_mono_left fun u _ hu => by
    rw [decide_eq_true_eq] at hu ⊢
    exact mt (hp u) hu).trans hl.countP_le

theorem rounds_check : rounds ((s, .check) :: h) = rounds h + 1 := by simp [rounds]

theorem rounds_other (ha : a ≠ .check) : rounds ((s, a) :: h) = rounds h := by simp [rounds, ha]

theorem CheckInv.bound (hi : CheckInv soft s₀ h s) (hpc : s.pc ≠ .idle) :
    TimerChecks.rounds h + left soft h s ≤ (rows soft s₀.timers).length := by
  have hrounds := hi.rounds
  rwa [if_neg hpc, Nat.add_zero] at hrounds

/-- A step that starts nothing, takes timers from the list at most, and keeps the deadlines of the others. -/
theorem CheckInv.frame (hi : CheckInv soft s₀ h s) (hnone : TimerLists.started s a = none) (hcheck : a ≠ .check)
    (hnodup : (s'.timers.list ++ (s'.timers.softList ++ s'.timers.temp)).Nodup)
    (hattached : ∀ u ∈ s'.timers.list ++ (s'.timers.softList ++ s'.timers.temp), (s'.timers.timer u).attached = true)
    (htemp : ∀ u ∈ s'.timers.temp, s'.pc = .callback u)
    (hcurrent : ∀ current, s'.pc = .check current → current = s'.timers.tick)
    (hrows : (rows soft s'.timers).Sublist (rows soft s.timers))
    (hahead : ∀ u ∈ rows soft s'.timers, Again h u → Ahead s'.timers u) (hpc : s.pc ≠ .idle) :
    CheckInv soft s₀ ((s, a) :: h) s' where
  nodup := hnodup
  attached := hattached
  temp := htemp
  current := hcurrent
  ahead u hu hagain := hahead u hu (hagain.resolve_left (by simp [hnone]))
  rounds := by
    have hleft : left soft ((s, a) :: h) s' ≤ left soft h s := left_le hrows fun u hu => .inr hu
    have hbound := hi.bound hpc
    rw [rounds_other hcheck]
    omega

theorem CheckInv.placed (hi : CheckInv soft s₀ h s) : TimerLists.Placed s.timers.tick 0 s.timers where
  tick := Clock.stamp_zero.symm
  nodup := hi.nodup
  attached := hi.attached

theorem checkInv_op (hi : CheckInv soft s₀ h s) (hstart : ∀ t, a ≠ .op (.start t)) {o : TimerOp ι} (ha : a = .op o)
    (hpc : s.pc = .callback t) (hs : s.timers.op o = some x) :
    CheckInv soft s₀ ((s, a) :: h) { s with timers := x } := by
  subst ha
  have hidle : s.pc ≠ .idle := by simp [hpc]
  have hnone : TimerLists.started s (.op o) = none := by
    cases o with
    | start u => exact absurd rfl (hstart u)
    | _ => rfl
  rcases TimerLists.op_cases hs with ⟨u, rfl, -⟩ | ⟨u, y, -, rfl, -⟩ | ⟨u, y, -, -, -, rfl, hy, hsame⟩
  · exact absurd rfl (hstart u)
  · have hplaced := hi.placed.drop u y
    refine hi.frame hnone (by simp) hplaced.nodup hplaced.attached
      (fun v hv => hi.temp v (List.mem_of_mem_erase hv)) (fun current hc => hi.current current hc) ?_ ?_ hidle
    · rw [rows_setTimer, rows_remove]
      exact List.erase_sublist
    · intro v hv hagain
      simp only [rows_setTimer, rows_remove] at hv
      have hne : v ≠ u := fun he =>
        TimerLists.not_mem_remove hi.nodup u (mem_of_mem_rows (by rw [rows_remove]; exact he ▸ hv))
      unfold Ahead
      rw [show ((s.timers.remove u).setTimer u y).timer v = s.timers.timer v from Function.update_of_ne hne ..]
      exact hi.ahead v (List.mem_of_mem_erase hv) hagain
  · have hplaced := hi.placed.set (t := u) hy
    refine hi.frame hnone (by simp) hplaced.nodup hplaced.attached hi.temp (fun current hc => hi.current current hc)
      (by simp) (fun v hv hagain => ?_) hidle
    rw [rows_setTimer] at hv
    have hold := hi.ahead v hv hagain
    by_cases hvu : v = u
    · subst hvu
      have hattached := hi.attached v (mem_of_mem_rows hv)
      obtain ⟨-, htimeout, -⟩ | ⟨hnot, -⟩ := hsame
      · unfold Ahead
        rw [show (s.timers.setTimer v y).timer v = y from Function.update_self .., htimeout]
        exact hold
      · simp [hattached] at hnot
    · unfold Ahead
      rw [show (s.timers.setTimer u y).timer v = s.timers.timer v from Function.update_of_ne hvu ..]
      exact hold

/-- A timer is called: it has not been started in this check, and is not left any more. -/
theorem checkInv_due (hi : CheckInv soft s₀ h s) {current : BitVec 32} {rest : List ι} (hpc : s.pc = .check current)
    (hrows : rows soft s.timers = t :: rest)
    (hdue : s.timers.due (if soft = true then s.timers.tick else current) t = true) :
    CheckInv soft s₀ ((s, .check) :: h) { timers := s.timers.expire t, pc := .callback t } := by
  have hnow : s.timers.due s.timers.tick t = true := by
    rw [hi.current current hpc] at hdue
    simpa using hdue
  have ht : t ∈ rows soft s.timers := by simp [hrows]
  have hnew : ¬ Again h t := fun hagain => by simp [(hi.ahead t ht hagain).not_due] at hnow
  have hplaced := hi.placed.expire (mem_of_mem_rows ht)
  obtain ⟨-, -, htemp, htick, hother, -⟩ := TimerLists.expire_spec s.timers t
  have hrest : rows soft (s.timers.expire t) = rest := by simp [hrows]
  have hagain (u : ι) : Again ((s, .check) :: h) u ↔ Again h u := by simp [Again, TimerLists.started]
  have hleft : left soft ((s, .check) :: h) { timers := s.timers.expire t, pc := .callback t } + 1 = left soft h s := by
    simp only [left, hrest, hrows, hagain]
    rw [List.countP_cons, if_pos (by simpa using hnew)]
  have hnodup : (t :: rest).Nodup := by
    rw [← hrows]
    cases soft
    · exact hi.placed.list_nodup
    · exact hi.placed.softList_nodup
  exact
    { nodup := hplaced.nodup
      attached := hplaced.attached
      temp := fun u hu => by
        rw [htemp] at hu
        rcases List.mem_cons.mp hu with rfl | hu
        · rfl
        · simpa [hpc] using hi.temp u (List.mem_of_mem_erase hu)
      current := fun _ he => by cases he
      ahead := fun u hu hu' => by
        rw [hrest] at hu
        have hne : u ≠ t := fun he => (List.nodup_cons.mp hnodup).1 (he ▸ hu)
        unfold Ahead
        rw [hother u hne, htick]
        exact hi.ahead u (by simp [hrows, hu]) ((hagain u).mp hu')
      rounds := by
        have hbound := hi.bound (by simp [hpc])
        rw [rounds_check]
        omega }

theorem checkInv_restart (hi : CheckInv soft s₀ h s) (hpc : s.pc = .callback t) (hr : s.timers.restarts t = true)
    (hperiod : (s.timers.timer t).initTick ≠ 0) (hs : s.timers.rtTimerStart t = some x) :
    CheckInv soft s₀ ((s, .ret) :: h) { timers := x, pc := .check x.tick } := by
  have hplaced := hi.placed.start hs
  have hrows := rows_start soft hs
  obtain ⟨-, hinit, htick, htemp, hother, hself, -⟩ := TimerLists.rtTimerStart_spec hs
  have hstarted : TimerLists.started s .ret = some t := by simp only [TimerLists.started, hpc, hr, ↓reduceIte]
  have hagain (u : ι) : Again ((s, .ret) :: h) u ↔ u = t ∨ Again h u := by
    rw [Again, hstarted, Option.some.injEq, eq_comm]
  have hmem (u : ι) (hu : u ∈ rows soft x) : u = t ∨ u ∈ (rows soft s.timers).erase t := by
    rcases hrows with hperm | heq
    · exact List.mem_cons.mp (hperm.mem_iff.mp hu)
    · exact .inr (heq ▸ hu)
  have hleft : left soft ((s, .ret) :: h) { timers := x, pc := .check x.tick } ≤ left soft h s := by
    have herase : (((rows soft s.timers).erase t).countP fun u => decide (¬ Again ((s, .ret) :: h) u)) ≤
        left soft h s :=
      left_le List.erase_sublist fun u hu => .inr hu
    unfold left
    dsimp only
    rcases hrows with hperm | heq
    · rw [hperm.countP_eq, List.countP_cons, if_neg (by simp [hagain])]
      exact herase
    · rw [heq]
      exact herase
  exact
    { nodup := hplaced.nodup
      attached := hplaced.attached
      temp := fun u hu => by
        rw [htemp] at hu
        obtain rfl := TimerLists.CheckPc.callback.inj (hpc.symm.trans (hi.temp u (List.mem_of_mem_erase hu)))
        exact absurd (List.mem_append_right _ (List.mem_append_right _ hu)) (TimerLists.not_mem_remove hi.nodup t)
      current := fun current hc => (TimerLists.CheckPc.check.inj hc).symm
      ahead := fun u hu hu' => by
        unfold Ahead
        by_cases hut : u = t
        · subst hut
          have hsub : s.timers.tick + (s.timers.timer u).initTick - s.timers.tick = (s.timers.timer u).initTick := by
            rw [BitVec.add_comm, BitVec.add_sub_cancel]
          rw [hself, htick, hsub]
          exact ⟨Nat.pos_of_ne_zero fun hz => hperiod (BitVec.eq_of_toNat_eq hz), hinit⟩
        · rw [hother u hut, htick]
          exact hi.ahead u (List.mem_of_mem_erase ((hmem u hu).resolve_left hut)) (((hagain u).mp hu').resolve_left hut)
      rounds := by
        have hbound := hi.bound (by simp [hpc])
        rw [rounds_other (by simp)]
        omega }

theorem checkInv_step (hi : CheckInv soft s₀ h s) (hstart : StartsNone h s a) (hre : Rearms soft h s a)
    (hs : checkStep soft s a = some s') : CheckInv soft s₀ ((s, a) :: h) s' := by
  cases checkStep_effect hi.nodup hs with
  | op hpc hx => exact checkInv_op hi hstart rfl hpc hx
  | tick hpc =>
    exact hi.frame rfl (by simp) hi.nodup hi.attached hi.temp (fun current hc => by simp [hpc] at hc) (.refl _)
      (fun u hu hagain => (hi.ahead u hu hagain).tick (hre.tick rfl u hu hagain)) (by simp [hpc])
  | due hpc hrows hdue => exact checkInv_due hi hpc hrows hdue
  | leave hpc =>
    exact
      { nodup := hi.nodup
        attached := hi.attached
        temp := fun u hu => by simpa [hpc] using hi.temp u hu
        current := nofun
        ahead := fun u hu hu' => hi.ahead u hu (hu'.resolve_left (by simp [TimerLists.started]))
        rounds := by
          have hleft : left soft ((s, .check) :: h) { s with pc := .idle } ≤ left soft h s :=
            left_le (.refl _) fun u hu => .inr hu
          have hbound := hi.bound (by simp [hpc])
          rw [rounds_check, if_pos rfl]
          omega }
  | @restart t x hpc hr hx =>
    have hstarted : TimerLists.started s .ret = some t := by simp only [TimerLists.started, hpc, hr, ↓reduceIte]
    exact checkInv_restart hi hpc hr (hre.period _ hstarted) hx
  | @drop t x hpc hr hx =>
    have hnone : TimerLists.started s .ret = none := by simp [TimerLists.started, hpc, hr]
    have hempty (u : ι) : u ∉ x.temp := fun hu => by
      rcases hx with ⟨htemp, rfl⟩ | rfl
      · simp [htemp] at hu
      · obtain rfl := TimerLists.CheckPc.callback.inj (hpc.symm.trans (hi.temp u (List.mem_of_mem_erase hu)))
        exact TimerLists.not_mem_remove hi.nodup t (List.mem_append_right _ (List.mem_append_right _ hu))
    rcases hx with ⟨-, rfl⟩ | rfl
    · exact hi.frame hnone (by simp) hi.nodup hi.attached (fun u hu => absurd hu (hempty u))
        (fun current hc => (TimerLists.CheckPc.check.inj hc).symm) (.refl _) hi.ahead (by simp [hpc])
    · exact hi.frame hnone (by simp) (TimerLists.nodup_remove hi.nodup t)
        (fun u hu => hi.attached u (TimerLists.mem_of_mem_remove hu)) (fun u hu => absurd hu (hempty u))
        (fun current hc => (TimerLists.CheckPc.check.inj hc).symm) (by rw [rows_remove]; exact List.erase_sublist)
        (fun u hu hagain => hi.ahead u (List.mem_of_mem_erase (by simpa using hu)) hagain) (by simp [hpc])

theorem checkInv_run (h₀ : CheckInit s₀) (hrun : (timerCheck soft s₀).Run h s)
    (hcalm : Throughout (fun h s a => StartsNone h s a ∧ Rearms soft h s a) h) : CheckInv soft s₀ h s := by
  refine hrun.invariant (I := fun h s => CheckInv soft s₀ h s) ?_ ?_ hcalm
  · rintro s rfl
    exact
      { nodup := h₀.nodup
        attached := h₀.attached
        temp := by simp [h₀.temp]
        current := fun current hc => TimerLists.CheckPc.check.inj (hc.symm.trans h₀.pc)
        ahead := nofun
        rounds := (Nat.zero_add _).trans_le (List.countP_le_length.trans (Nat.le_add_right _ _)) }
  · rintro h s a s' - hi ⟨hs, hr⟩ hstep
    exact checkInv_step hi hs hr hstep

theorem finish_isSome (hattached : x.restarts t = true → (x.timer t).attached = true)
    (hinit : (x.timer t).initTick.toNat < rtTickMax / 2) : ∃ x', x.finish t = some x' := by
  unfold Timers.finish
  by_cases htemp : x.temp = []
  · exact ⟨x, if_pos htemp⟩
  · rw [if_neg htemp]
    dsimp only
    rw [show (x.remove t).timer = x.timer from rfl]
    by_cases hflags : (x.timer t).periodic = true ∧ (x.timer t).activated = true
    · have hself : ((x.remove t).setTimer t { x.timer t with activated := false }).timer t =
          { x.timer t with activated := false } := Function.update_self ..
      rw [if_pos hflags]
      refine TimerLists.rtTimerStart_defined ?_ ?_
      · rw [hself]
        exact hattached (by simp [Timers.restarts, htemp, hflags])
      · rw [hself]
        exact hinit
    · exact ⟨_, if_neg hflags⟩

/-- A check of any timers, in which no operation starts one, and every timer that the check starts again has a period
and keeps its deadline ahead of the counter: the loop is entered once for each timer in the list at most, and left. It
does not stop in a round, nor behind a function that returns with a period below half of the range of the counter. -/
theorem check_ends (h₀ : CheckInit s₀) (hrun : (timerCheck soft s₀).Run h s)
    (hcalm : Throughout (fun h s a => StartsNone h s a ∧ Rearms soft h s a) h) :
    rounds h ≤ (rows soft s₀.timers).length + (if s.pc = .idle then 1 else 0) ∧
    (∀ current, s.pc = .check current → ∃ s', checkStep soft s .check = some s') ∧
    ∀ t, s.pc = .callback t → (s.timers.timer t).initTick.toNat < rtTickMax / 2 →
      ∃ s', checkStep soft s .ret = some s' := by
  have hi := checkInv_run h₀ hrun hcalm
  refine ⟨(Nat.le_add_right _ _).trans hi.rounds, fun current hpc => ?_, fun t hpc hinit => ?_⟩
  · cases hrows : rows soft s.timers with
    | nil => exact ⟨_, by simp only [checkStep, hpc, hrows]; rfl⟩
    | cons t rest =>
      by_cases hdue : s.timers.due (if soft = true then s.timers.tick else current) t = true
      · exact ⟨_, by simp only [checkStep, hpc, hrows]; exact if_pos hdue⟩
      · exact ⟨_, by simp only [checkStep, hpc, hrows]; exact if_neg hdue⟩
  · have hattached (hr : s.timers.restarts t = true) : (s.timers.timer t).attached = true := by
      obtain ⟨u, hu⟩ := List.exists_mem_of_ne_nil _ (of_decide_eq_true hr).1
      obtain rfl := TimerLists.CheckPc.callback.inj (hpc.symm.trans (hi.temp u hu))
      exact hi.attached t (List.mem_append_right _ (List.mem_append_right _ hu))
    obtain ⟨x, hx⟩ := finish_isSome hattached hinit
    exact ⟨_, by simp only [checkStep, hpc, hx]; rfl⟩

/-- The timers of any run: each is an object and in one list at most, and only one that is called is in the temporary
list. -/
structure Sound (s : TimerState ι) : Prop where
  placed : TimerLists.Placed s.timers.tick 0 s.timers
  temp : ∀ t ∈ s.timers.temp, s.pc = .callback t

theorem Sound.not_mem_temp (hi : Sound s) (hpc : s.pc = .callback t) (u : ι) : u ∉ s.timers.temp.erase t := fun hu => by
  obtain rfl := TimerLists.CheckPc.callback.inj (hpc.symm.trans (hi.temp u (List.mem_of_mem_erase hu)))
  exact TimerLists.not_mem_remove hi.placed.nodup t (List.mem_append_right _ (List.mem_append_right _ hu))

theorem sound_step (hi : Sound s) (hs : TimerLists.timerStep s a = some s') : Sound s' := by
  cases TimerLists.timerStep_effect hi.placed.nodup hs with
  | opStart hstart =>
    obtain ⟨-, -, htick, htemp, -⟩ := TimerLists.rtTimerStart_spec hstart
    have hplaced := hi.placed.start hstart
    exact ⟨⟨Clock.stamp_zero.symm, hplaced.nodup, hplaced.attached⟩,
      fun u hu => hi.temp u (List.mem_of_mem_erase (htemp ▸ hu))⟩
  | @opDrop t o y ho hy => exact ⟨hi.placed.drop t y, fun u hu => hi.temp u (List.mem_of_mem_erase hu)⟩
  | opSet y htimer ho hstop hy hsame => exact ⟨hi.placed.set hy, hi.temp⟩
  | tick hpc =>
    exact ⟨⟨Clock.stamp_zero.symm, hi.placed.nodup, hi.placed.attached⟩, fun u hu => by simpa [hpc] using hi.temp u hu⟩
  | @due current t rest hpc hlist hdue =>
    have hplaced := hi.placed.expire (List.mem_append_left _ (by simp [hlist]) : t ∈ _)
    obtain ⟨-, -, htemp, -⟩ := TimerLists.expire_spec s.timers t
    refine ⟨⟨Clock.stamp_zero.symm, hplaced.nodup, hplaced.attached⟩, fun u hu => ?_⟩
    rw [htemp] at hu
    rcases List.mem_cons.mp hu with rfl | hu
    · rfl
    · simpa [hpc] using hi.temp u (List.mem_of_mem_erase hu)
  | leave hpc hnone => exact ⟨hi.placed, fun u hu => by simpa [hpc] using hi.temp u hu⟩
  | @restart t x hpc hr hstart =>
    obtain ⟨-, -, -, htemp, -⟩ := TimerLists.rtTimerStart_spec hstart
    have hplaced := hi.placed.start hstart
    exact ⟨⟨Clock.stamp_zero.symm, hplaced.nodup, hplaced.attached⟩,
      fun u hu => absurd (htemp ▸ hu) (hi.not_mem_temp hpc u)⟩
  | gone hpc htemp => exact ⟨hi.placed, by simp [htemp]⟩
  | @finished t hpc htemp hflags =>
    exact ⟨⟨Clock.stamp_zero.symm, TimerLists.nodup_remove hi.placed.nodup t,
      fun u hu => hi.placed.attached u (TimerLists.mem_of_mem_remove hu)⟩,
      fun u hu => absurd hu (hi.not_mem_temp hpc u)⟩

/-- A check that the tick interrupt calls, in any run of the system of all timers. -/
theorem checkInit_tick {base : BitVec 32} (hrun : (TimerLists.timers ι base).Run h s)
    (hs : TimerLists.timerStep s .tick = some s') : CheckInit s' := by
  have hall : Sound s := by
    refine hrun.always (I := fun _ s => Sound s) ?_ fun _ _ _ _ _ hi hstep => sound_step hi hstep
    rintro s ⟨hlist, hsoftList, htemp, -, -, -⟩
    exact ⟨⟨Clock.stamp_zero.symm, by simp [hlist, hsoftList, htemp], by simp [hlist, hsoftList, htemp]⟩,
      by simp [htemp]⟩
  have hi := sound_step hall hs
  cases hpc : s.pc with
  | check current => simp [TimerLists.timerStep, hpc] at hs
  | callback t => simp [TimerLists.timerStep, hpc] at hs
  | idle =>
    simp only [TimerLists.timerStep, hpc] at hs
    obtain rfl := Option.some.inj hs
    exact
      { pc := rfl
        temp := List.eq_nil_iff_forall_not_mem.mpr fun u hu => by simpa using hi.temp u hu
        nodup := hi.placed.nodup
        attached := hi.placed.attached }

theorem timerStep_of_checkStep (hs : checkStep false s a = some s') : TimerLists.timerStep s a = some s' := by
  cases a with
  | op o =>
    cases hpc : s.pc with
    | idle => simp [checkStep, hpc] at hs
    | check current => simp [checkStep, hpc] at hs
    | callback t => simpa [checkStep, TimerLists.timerStep, hpc] using hs
  | tick =>
    cases hpc : s.pc with
    | idle => simp [checkStep, hpc] at hs
    | check current => simp [checkStep, hpc] at hs
    | callback t => simp [checkStep, hpc] at hs
  | check | ret => exact hs

/-- A periodic timer with a period of 0, in its list. -/
def spinTimers (soft : Bool) (timeout now : BitVec 32) : Timers Unit where
  timer := fun _ =>
    { initTick := 0, timeoutTick := timeout, activated := true, periodic := true, soft := soft, attached := true }
  list := if soft = true then [] else [()]
  softList := if soft = true then [()] else []
  temp := []
  tick := now

/-- A round of the loop, with the function that does nothing, starts the timer again at the same tick. -/
theorem spin_round (soft : Bool) {timeout : BitVec 32} (ht : timeout = 0 ∨ timeout = 1) :
    ∃ s, checkStep soft ⟨spinTimers soft timeout 1, .check 1⟩ .check = some s ∧
      checkStep soft s .ret = some ⟨spinTimers soft 1 1, .check 1⟩ := by
  refine ⟨⟨(spinTimers soft timeout 1).expire (), .callback ()⟩, ?_, ?_⟩
  · cases soft
    all_goals
      rcases ht with rfl | rfl
      all_goals rfl
  · cases soft
    all_goals
      rcases ht with rfl | rfl
      all_goals rfl

/-- A timer that `rt_timer_init` and `rt_timer_start` accept, with a period of 0, one tick later: a check enters its
loop as often as one likes. -/
def Spins (soft : Bool) : Prop :=
  (((spinTimers soft 0 0).rtTimerDetach ()).bind fun x => (x.rtTimerInit () 0 true soft).bind fun x =>
    x.rtTimerStart ()) = some (spinTimers soft 0 0) ∧
  CheckInit (⟨spinTimers soft 0 1, .check 1⟩ : TimerState Unit) ∧
  ∀ n, ∃ h s, (timerCheck soft ⟨spinTimers soft 0 1, .check 1⟩).Run h s ∧ Throughout StartsNone h ∧ rounds h = n + 1

theorem spins (soft : Bool) : Spins soft := by
  refine ⟨by cases soft <;> rfl, ?_, fun n => ?_⟩
  · cases soft
    all_goals exact { pc := rfl, temp := rfl, nodup := by decide, attached := fun _ _ => rfl }
  · suffices hall : ∃ h, (timerCheck soft ⟨spinTimers soft 0 1, .check 1⟩).Run h ⟨spinTimers soft 1 1, .check 1⟩ ∧
        Throughout StartsNone h ∧ rounds h = n + 1 by
      obtain ⟨h, hrun, hstart, hrounds⟩ := hall
      exact ⟨h, _, hrun, hstart, hrounds⟩
    induction n with
    | zero =>
      obtain ⟨s, hcheck, hret⟩ := spin_round soft (.inl rfl : (0 : BitVec 32) = 0 ∨ _)
      have hrun := System.Run.step (S := timerCheck soft ⟨spinTimers soft 0 1, .check 1⟩) (a := TimerAction.check)
        (.init rfl) hcheck
      exact ⟨_, hrun.step (a := TimerAction.ret) hret, ⟨nofun, nofun, trivial⟩, rfl⟩
    | succ n ih =>
      obtain ⟨h, hrun, hstart, hrounds⟩ := ih
      obtain ⟨s, hcheck, hret⟩ := spin_round soft (.inr rfl : (1 : BitVec 32) = 0 ∨ _)
      exact ⟨_, (hrun.step (a := TimerAction.check) hcheck).step (a := TimerAction.ret) hret, ⟨nofun, nofun, hstart⟩,
        by simpa [rounds] using hrounds⟩

/-- The hard check and the soft one do not end with a period of 0. -/
theorem period_zero_never_ends : Spins false ∧ Spins true := ⟨spins false, spins true⟩

/-- A periodic timer with a period of 3 and a one-shot timer, both due. -/
def checkStart : TimerState Bool where
  timers :=
    { timer := fun t =>
        { initTick := 3, timeoutTick := 5, activated := true, periodic := t, soft := true, attached := true }
      list := []
      softList := [true, false]
      temp := []
      tick := 5 }
  pc := .check 5

theorem checkInit_start : CheckInit checkStart where
  pc := rfl
  temp := rfl
  nodup := by decide
  attached t _ := by cases t <;> rfl

/-- In the soft check two ticks pass in the second function, which stops the other timer for a while. -/
theorem check_ends_run : ∃ h s, (timerCheck true checkStart).Run h s ∧ rounds h ≤ 3 ∧ s.timers.softList = [true] := by
  obtain ⟨h, s, hrun, hcalm, hpc, hlist⟩ := System.exists_run (S := timerCheck true checkStart)
    (rfl : (timerCheck true checkStart).init checkStart)
    [.check, .op (.setTime true 4), .ret, .check, .tick, .op (.setOneshot false), .tick, .ret, .check]
    (fun h s => Throughout (fun h s a => StartsNone h s a ∧ Rearms true h s a) h ∧ s.pc = .idle ∧
      s.timers.softList = [true]) (by decide +kernel)
  have hends := (check_ends checkInit_start hrun hcalm).1
  rw [if_pos hpc] at hends
  exact ⟨h, s, hrun, hends, hlist⟩

end check

end ThyristorController.TimerChecks
