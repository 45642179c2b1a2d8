import ThyristorController.Kernel.ReadyTable

/-!
# Resuming a thread against interrupts (`src/thread.c`)

`rt_thread_resume` checks the state of the thread with interrupts enabled, takes it out of its list and stops
its timer in one critical section, and inserts it into the ready table in another. A call of it is three
steps of its caller, a thread or an interrupt, and other callers may come between them. `rt_thread_timeout` is
called by `rt_timer_check` with interrupts disabled, so it is one step, and a thread suspends itself in one
critical section of `rt_sem_take` or `rt_thread_sleep`.

`resumed_once` says what holds as long as no resume or timeout of a thread comes while another resume of it
is past its check; `inserted_twice` is a run in which a second resume does.
-/

namespace ThyristorController

open Transition

/-! ## The system -/

/-- Where a caller of `rt_thread_resume` is: before its critical section, or before
`rt_schedule_insert_thread`. -/
inductive ResumePc (τ : Type) where
  | idle
  | remove (t : τ)
  | insert (t : τ)
deriving DecidableEq

/-- The thread that is being resumed. -/
def ResumePc.target {τ : Type} : ResumePc τ → Option τ
  | .idle => none
  | .remove t => some t
  | .insert t => some t

/-- `timer t` is whether the thread's timer is running; `κ` are the callers of `rt_thread_resume`. -/
structure ResumeState (τ ι κ : Type) where
  kernel : Kernel τ ι
  timer : τ → Bool
  pc : κ → ResumePc τ

/-- `check` enters `rt_thread_resume`; `suspend` is the running thread suspending itself, at a place of a
suspend list or in none, with or without a timer. -/
inductive ResumeAction (τ ι κ : Type) where
  | check (c : κ) (t : τ)
  | next (c : κ)
  | timeout (t : τ)
  | suspend (place : Option (ι × Nat)) (timed : Bool)
  | yield
  | schedule

variable {τ ι κ : Type} [DecidableEq τ] [DecidableEq ι] [DecidableEq κ]

/-- The next statement of a caller of `rt_thread_resume` that has passed the check. -/
def resumeNext (s : ResumeState τ ι κ) (c : κ) : Option (ResumeState τ ι κ) :=
  match s.pc c with
  | .idle => none
  | .remove t =>
    some
      { kernel := s.kernel.unlink t
        timer := Function.update s.timer t false
        pc := Function.update s.pc c (.insert t) }
  | .insert t => some { s with kernel := rtScheduleInsertThread s.kernel t, pc := Function.update s.pc c .idle }

def resumeStep (s : ResumeState τ ι κ) : ResumeAction τ ι κ → Option (ResumeState τ ι κ)
  | .check c t =>
    if s.pc c = .idle then
      some (if (s.kernel.tcb t).stat ≠ .suspend then s else { s with pc := Function.update s.pc c (.remove t) })
    else none
  | .next c => resumeNext s c
  | .timeout t =>
    if s.timer t = true then
      (rtThreadTimeout s.kernel t).map fun k => { s with kernel := k, timer := Function.update s.timer t false }
    else none
  | .suspend place timed =>
    match s.kernel.current with
    | none => none
    | some t => (suspendSelf s.kernel place).map fun k =>
        { s with kernel := k, timer := Function.update s.timer t timed }
  | .yield => (rtThreadYield s.kernel).map fun k => { s with kernel := k }
  | .schedule => (rtSchedule s.kernel).map fun k => { s with kernel := k }

/-- No thread is suspended yet. -/
structure ResumeInit (s : ResumeState τ ι κ) : Prop where
  sched : SchedInv s.kernel
  stat : ∀ t, (s.kernel.tcb t).stat ≠ .suspend
  timer : ∀ t, s.timer t = false
  pc : ∀ c, s.pc c = .idle

def resumes (τ ι κ : Type) [DecidableEq τ] [DecidableEq ι] [DecidableEq κ] :
    System (ResumeState τ ι κ) (ResumeAction τ ι κ) where
  init := ResumeInit
  step := resumeStep

/-! ## The events -/

/-- The thread is inserted into the ready table after a suspension. -/
def Inserts (t : τ) (s : ResumeState τ ι κ) : ResumeAction τ ι κ → Prop
  | .next c => s.pc c = .insert t
  | .timeout u => u = t
  | _ => False

/-- The thread suspends itself. -/
def Suspends (t : τ) (s : ResumeState τ ι κ) : ResumeAction τ ι κ → Prop
  | .suspend _ _ => s.kernel.current = some t
  | _ => False

/-- A resume passes its check while no other resume of the thread is past it, and the thread's timer fires
while none is before its critical section. -/
def Exclusive (s : ResumeState τ ι κ) : ResumeAction τ ι κ → Prop
  | .check _ t => (s.kernel.tcb t).stat = .suspend → ∀ c, (s.pc c).target ≠ some t
  | .timeout t => ∀ c, s.pc c ≠ .remove t
  | _ => True

instance (t : τ) (s : ResumeState τ ι κ) : (a : ResumeAction τ ι κ) → Decidable (Inserts t s a)
  | .next c => inferInstanceAs (Decidable (s.pc c = .insert t))
  | .timeout u => inferInstanceAs (Decidable (u = t))
  | .check _ _ | .suspend _ _ | .yield | .schedule => isFalse id

instance (t : τ) (s : ResumeState τ ι κ) : (a : ResumeAction τ ι κ) → Decidable (Suspends t s a)
  | .suspend _ _ => inferInstanceAs (Decidable (s.kernel.current = some t))
  | .check _ _ | .next _ | .timeout _ | .yield | .schedule => isFalse id

instance [Fintype κ] (s : ResumeState τ ι κ) : (a : ResumeAction τ ι κ) → Decidable (Exclusive s a)
  | .check _ t => inferInstanceAs (Decidable ((s.kernel.tcb t).stat = .suspend → ∀ c, (s.pc c).target ≠ some t))
  | .timeout t => inferInstanceAs (Decidable (∀ c, s.pc c ≠ .remove t))
  | .next _ | .suspend _ _ | .yield | .schedule => isTrue trivial

/-! ## The operations on the ready table -/

section specs

variable {k k' : Kernel τ ι} {t : τ}

omit [DecidableEq ι] in
theorem rtThreadTimeout_spec (h : SchedInv k) (hs : rtThreadTimeout k t = some k') :
    (k.tcb t).stat = .suspend ∧ (k'.tcb t).stat = .ready ∧ SchedInv k' ∧ ∀ u, u ≠ t → Untouched k k' u := by
  have hother (u : τ) (hu : u ≠ t) := untouched_timeout hs hu
  obtain ⟨hstat, hs⟩ := Option.ite_none_right_eq_some.mp hs
  refine ⟨hstat, ?_, inv_schedule (inv_timeout_insert h hstat) hs, hother⟩
  rw [(untouched_schedule hs t).tcb, rtScheduleInsertThread_self]

theorem suspendSelf_spec {place : Option (ι × Nat)} (h : SchedInv k) (hcur : k.current = some t)
    (hs : suspendSelf k place = some k') :
    (k.tcb t).stat = .ready ∧ (k'.tcb t).stat = .suspend ∧ SchedInv k' ∧ ∀ u, u ≠ t → Untouched k k' u := by
  have hother (u : τ) (hu : u ≠ t) : Untouched k k' u :=
    untouched_suspendSelf hs fun he => hu (Option.some.inj (he.symm.trans hcur))
  cases place with
  | none =>
    obtain ⟨t', ht', hstat, rfl⟩ := suspendSelf_none hs
    obtain rfl := Option.some.inj (hcur.symm.trans ht')
    obtain ⟨hinv, -, hnew⟩ := inv_suspend_ready h hstat
    exact ⟨hstat, hnew, hinv, hother⟩
  | some place =>
    have hinv := inv_ipcSuspend h hs
    obtain ⟨t', ht', hstat, -, rfl⟩ := rtIpcListSuspend_cases hs
    obtain rfl := Option.some.inj (hcur.symm.trans ht')
    exact ⟨hstat, (inv_suspend_ready h hstat).2.2, hinv, hother⟩

end specs

/-! ## The invariant -/

structure ResumeInv (h : History (ResumeState τ ι κ) (ResumeAction τ ι κ)) (s : ResumeState τ ι κ) : Prop where
  sched : SchedInv s.kernel
  suspended : ∀ c t, (s.pc c).target = some t → (s.kernel.tcb t).stat = .suspend
  unique : ∀ c d t, (s.pc c).target = some t → (s.pc d).target = some t → c = d
  removed : ∀ c t, s.pc c = .insert t → s.kernel.Unlinked t ∧ s.timer t = false
  checked : ∀ c t, (s.pc c).target = some t → Since (fun _ a => a = .check c t) (Suspends t) h
  balance : ∀ t, count (Inserts t) h + (if (s.kernel.tcb t).stat = .suspend then 1 else 0) = count (Suspends t) h

variable {h : History (ResumeState τ ι κ) (ResumeAction τ ι κ)} {s s' : ResumeState τ ι κ}
  {a : ResumeAction τ ι κ}

omit [DecidableEq ι] [DecidableEq κ] in
theorem inv_kernel (hi : ResumeInv h s) (t : Option τ) (hpc : s'.pc = s.pc) (hsched : SchedInv s'.kernel)
    (hfree : ∀ c u, (s.pc c).target = some u → some u ≠ t)
    (hother : ∀ u, some u ≠ t → Untouched s.kernel s'.kernel u ∧ s'.timer u = s.timer u ∧
      ¬ Inserts u s a ∧ ¬ Suspends u s a)
    (hself : ∀ u, some u = t → count (Inserts u) ((s, a) :: h) +
      (if (s'.kernel.tcb u).stat = .suspend then 1 else 0) = count (Suspends u) ((s, a) :: h)) :
    ResumeInv ((s, a) :: h) s' where
  sched := hsched
  suspended c u hc := by
    rw [hpc] at hc
    rw [(hother u (hfree c u hc)).1.tcb]
    exact hi.suspended c u hc
  unique c d u := by
    rw [hpc]
    exact hi.unique c d u
  removed c u hc := by
    rw [hpc] at hc
    obtain ⟨hun, htimer, -⟩ := hother u (hfree c u (by rw [hc]; rfl))
    obtain ⟨hold, hoff⟩ := hi.removed c u hc
    exact ⟨hun.unlinked hold, htimer.trans hoff⟩
  checked c u hc := by
    rw [hpc] at hc
    exact .inr ⟨(hother u (hfree c u hc)).2.2.2, hi.checked c u hc⟩
  balance u := by
    by_cases hu : some u = t
    · exact hself u hu
    · obtain ⟨hun, -, hins, hsusp⟩ := hother u hu
      rw [count_cons, count_cons, if_neg hins, if_neg hsusp, hun.tcb]
      exact hi.balance u

theorem inv_timeout_step {t : τ} (hi : ResumeInv h s) (hG : Exclusive s (.timeout t))
    (hs : resumeStep s (.timeout t) = some s') : ResumeInv ((s, .timeout t) :: h) s' := by
  obtain ⟨htimer, hs⟩ := Option.ite_none_right_eq_some.mp hs
  obtain ⟨k, hk, rfl⟩ := Option.map_eq_some_iff.mp hs
  obtain ⟨hstat, hready, hsched, hother⟩ := rtThreadTimeout_spec hi.sched hk
  refine inv_kernel hi (some t) rfl hsched (fun c u hc he => ?_) (fun u hu => ?_) fun u hu => ?_
  · obtain rfl := Option.some.inj he
    cases hpc : s.pc c with
    | idle => simp [hpc, ResumePc.target] at hc
    | remove v =>
      simp only [hpc, ResumePc.target, Option.some.injEq] at hc
      exact hG c (hc ▸ hpc)
    | insert v =>
      -- the critical section of the resume has stopped the timer
      simp only [hpc, ResumePc.target, Option.some.injEq] at hc
      exact absurd ((hi.removed c u (hc ▸ hpc)).2.symm.trans htimer) (by simp)
  · have hne : u ≠ t := by simpa using hu
    exact ⟨hother u hne, Function.update_of_ne hne _ _, fun he => hne he.symm, id⟩
  · obtain rfl := Option.some.inj hu
    have hbal := hi.balance u
    rw [if_pos hstat] at hbal
    rw [count_cons, count_cons, if_pos (show Inserts u s (.timeout u) from rfl),
      if_neg (show ¬ Suspends u s (.timeout u) from id), if_neg (by simp [hready])]
    exact hbal

theorem inv_suspend_step {place : Option (ι × Nat)} {timed : Bool} (hi : ResumeInv h s)
    (hs : resumeStep s (.suspend place timed) = some s') : ResumeInv ((s, .suspend place timed) :: h) s' := by
  unfold resumeStep at hs
  dsimp only at hs
  split at hs
  · cases hs
  · next t hcur =>
    obtain ⟨k, hk, rfl⟩ := Option.map_eq_some_iff.mp hs
    obtain ⟨hstat, hnew, hsched, hother⟩ := suspendSelf_spec hi.sched hcur hk
    refine inv_kernel hi (some t) rfl hsched (fun c u hc he => ?_) (fun u hu => ?_) fun u hu => ?_
    · obtain rfl := Option.some.inj he
      exact absurd ((hi.suspended c u hc).symm.trans hstat) (by simp)
    · have hne : u ≠ t := by simpa using hu
      exact ⟨hother u hne, Function.update_of_ne hne _ _, id,
        fun he => hne (Option.some.inj (Eq.trans he.symm hcur))⟩
    · obtain rfl := Option.some.inj hu
      have hbal := hi.balance u
      rw [if_neg (by simp [hstat])] at hbal
      rw [count_cons, count_cons, if_neg (show ¬ Inserts u s (.suspend place timed) from id),
        if_pos (show Suspends u s (.suspend place timed) from hcur), if_pos hnew]
      omega

omit [DecidableEq τ] [DecidableEq ι] in
theorem pc_update_cases (P : ResumePc τ → Prop) {p : ResumePc τ} {c d : κ}
    (hd : P (Function.update s.pc c p d)) : d = c ∧ P p ∨ d ≠ c ∧ P (s.pc d) := by
  by_cases hdc : d = c
  · subst hdc
    rw [Function.update_self] at hd
    exact .inl ⟨rfl, hd⟩
  · rw [Function.update_of_ne hdc] at hd
    exact .inr ⟨hdc, hd⟩

theorem inv_check_step {c : κ} {t : τ} (hi : ResumeInv h s) (hG : Exclusive s (.check c t))
    (hs : resumeStep s (.check c t) = some s') : ResumeInv ((s, .check c t) :: h) s' := by
  obtain ⟨hidle, hs⟩ := Option.ite_none_right_eq_some.mp hs
  have hbal (u : τ) : count (Inserts u) ((s, ResumeAction.check c t) :: h) +
      (if (s.kernel.tcb u).stat = .suspend then 1 else 0) = count (Suspends u) ((s, .check c t) :: h) := by
    rw [count_cons, count_cons, if_neg (show ¬ Inserts u s (.check c t) from id),
      if_neg (show ¬ Suspends u s (.check c t) from id)]
    exact hi.balance u
  split_ifs at hs with hstat
  · obtain rfl := Option.some.inj hs
    exact { hi with checked := fun d u hd => .inr ⟨id, hi.checked d u hd⟩, balance := hbal }
  · obtain rfl := Option.some.inj hs
    have hstat : (s.kernel.tcb t).stat = .suspend := not_not.mp hstat
    have hfree := hG hstat
    have hcases {d : κ} {u : τ} (hd : (Function.update s.pc c (ResumePc.remove t) d).target = some u) :
        d = c ∧ u = t ∨ (s.pc d).target = some u :=
      (pc_update_cases (·.target = some u) hd).imp (fun ⟨hdc, hu⟩ => ⟨hdc, (Option.some.inj hu).symm⟩) And.right
    exact
      { sched := hi.sched
        suspended := fun d u hd => by
          rcases hcases hd with ⟨-, rfl⟩ | hd
          · exact hstat
          · exact hi.suspended d u hd
        unique := fun d e u hd he => by
          rcases hcases hd with ⟨hdc, hu⟩ | hd <;> rcases hcases he with ⟨hec, hu'⟩ | he
          · exact hdc.trans hec.symm
          · exact absurd (hu ▸ he) (hfree e)
          · exact absurd (hu' ▸ hd) (hfree d)
          · exact hi.unique d e u hd he
        removed := fun d u hd => by
          rcases pc_update_cases (· = .insert u) hd with ⟨-, hd⟩ | ⟨-, hd⟩
          · cases hd
          · exact hi.removed d u hd
        checked := fun d u hd => by
          rcases hcases hd with ⟨rfl, rfl⟩ | hd
          · exact .inl rfl
          · exact .inr ⟨id, hi.checked d u hd⟩
        balance := hbal }

omit [DecidableEq ι] in
theorem inv_removed_step {c : κ} {t : τ} (hi : ResumeInv h s) (hpc : s.pc c = .remove t) :
    ResumeInv ((s, .next c) :: h)
      { kernel := s.kernel.unlink t
        timer := Function.update s.timer t false
        pc := Function.update s.pc c (.insert t) } := by
  have htarget : (s.pc c).target = some t := by rw [hpc]; rfl
  have hstat := hi.suspended c t htarget
  have hcases {d : κ} {u : τ} (hd : (Function.update s.pc c (ResumePc.insert t) d).target = some u) :
      (s.pc d).target = some u := by
    rcases pc_update_cases (·.target = some u) hd with ⟨rfl, hu⟩ | ⟨-, hd⟩
    · exact htarget.trans hu
    · exact hd
  have hself : (s.kernel.unlink t).Unlinked t ∧ Function.update s.timer t false t = false :=
    ⟨unlinked_unlink hi.sched t, Function.update_self _ _ _⟩
  exact
    { sched := inv_unlink_idle hi.sched (by simp [hstat])
      suspended := fun d u hd => hi.suspended d u (hcases hd)
      unique := fun d e u hd he => hi.unique d e u (hcases hd) (hcases he)
      removed := fun d u hd => by
        rcases pc_update_cases (· = .insert u) hd with ⟨-, hu⟩ | ⟨-, hd⟩
        · exact ResumePc.insert.inj hu ▸ hself
        · obtain ⟨hun, htimer⟩ := hi.removed d u hd
          by_cases hut : u = t
          · exact hut ▸ hself
          · exact ⟨(untouched_unlink _ hut).unlinked hun, (Function.update_of_ne hut _ _).trans htimer⟩
      checked := fun d u hd => .inr ⟨id, hi.checked d u (hcases hd)⟩
      balance := fun u => by
        rw [count_cons, count_cons, if_neg (by simp [Inserts, hpc]), if_neg (show ¬ Suspends u s (.next c) from id)]
        exact hi.balance u }

omit [DecidableEq ι] in
theorem inv_inserted_step {c : κ} {t : τ} (hi : ResumeInv h s) (hpc : s.pc c = .insert t) :
    ResumeInv ((s, .next c) :: h)
      { s with kernel := rtScheduleInsertThread s.kernel t, pc := Function.update s.pc c .idle } := by
  have htarget : (s.pc c).target = some t := by rw [hpc]; rfl
  have hstat := hi.suspended c t htarget
  -- the other resumes that are in progress are about other threads
  have hcases {d : κ} {u : τ} (hd : (Function.update s.pc c ResumePc.idle d).target = some u) :
      (s.pc d).target = some u ∧ u ≠ t := by
    rcases pc_update_cases (·.target = some u) hd with ⟨-, hu⟩ | ⟨hdc, hd⟩
    · cases hu
    · exact ⟨hd, fun hu => hdc (hi.unique d c t (hu ▸ hd) htarget)⟩
  exact
    { sched := inv_insert (inv_leave hi.sched (hi.removed c t hpc).1) (hi.sched.mask t (by simp) (.inr hstat))
      suspended := fun d u hd => by
        obtain ⟨hd, hut⟩ := hcases hd
        rw [(untouched_insert s.kernel hut).tcb]
        exact hi.suspended d u hd
      unique := fun d e u hd he => hi.unique d e u (hcases hd).1 (hcases he).1
      removed := fun d u hd => by
        have hut := (hcases (congrArg ResumePc.target hd)).2
        rcases pc_update_cases (· = .insert u) hd with ⟨-, hu⟩ | ⟨-, hd⟩
        · cases hu
        · obtain ⟨hun, htimer⟩ := hi.removed d u hd
          exact ⟨(untouched_insert s.kernel hut).unlinked hun, htimer⟩
      checked := fun d u hd => .inr ⟨id, hi.checked d u (hcases hd).1⟩
      balance := fun u => by
        have hbal := hi.balance u
        rw [count_cons, count_cons, if_neg (show ¬ Suspends u s (.next c) from id)]
        by_cases hut : u = t
        · subst hut
          rw [if_pos hstat] at hbal
          rw [if_pos (show Inserts u s (.next c) from hpc), if_neg (by simp)]
          exact hbal
        · rw [if_neg (by simp [Inserts, hpc, Ne.symm hut]), (untouched_insert s.kernel hut).tcb]
          exact hbal }

theorem inv_next_step {c : κ} (hi : ResumeInv h s) (hs : resumeStep s (.next c) = some s') :
    ResumeInv ((s, .next c) :: h) s' := by
  change resumeNext s c = some s' at hs
  unfold resumeNext at hs
  split at hs
  · cases hs
  · next t hpc => exact Option.some.inj hs ▸ inv_removed_step hi hpc
  · next t hpc => exact Option.some.inj hs ▸ inv_inserted_step hi hpc

theorem resumeInv (hrun : (resumes τ ι κ).Run h s) (hG : Throughout (fun _ s a => Exclusive s a) h) :
    ResumeInv h s := by
  refine hrun.invariant (I := ResumeInv) ?_ ?_ hG
  · rintro s ⟨hsched, hstat, -, hpc⟩
    exact
      { sched := hsched
        suspended := fun c t hc => by simp [hpc, ResumePc.target] at hc
        unique := fun c d t hc => by simp [hpc, ResumePc.target] at hc
        removed := fun c t hc => by simp [hpc] at hc
        checked := fun c t hc => by simp [hpc, ResumePc.target] at hc
        balance := fun t => by simp [hstat] }
  · intro h s a s' _ hi hG hs
    have htarget {c : κ} {u : τ} (_ : (s.pc c).target = some u) : some u ≠ none := by simp
    cases a with
    | check c t => exact inv_check_step hi hG hs
    | next c => exact inv_next_step hi hs
    | timeout t => exact inv_timeout_step hi hG hs
    | suspend place timed => exact inv_suspend_step hi hs
    | yield =>
      obtain ⟨k, hk, rfl⟩ := Option.map_eq_some_iff.mp hs
      exact inv_kernel hi none rfl (schedInv_step hi.sched (a := .yield) trivial hk) (fun _ _ => htarget)
        (fun u _ => ⟨untouched_yield hk u, rfl, id, id⟩) (by simp)
    | schedule =>
      obtain ⟨k, hk, rfl⟩ := Option.map_eq_some_iff.mp hs
      exact inv_kernel hi none rfl (inv_schedule hi.sched hk) (fun _ _ => htarget)
        (fun u _ => ⟨untouched_schedule hk u, rfl, id, id⟩) (by simp)

/-! ## All runs -/

/-- As long as no resume or timeout of a thread comes while another resume of it is past its check, a thread is
inserted once for each time it suspends itself, and every insertion finds it suspended and in no ready list; a
resume finds it in no list at all, and the thread has not suspended itself since the check. -/
theorem resumed_once (hrun : (resumes τ ι κ).Run h s) (hG : Throughout (fun _ s a => Exclusive s a) h) (t : τ) :
    count (Inserts t) h + (if (s.kernel.tcb t).stat = .suspend then 1 else 0) = count (Suspends t) h ∧
    Throughout (fun h s a => Inserts t s a → (s.kernel.tcb t).stat = .suspend ∧ (∀ p, t ∉ s.kernel.table p) ∧
      ∀ c, a = .next c → s.kernel.Unlinked t ∧ Since (fun _ a => a = .check c t) (Suspends t) h) h := by
  refine ⟨(resumeInv hrun hG).balance t, ?_⟩
  refine hrun.throughout (fun _ _ => resumeInv) (fun h s a s' _ hi _ hs => ?_) hG
  intro hins
  have hstat : (s.kernel.tcb t).stat = .suspend := by
    cases a with
    | next c => exact hi.suspended c t (congrArg ResumePc.target hins)
    | timeout u =>
      obtain rfl : u = t := hins
      obtain ⟨-, hs⟩ := Option.ite_none_right_eq_some.mp hs
      obtain ⟨k, hk, -⟩ := Option.map_eq_some_iff.mp hs
      exact (rtThreadTimeout_spec hi.sched hk).1
    | _ => exact hins.elim
  refine ⟨hstat, hi.sched.not_mem (by simp [hstat]), ?_⟩
  rintro c rfl
  exact ⟨(hi.removed c t hins).1, hi.checked c t (congrArg ResumePc.target hins)⟩

/-- The threads run, no resume is in progress. -/
def resumeStart : ResumeState Bool Unit Bool where
  kernel := twoRunning
  timer _ := false
  pc _ := .idle

theorem resumeInit_start : ResumeInit resumeStart where
  sched := schedInv_twoRunning
  stat := by decide +kernel
  timer _ := rfl
  pc _ := rfl

/-- The thread is resumed once, and its timer fires once. -/
theorem resumed_once_run :
    ∃ h s, (resumes Bool Unit Bool).Run h s ∧ Throughout (fun _ s a => Exclusive s a) h ∧
      count (Inserts true) h = 2 ∧ count (Suspends true) h = 2 := by
  obtain ⟨h, s, hrun, hG, hstat, hcount⟩ := System.exists_run (S := resumes Bool Unit Bool) resumeInit_start
    [.suspend (some ((), 0)) true, .schedule, .check false true, .next false, .next false, .schedule,
      .suspend none true, .schedule, .timeout true]
    (fun h s => Throughout (fun _ s a => Exclusive s a) h ∧ (s.kernel.tcb true).stat = .ready ∧
      count (Suspends true) h = 2) (by decide +kernel)
  obtain ⟨hbal, -⟩ := resumed_once hrun hG true
  rw [if_neg (by simp [hstat])] at hbal
  exact ⟨h, s, hrun, hG, by omega, hcount⟩

/-- An interrupt resumes the thread after another caller's critical section and before its insertion: the
thread is inserted twice after one suspension, the second time while it is in a ready list. -/
theorem inserted_twice :
    ∃ h s, (resumes Bool Unit Bool).Run h s ∧ count (Suspends true) h = 1 ∧ count (Inserts true) h = 2 ∧
      ¬ Throughout (fun _ s a => Inserts true s a → ∀ p, true ∉ s.kernel.table p) h :=
  System.exists_run (S := resumes Bool Unit Bool) resumeInit_start
    [.suspend (some ((), 0)) false, .schedule, .check false true, .next false, .check true true, .next true,
      .next true, .next false]
    (fun h _ => count (Suspends true) h = 1 ∧ count (Inserts true) h = 2 ∧
      ¬ Throughout (fun _ s a => Inserts true s a → ∀ p, true ∉ s.kernel.table p) h) (by decide +kernel)

end ThyristorController
