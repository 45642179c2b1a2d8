import ThyristorController.Kernel.ReadyTable
import ThyristorController.Kernel.Semaphore

/-!
# A semaphore and its threads (`src/ipc.c`)

`rt_sem_take` with any waiting time, `rt_sem_release`, and timeouts, over the scheduler: a thread that finds no
unit suspends itself into the semaphore's list, calls `rt_schedule`, and returns its error number when it runs
again. A release hands its unit to the first thread of the list without touching the value. Each critical
section is one step; the statements of `rt_sem_take` after it are steps of their own.

`sem_conserved` is the balance of units in every state, and what a suspended thread will return;
`take_refines` and `release_refines` say that the critical sections are those of `RtSemaphore`.
-/

namespace ThyristorController.SemThreads

open Transition

/-! ## The system -/

/-- `-RT_EFULL`. -/
def rtEfull : Int := -3

/-- `RT_IPC_FLAG_FIFO` and `RT_IPC_FLAG_PRIO`. -/
inductive IpcFlag where
  | fifo | prio
deriving DecidableEq

/-- Where a thread is in `rt_sem_take` after it has suspended itself: before `rt_schedule`, or behind it. -/
inductive TakePc where
  | idle | schedule | resumed
deriving DecidableEq

/-- `timer t` is whether the thread's timer is running. -/
structure SemState (τ ι : Type) where
  kernel : Kernel τ ι
  value : Nat
  timer : τ → Bool
  pc : τ → TakePc

/-- `take` is the running thread entering `rt_sem_take`, `next` its next statement there; `trytake` is an interrupt,
`release` is anybody; `sleep` is the running thread suspending itself elsewhere. -/
inductive SemAction (τ : Type) where
  | take (time : Int)
  | trytake
  | release
  | timeout (t : τ)
  | next
  | sleep
  | yield
  | schedule

variable {τ ι : Type} [DecidableEq τ] [DecidableEq ι]

/-- Where `rt_ipc_list_suspend` inserts the thread. -/
def suspendPlace (flag : IpcFlag) (k : Kernel τ ι) (q : ι) (t : τ) : Nat :=
  match flag with
  | .fifo => (k.waiting q).length
  | .prio => (k.waiting q).findIdx fun u => decide ((k.tcb t).currentPriority < (k.tcb u).currentPriority)

/-- `rt_sem_take` up to its call of `rt_schedule`. -/
def rtSemTake (q : ι) (flag : IpcFlag) (s : SemState τ ι) (t : τ) (time : Int) : Option (SemState τ ι) :=
  if 0 < s.value then some { s with value := s.value - 1 }
  else if time = 0 then some s
  else
    let k := s.kernel.setTcb t { s.kernel.tcb t with error := rtEok }
    (rtIpcListSuspend k q (suspendPlace flag k q t)).map fun k =>
      { s with
        kernel := k
        timer := Function.update s.timer t (decide (0 < time))
        pc := Function.update s.pc t .schedule }

/-- `rt_sem_release` up to its call of `rt_schedule`, with its return code. -/
def rtSemRelease (q : ι) (s : SemState τ ι) : SemState τ ι × Int :=
  match s.kernel.waiting q with
  | t :: _ => ({ s with kernel := rtThreadResume s.kernel t, timer := Function.update s.timer t false }, rtEok)
  | [] => if s.value < rtSemValueMax then ({ s with value := s.value + 1 }, rtEok) else (s, rtEfull)

/-- The next statement of `rt_sem_take`: the call of `rt_schedule`, or the return. -/
def takeNext (s : SemState τ ι) (t : τ) : Option (SemState τ ι) :=
  match s.pc t with
  | .idle => none
  | .schedule =>
    (rtSchedule s.kernel).map fun k => { s with kernel := k, pc := Function.update s.pc t .resumed }
  | .resumed => some { s with pc := Function.update s.pc t .idle }

def semStep (q : ι) (flag : IpcFlag) (s : SemState τ ι) : SemAction τ → Option (SemState τ ι)
  | .take time => s.kernel.current.bind fun t => if s.pc t = .idle then rtSemTake q flag s t time else none
  | .trytake => some (if 0 < s.value then { s with value := s.value - 1 } else s)
  | .release => some (rtSemRelease q s).1
  | .timeout t =>
    if s.timer t = true then
      (rtThreadTimeout s.kernel t).map fun k => { s with kernel := k, timer := Function.update s.timer t false }
    else none
  | .next => s.kernel.current.bind fun t => takeNext s t
  | .sleep =>
    s.kernel.current.bind fun t =>
      if s.pc t = .idle then
        (suspendSelf s.kernel none).map fun k => { s with kernel := k, timer := Function.update s.timer t true }
      else none
  | .yield => (rtThreadYield s.kernel).map fun k => { s with kernel := k }
  | .schedule => (rtSchedule s.kernel).map fun k => { s with kernel := k }

/-- The semaphore has been initialised with `v₀`, and the scheduler is unlocked. -/
structure SemInit (q : ι) (v₀ : Nat) (s : SemState τ ι) : Prop where
  sched : SchedInv s.kernel
  lock : s.kernel.lockNest = 0
  waiting : s.kernel.waiting q = []
  value : s.value = v₀
  pc : ∀ t, s.pc t = .idle

def semaphore (τ : Type) {ι : Type} [DecidableEq τ] [DecidableEq ι] (q : ι) (flag : IpcFlag) (v₀ : Nat) :
    System (SemState τ ι) (SemAction τ) where
  init := SemInit q v₀
  step := semStep q flag

/-! ## The events -/

/-- `rt_sem_release` returns `RT_EOK`. -/
def Releases (q : ι) (s : SemState τ ι) : SemAction τ → Prop
  | .release => (rtSemRelease q s).2 = rtEok
  | _ => False

/-- `rt_sem_take` or `rt_sem_trytake` takes a unit from the value, and returns `RT_EOK`. -/
def Takes (s : SemState τ ι) : SemAction τ → Prop
  | .take _ => 0 < s.value
  | .trytake => 0 < s.value
  | _ => False

/-- A release hands its unit to the thread. -/
def Grants (q : ι) (t : τ) (s : SemState τ ι) : SemAction τ → Prop
  | .release => (s.kernel.waiting q).head? = some t
  | _ => False

/-- A release hands its unit to some thread. -/
def GrantsOne (q : ι) (s : SemState τ ι) : SemAction τ → Prop
  | .release => s.kernel.waiting q ≠ []
  | _ => False

/-- The thread returns from `rt_sem_take` with the code, after it was suspended. -/
def Returns (t : τ) (code : Int) (s : SemState τ ι) : SemAction τ → Prop
  | .next => s.kernel.current = some t ∧ s.pc t = .resumed ∧ (s.kernel.tcb t).error = code
  | _ => False

/-- The thread's timer fires while the thread is in `rt_sem_take`. -/
def TimesOut (t : τ) (s : SemState τ ι) : SemAction τ → Prop
  | .timeout u => u = t ∧ s.pc t ≠ .idle
  | _ => False

instance (q : ι) (s : SemState τ ι) : (a : SemAction τ) → Decidable (Releases q s a)
  | .release => inferInstanceAs (Decidable ((rtSemRelease q s).2 = rtEok))
  | .take _ | .trytake | .timeout _ | .next | .sleep | .yield | .schedule => isFalse id

instance (s : SemState τ ι) : (a : SemAction τ) → Decidable (Takes s a)
  | .take _ => inferInstanceAs (Decidable (0 < s.value))
  | .trytake => inferInstanceAs (Decidable (0 < s.value))
  | .release | .timeout _ | .next | .sleep | .yield | .schedule => isFalse id

instance (q : ι) (t : τ) (s : SemState τ ι) : (a : SemAction τ) → Decidable (Grants q t s a)
  | .release => inferInstanceAs (Decidable ((s.kernel.waiting q).head? = some t))
  | .take _ | .trytake | .timeout _ | .next | .sleep | .yield | .schedule => isFalse id

instance (q : ι) (s : SemState τ ι) : (a : SemAction τ) → Decidable (GrantsOne q s a)
  | .release => inferInstanceAs (Decidable (s.kernel.waiting q ≠ []))
  | .take _ | .trytake | .timeout _ | .next | .sleep | .yield | .schedule => isFalse id

instance (t : τ) (code : Int) (s : SemState τ ι) : (a : SemAction τ) → Decidable (Returns t code s a)
  | .next =>
    inferInstanceAs (Decidable (s.kernel.current = some t ∧ s.pc t = .resumed ∧ (s.kernel.tcb t).error = code))
  | .take _ | .trytake | .release | .timeout _ | .sleep | .yield | .schedule => isFalse id

instance (t : τ) (s : SemState τ ι) : (a : SemAction τ) → Decidable (TimesOut t s a)
  | .timeout u => inferInstanceAs (Decidable (u = t ∧ s.pc t ≠ .idle))
  | .take _ | .trytake | .release | .next | .sleep | .yield | .schedule => isFalse id

/-- The thread has been granted a unit, and has not returned yet. -/
def Granted (q : ι) (s : SemState τ ι) (t : τ) : Prop :=
  s.pc t ≠ .idle ∧ t ∉ s.kernel.waiting q ∧ (s.kernel.tcb t).error = rtEok

/-- The thread has timed out, and has not returned yet. -/
def TimedOut (s : SemState τ ι) (t : τ) : Prop := s.pc t ≠ .idle ∧ (s.kernel.tcb t).error = rtEtimeout

instance (q : ι) (s : SemState τ ι) (t : τ) : Decidable (Granted q s t) :=
  inferInstanceAs (Decidable (s.pc t ≠ .idle ∧ t ∉ s.kernel.waiting q ∧ (s.kernel.tcb t).error = rtEok))

instance (s : SemState τ ι) (t : τ) : Decidable (TimedOut s t) :=
  inferInstanceAs (Decidable (s.pc t ≠ .idle ∧ (s.kernel.tcb t).error = rtEtimeout))

/-! ## The operations of the scheduler -/

section specs

variable {k k' : Kernel τ ι} {t : τ} {q : ι}

theorem rtIpcListSuspend_spec {i : Nat} (hcur : k.current = some t) (hnot : t ∉ k.waiting q)
    (hs : rtIpcListSuspend k q i = some k') :
    (k.tcb t).stat = .ready ∧ k'.tcb t = { k.tcb t with stat := .suspend } ∧ i ≤ (k.waiting q).length ∧
      k'.waiting q = (k.waiting q).insertIdx i t ∧ k'.lockNest = k.lockNest := by
  obtain ⟨t', ht', hstat, hi, rfl⟩ := rtIpcListSuspend_cases hs
  obtain rfl := Option.some.inj (hcur.symm.trans ht')
  obtain ⟨htcb, hwaiting, hlock, -⟩ := rtThreadSuspend_eq hstat
  refine ⟨hstat, htcb, hi, ?_, hlock⟩
  dsimp only
  rw [Function.update_self, hwaiting, List.erase_of_not_mem hnot]

omit [DecidableEq ι] in
theorem rtThreadResume_spec (hstat : (k.tcb t).stat = .suspend) :
    (rtThreadResume k t).tcb t = { k.tcb t with stat := .ready } ∧
      (∀ q, (rtThreadResume k t).waiting q = (k.waiting q).erase t) ∧
      (rtThreadResume k t).lockNest = k.lockNest ∧ (rtThreadResume k t).current = k.current := by
  rw [rtThreadResume, if_neg (not_not.mpr hstat)]
  exact ⟨rtScheduleInsertThread_self _ _, fun _ => rfl, rfl, rfl⟩

omit [DecidableEq ι] in
theorem schedule_ready (h : SchedInv k) (hs : rtSchedule k = some k') (hlock : k.lockNest = 0)
    (hcur : k'.current = some t) : (k'.tcb t).stat = .ready := by
  rcases rtSchedule_head hs hcur with ⟨hne, -⟩ | ⟨p, hm, -⟩
  · exact absurd hlock hne
  · rw [(untouched_schedule hs t).tcb]
    exact (h.mem t p hm).2.1

omit [DecidableEq ι] in
theorem rtThreadTimeout_spec (h : SchedInv k) (hlock : k.lockNest = 0) (hs : rtThreadTimeout k t = some k') :
    (k.tcb t).stat = .suspend ∧ k'.tcb t = { k.tcb t with stat := .ready, error := rtEtimeout } ∧ SchedInv k' ∧
      (∀ q, k'.waiting q = (k.waiting q).erase t) ∧ k'.lockNest = k.lockNest ∧
      ∀ u, k'.current = some u → (k'.tcb u).stat = .ready := by
  obtain ⟨hstat, hs⟩ := Option.ite_none_right_eq_some.mp hs
  dsimp only at hs
  have hinv := inv_timeout_insert h hstat
  obtain ⟨htcb, -, -, hwaiting, -, hlock'⟩ := rtSchedule_frame hs
  refine ⟨hstat, ?_, inv_schedule hinv hs, fun q => by rw [hwaiting]; rfl, hlock',
    fun u hc => schedule_ready hinv hs hlock hc⟩
  rw [htcb, rtScheduleInsertThread_self]
  show { (k.setTcb t _).tcb t with stat := .ready } = _
  rw [Kernel.setTcb_self]

omit [DecidableEq ι] in
theorem rtThreadYield_spec (h : SchedInv k) (hlock : k.lockNest = 0) (hs : rtThreadYield k = some k') :
    SchedInv k' ∧ k'.waiting = k.waiting ∧ k'.lockNest = k.lockNest ∧
      ∀ u, k'.current = some u → k.current = some u ∨ (k'.tcb u).stat = .ready := by
  obtain ⟨t, -, ⟨k₁, hmove, hs⟩ | ⟨-, rfl⟩⟩ := rtThreadYield_cases hs
  · have h₁ := inv_yieldMove h hmove
    obtain ⟨-, -, -, hwaiting, -, hlock'⟩ := rtSchedule_frame hs
    obtain ⟨-, hmove⟩ := Option.ite_none_right_eq_some.mp hmove
    obtain rfl := Option.some.inj hmove
    exact ⟨inv_schedule h₁ hs, hwaiting, hlock', fun u hc => .inr (schedule_ready h₁ hs hlock hc)⟩
  · exact ⟨h, rfl, rfl, fun _ => .inl⟩

end specs

/-! ## The invariant -/

/-- The invariant of one thread. -/
structure ThreadOk (q : ι) (h : History (SemState τ ι) (SemAction τ)) (s : SemState τ ι) (t : τ) : Prop where
  outside : s.pc t = .idle → t ∉ s.kernel.waiting q
  waits : t ∈ s.kernel.waiting q → (s.kernel.tcb t).error = rtEok
  suspended : s.pc t ≠ .idle → (s.kernel.tcb t).stat = .suspend → t ∈ s.kernel.waiting q
  runs : s.pc t = .resumed → s.kernel.current = some t → (s.kernel.tcb t).stat = .ready
  outcome : s.pc t ≠ .idle → (s.kernel.tcb t).error = rtEok ∨ (s.kernel.tcb t).error = rtEtimeout
  grants : count (Grants q t) h = count (Returns t rtEok) h + if Granted q s t then 1 else 0
  timeouts : count (TimesOut t) h = count (Returns t rtEtimeout) h + if TimedOut s t then 1 else 0

/-- The invariant of the semaphore. -/
structure SemInv (q : ι) (v₀ : Nat) (h : History (SemState τ ι) (SemAction τ)) (s : SemState τ ι) : Prop where
  sched : SchedInv s.kernel
  lock : s.kernel.lockNest = 0
  balance : v₀ + count (Releases q) h = s.value + count Takes h + count (GrantsOne q) h
  empty : 0 < s.value → s.kernel.waiting q = []
  thread : ∀ t, ThreadOk q h s t

section steps

variable {q : ι} {flag : IpcFlag} {v₀ : Nat} {h : History (SemState τ ι) (SemAction τ)} {s s' : SemState τ ι}
  {a : SemAction τ} {t u : τ}

omit [DecidableEq ι]

theorem ThreadOk.grants_same (hi : ThreadOk q h s u) (hgrants : ¬ Grants q u s a)
    (hreturns : ¬ Returns u rtEok s a) (hsame : Granted q s' u ↔ Granted q s u) :
    count (Grants q u) ((s, a) :: h) = count (Returns u rtEok) ((s, a) :: h) + if Granted q s' u then 1 else 0 := by
  rw [count_cons, count_cons, if_neg hgrants, if_neg hreturns]
  simp only [hsame]
  exact hi.grants

/-- A step in which the thread's timer does not fire and the thread does not return `-RT_ETIMEOUT`. -/
theorem ThreadOk.timeouts_same (hi : ThreadOk q h s u) (htimes : ¬ TimesOut u s a)
    (hreturns : ¬ Returns u rtEtimeout s a) (hsame : TimedOut s' u ↔ TimedOut s u) :
    count (TimesOut u) ((s, a) :: h) =
      count (Returns u rtEtimeout) ((s, a) :: h) + if TimedOut s' u then 1 else 0 := by
  rw [count_cons, count_cons, if_neg htimes, if_neg hreturns]
  simp only [hsame]
  exact hi.timeouts

theorem ThreadOk.frame (hi : ThreadOk q h s u) (hun : Untouched s.kernel s'.kernel u) (hpc : s'.pc u = s.pc u)
    (hcur : s'.kernel.current = some u → s.kernel.current = some u ∨ (s'.kernel.tcb u).stat = .ready)
    (hgrants : ¬ Grants q u s a) (hreturns : ∀ code, ¬ Returns u code s a) (htimes : ¬ TimesOut u s a) :
    ThreadOk q ((s, a) :: h) s' u := by
  have hwait := hun.mem_waiting q
  exact
    { outside := fun hp => by
        rw [hwait]
        exact hi.outside (hpc ▸ hp)
      waits := fun hm => by
        rw [hun.tcb]
        exact hi.waits (hwait.mp hm)
      suspended := fun hp hs => by
        rw [hun.tcb] at hs
        exact hwait.mpr (hi.suspended (hpc ▸ hp) hs)
      runs := fun hp hc => (hcur hc).elim (fun hc => hun.tcb ▸ hi.runs (hpc ▸ hp) hc) id
      outcome := fun hp => by
        rw [hun.tcb]
        exact hi.outcome (hpc ▸ hp)
      grants := hi.grants_same hgrants (hreturns _) (by unfold Granted; rw [hpc, hwait, hun.tcb])
      timeouts := hi.timeouts_same htimes (hreturns _) (by unfold TimedOut; rw [hpc, hun.tcb]) }

theorem inv_takeValue (hi : SemInv q v₀ h s) (hv : 0 < s.value) (ht : Takes s a) (hr : ¬ Releases q s a)
    (hg : ¬ GrantsOne q s a) (hgrants : ∀ u, ¬ Grants q u s a) (hreturns : ∀ u code, ¬ Returns u code s a)
    (htimes : ∀ u, ¬ TimesOut u s a) : SemInv q v₀ ((s, a) :: h) { s with value := s.value - 1 } where
  sched := hi.sched
  lock := hi.lock
  balance := by
    have hbal := hi.balance
    rw [count_cons, count_cons, count_cons, if_neg hr, if_pos ht, if_neg hg]
    dsimp only
    omega
  empty _ := hi.empty hv
  thread u := (hi.thread u).frame (.refl _ u) rfl .inl (hgrants u) (hreturns u) (htimes u)

/-- A step of the kernel that leaves the value alone, takes no unit and gives none. -/
theorem inv_kernel (hi : SemInv q v₀ h s) (hvalue : s'.value = s.value) (hsched : SchedInv s'.kernel)
    (hlock : s'.kernel.lockNest = s.kernel.lockNest) (ht : ¬ Takes s a) (hr : ¬ Releases q s a)
    (hg : ¬ GrantsOne q s a) (hempty : s.kernel.waiting q = [] → 0 < s.value → s'.kernel.waiting q = [])
    (hthread : ∀ t, ThreadOk q ((s, a) :: h) s' t) : SemInv q v₀ ((s, a) :: h) s' where
  sched := hsched
  lock := hlock.trans hi.lock
  balance := by
    rw [count_cons, count_cons, count_cons, if_neg hr, if_neg ht, if_neg hg, hvalue]
    exact hi.balance
  empty hv := by
    rw [hvalue] at hv
    exact hempty (hi.empty hv) hv
  thread := hthread

theorem inv_take_suspend [DecidableEq ι] {k : Kernel τ ι} {i : Nat} {time : Int} {timer : τ → Bool}
    (hi : SemInv q v₀ h s) (hcur : s.kernel.current = some t) (hpc : s.pc t = .idle) (hv : ¬ 0 < s.value)
    (hs : rtIpcListSuspend (s.kernel.setTcb t { s.kernel.tcb t with error := rtEok }) q i = some k) :
    SemInv q v₀ ((s, .take time) :: h)
      { s with kernel := k, timer := timer, pc := Function.update s.pc t .schedule } := by
  have hset : SchedInv (s.kernel.setTcb t { s.kernel.tcb t with error := rtEok }) :=
    inv_setTcb_same hi.sched rfl rfl rfl
  obtain ⟨-, htcb, hle, hwaiting, hlock⟩ := rtIpcListSuspend_spec
    (k := s.kernel.setTcb t { s.kernel.tcb t with error := rtEok }) hcur ((hi.thread t).outside hpc) hs
  rw [Kernel.setTcb_self] at htcb
  have hmem : t ∈ k.waiting q := by
    rw [hwaiting, List.mem_insertIdx hle]
    exact .inl rfl
  refine inv_kernel hi rfl (inv_ipcSuspend hset hs) hlock hv id id (fun _ hpos => absurd hpos hv) fun u => ?_
  by_cases hut : u = t
  · subst hut
    have hself : Function.update s.pc u TakePc.schedule u = .schedule := Function.update_self _ _ _
    exact
      { outside := fun hc => absurd (hself.symm.trans hc) (by simp)
        waits := fun _ => by rw [htcb]
        suspended := fun _ _ => hmem
        runs := fun hc => absurd (hself.symm.trans hc) (by simp)
        outcome := fun _ => .inl (by rw [htcb])
        grants := (hi.thread u).grants_same id id (iff_of_false (fun hc => hc.2.1 hmem) fun hc => hc.1 hpc)
        timeouts := (hi.thread u).timeouts_same id id (iff_of_false
          (fun hc => absurd hc.2 (by rw [htcb]; simp [rtEok, rtEtimeout])) fun hc => hc.1 hpc) }
  · refine (hi.thread u).frame ((untouched_setTcb _ _ hut).trans (untouched_ipcSuspend hs fun hc => ?_))
      (Function.update_of_ne hut _ _) (fun hc => ?_) id (fun _ => id) id
    · exact hut (Option.some.inj (hc.symm.trans hcur))
    · have hsame := suspendSelf_current (p := some (q, i)) hs
      exact .inl (hsame.symm.trans hc)

theorem inv_grant {rest : List τ} (hi : SemInv q v₀ h s) (hwait : s.kernel.waiting q = t :: rest) :
    SemInv q v₀ ((s, .release) :: h) { s with
      kernel := rtThreadResume s.kernel t, timer := Function.update s.timer t false } := by
  have hmem : t ∈ s.kernel.waiting q := by simp [hwait]
  have hstat : (s.kernel.tcb t).stat = .suspend := (hi.sched.waiting t q hmem).2
  have hpc : s.pc t ≠ .idle := fun hc => (hi.thread t).outside hc hmem
  obtain ⟨htcb, hwaiting, hlock, hcur⟩ := rtThreadResume_spec hstat
  have hnot : t ∉ (rtThreadResume s.kernel t).waiting q := by
    rw [hwaiting]
    exact (hi.sched.waiting_nodup q).not_mem_erase
  have heok : (s.kernel.tcb t).error = rtEok := (hi.thread t).waits hmem
  have hrel : (rtSemRelease q s).2 = rtEok := by simp only [rtSemRelease, hwait]
  exact
    { sched := inv_resume hi.sched t
      lock := hlock.trans hi.lock
      balance := by
        have hbal := hi.balance
        rw [count_cons, count_cons, count_cons, if_pos (show Releases q s .release from hrel),
          if_neg (show ¬ Takes s .release from id),
          if_pos (show GrantsOne q s .release from by show s.kernel.waiting q ≠ []; rw [hwait]; simp)]
        dsimp only
        omega
      empty := fun hv => absurd (hi.empty hv) (by rw [hwait]; simp)
      thread := fun u => by
        by_cases hut : u = t
        · subst hut
          have hgrants := (hi.thread u).grants
          rw [if_neg fun hc => hc.2.1 hmem] at hgrants
          have hgranted : Granted q { s with
              kernel := rtThreadResume s.kernel u, timer := Function.update s.timer u false } u :=
            ⟨hpc, hnot, by rw [htcb]; exact heok⟩
          exact
            { outside := fun hc => absurd hc hpc
              waits := fun hm => absurd hm hnot
              suspended := fun _ hst => absurd hst (by rw [htcb]; simp)
              runs := fun _ _ => by rw [htcb]
              outcome := fun _ => .inl (by rw [htcb]; exact heok)
              grants := by
                rw [count_cons, count_cons, if_pos (show Grants q u s .release from by
                  show (s.kernel.waiting q).head? = some u; rw [hwait]; rfl),
                  if_neg (show ¬ Returns u rtEok s .release from id), if_pos hgranted]
                omega
              timeouts := (hi.thread u).timeouts_same id id (iff_of_false
                (fun hc => absurd hc.2 (by rw [htcb]; dsimp only; rw [heok]; decide))
                fun hc => absurd (heok.symm.trans hc.2) (by decide)) }
        · refine (hi.thread u).frame ?_ rfl (fun hc => .inl (hcur.symm.trans hc)) (fun hc => ?_) (fun _ => id) id
          · rw [rtThreadResume, if_neg (not_not.mpr hstat)]
            exact (untouched_unlink _ hut).trans (untouched_insert _ hut)
          · change (s.kernel.waiting q).head? = some u at hc
            rw [hwait] at hc
            exact hut (Option.some.inj hc).symm }

theorem inv_timeout {k : Kernel τ ι} {timer : τ → Bool} (hi : SemInv q v₀ h s)
    (hs : rtThreadTimeout s.kernel t = some k) :
    SemInv q v₀ ((s, .timeout t) :: h) { s with kernel := k, timer := timer } := by
  obtain ⟨hstat, htcb, hsched, hwaiting, hlock, hready⟩ := rtThreadTimeout_spec hi.sched hi.lock hs
  have hnot : t ∉ k.waiting q := by
    rw [hwaiting]
    exact (hi.sched.waiting_nodup q).not_mem_erase
  refine inv_kernel hi rfl hsched hlock id id id (fun he _ => by rw [hwaiting, he]; rfl) fun u => ?_
  by_cases hut : u = t
  · subst hut
    have htimes := (hi.thread u).timeouts
    have hnone : ¬ Granted q { s with kernel := k, timer := timer } u := fun hc =>
      absurd hc.2.2 (by rw [htcb]; simp [rtEok, rtEtimeout])
    exact
      { outside := fun _ => hnot
        waits := fun hm => absurd hm hnot
        suspended := fun _ hst => absurd hst (by rw [htcb]; simp)
        runs := fun _ _ => by rw [htcb]
        outcome := fun _ => .inr (by rw [htcb])
        -- a thread in `rt_sem_take` that is suspended has not been granted a unit
        grants := (hi.thread u).grants_same id id
          (iff_of_false hnone fun hc => hc.2.1 ((hi.thread u).suspended hc.1 hstat))
        timeouts := by
          rw [count_cons, count_cons, if_neg (show ¬ Returns u rtEtimeout s (.timeout u) from id)]
          by_cases hpc : s.pc u = .idle
          · rw [if_neg fun hc => hc.1 hpc] at htimes
            rw [if_neg (show ¬ TimesOut u s (.timeout u) from fun hc => hc.2 hpc),
              if_neg (show ¬ TimedOut { s with kernel := k, timer := timer } u from fun hc => hc.1 hpc)]
            exact htimes
          · have hmem := (hi.thread u).suspended hpc hstat
            rw [if_neg fun hc => absurd (((hi.thread u).waits hmem).symm.trans hc.2) (by decide)] at htimes
            rw [if_pos (show TimesOut u s (.timeout u) from ⟨rfl, hpc⟩),
              if_pos (show TimedOut { s with kernel := k, timer := timer } u from ⟨hpc, by rw [htcb]⟩)]
            omega }
  · exact (hi.thread u).frame (untouched_timeout hs hut) rfl (fun hc => .inr (hready u hc)) id (fun _ => id)
      fun hc => hut hc.1.symm

theorem inv_next_schedule {k : Kernel τ ι} (hi : SemInv q v₀ h s) (hpc : s.pc t = .schedule)
    (hcur : s.kernel.current = some t) (hs : rtSchedule s.kernel = some k) :
    SemInv q v₀ ((s, .next) :: h) { s with kernel := k, pc := Function.update s.pc t .resumed } := by
  obtain ⟨htcb, -, -, hwaiting, -, hlock⟩ := rtSchedule_frame hs
  have hready (u : τ) (hc : k.current = some u) := schedule_ready hi.sched hs hi.lock hc
  have hreturns (u : τ) (code : Int) : ¬ Returns u code s .next := fun hc => by
    obtain rfl := Option.some.inj (hc.1.symm.trans hcur)
    exact absurd (hpc.symm.trans hc.2.1) (by simp)
  refine inv_kernel hi rfl (inv_schedule hi.sched hs) hlock id id id (fun he _ => by rw [hwaiting]; exact he)
    fun u => ?_
  by_cases hut : u = t
  · subst hut
    have hself : Function.update s.pc u TakePc.resumed u = .resumed := Function.update_self _ _ _
    have hold : s.pc u ≠ .idle := by simp [hpc]
    have hnew : Function.update s.pc u TakePc.resumed u ≠ .idle := by simp
    exact
      { outside := fun hc => absurd hc hnew
        waits := fun hm => by
          rw [htcb]
          rw [hwaiting] at hm
          exact (hi.thread u).waits hm
        suspended := fun _ hst => by
          rw [htcb] at hst
          rw [hwaiting]
          exact (hi.thread u).suspended hold hst
        runs := fun _ hc => hready u hc
        outcome := fun _ => by
          rw [htcb]
          exact (hi.thread u).outcome hold
        grants := (hi.thread u).grants_same id (hreturns u _) <| by
          unfold Granted
          dsimp only
          rw [hwaiting, htcb]
          exact ⟨fun hc => ⟨hold, hc.2⟩, fun hc => ⟨hnew, hc.2⟩⟩
        timeouts := (hi.thread u).timeouts_same id (hreturns u _) <| by
          unfold TimedOut
          dsimp only
          rw [htcb]
          exact ⟨fun hc => ⟨hold, hc.2⟩, fun hc => ⟨hnew, hc.2⟩⟩ }
  · exact (hi.thread u).frame (untouched_schedule hs u) (Function.update_of_ne hut _ _)
      (fun hc => .inr (hready u hc)) id (hreturns u) id

/-- The return of `rt_sem_take`: the thread runs, so it is no longer suspended. -/
theorem inv_next_return (hi : SemInv q v₀ h s) (hpc : s.pc t = .resumed) (hcur : s.kernel.current = some t) :
    SemInv q v₀ ((s, .next) :: h) { s with pc := Function.update s.pc t .idle } := by
  have hold : s.pc t ≠ .idle := by simp [hpc]
  have hstat := (hi.thread t).runs hpc hcur
  have hnot : t ∉ s.kernel.waiting q := fun hm =>
    absurd (hstat.symm.trans (hi.sched.waiting t q hm).2) (by simp)
  refine inv_kernel hi rfl hi.sched rfl id id id (fun he _ => he) fun u => ?_
  by_cases hut : u = t
  · subst hut
    have hself : Function.update s.pc u TakePc.idle u = .idle := Function.update_self _ _ _
    have hgrants := (hi.thread u).grants
    have htimes := (hi.thread u).timeouts
    have hreturns (code : Int) : Returns u code s .next ↔ (s.kernel.tcb u).error = code :=
      ⟨fun hc => hc.2.2, fun hc => ⟨hcur, hpc, hc⟩⟩
    have hgranted : Granted q s u ↔ (s.kernel.tcb u).error = rtEok :=
      ⟨fun hc => hc.2.2, fun hc => ⟨hold, hnot, hc⟩⟩
    have htimed : TimedOut s u ↔ (s.kernel.tcb u).error = rtEtimeout := ⟨fun hc => hc.2, fun hc => ⟨hold, hc⟩⟩
    exact
      { outside := fun _ => hnot
        waits := fun hm => absurd hm hnot
        suspended := fun hc => absurd hself hc
        runs := fun hc => absurd (hself.symm.trans hc) (by simp)
        outcome := fun hc => absurd hself hc
        grants := by
          simp only [hgranted] at hgrants
          rw [count_cons, count_cons, if_neg (show ¬ Grants q u s .next from id),
            if_neg (show ¬ Granted q { s with pc := Function.update s.pc u .idle } u from fun hc => hc.1 hself)]
          simp only [hreturns]
          exact hgrants
        timeouts := by
          simp only [htimed] at htimes
          rw [count_cons, count_cons, if_neg (show ¬ TimesOut u s .next from id),
            if_neg (show ¬ TimedOut { s with pc := Function.update s.pc u .idle } u from fun hc => hc.1 hself)]
          simp only [hreturns]
          exact htimes }
  · exact (hi.thread u).frame (.refl _ u) (Function.update_of_ne hut _ _) .inl id
      (fun _ hc => hut (Option.some.inj (hc.1.symm.trans hcur))) id

theorem inv_sleep [DecidableEq ι] {k : Kernel τ ι} {timer : τ → Bool} (hi : SemInv q v₀ h s)
    (hcur : s.kernel.current = some t) (hpc : s.pc t = .idle) (hs : suspendSelf s.kernel none = some k) :
    SemInv q v₀ ((s, .sleep) :: h) { s with kernel := k, timer := timer } := by
  have hcurrent := suspendSelf_current hs
  have hother (u : τ) (hut : u ≠ t) : Untouched s.kernel k u :=
    untouched_suspendSelf hs fun hc => hut (Option.some.inj (hc.symm.trans hcur))
  obtain ⟨t', ht', hstat, rfl⟩ := suspendSelf_none hs
  obtain rfl := Option.some.inj (hcur.symm.trans ht')
  obtain ⟨htcb, hwaiting, hlock, -⟩ := rtThreadSuspend_eq hstat
  have hnot : t ∉ (rtThreadSuspend s.kernel t).waiting q := by
    rw [hwaiting]
    exact (hi.sched.waiting_nodup q).not_mem_erase
  refine inv_kernel hi rfl (inv_suspend hi.sched t) hlock id id id (fun he _ => by rw [hwaiting, he]; rfl)
    fun u => ?_
  by_cases hut : u = t
  · subst hut
    exact
      { outside := fun _ => hnot
        waits := fun hm => absurd hm hnot
        suspended := fun hc => absurd hpc hc
        runs := fun hc => absurd (hpc.symm.trans hc) (by simp)
        outcome := fun hc => absurd hpc hc
        grants := (hi.thread u).grants_same id id (iff_of_false (fun hc => hc.1 hpc) fun hc => hc.1 hpc)
        timeouts := (hi.thread u).timeouts_same id id (iff_of_false (fun hc => hc.1 hpc) fun hc => hc.1 hpc) }
  · exact (hi.thread u).frame (hother u hut) rfl (fun hc => .inl (hcurrent.symm.trans hc)) id (fun _ => id) id

theorem inv_release_empty (hi : SemInv q v₀ h s) (hwait : s.kernel.waiting q = []) :
    SemInv q v₀ ((s, .release) :: h) (rtSemRelease q s).1 := by
  have hone : ¬ GrantsOne q s .release := fun hc => hc hwait
  have hgrants (u : τ) : ¬ Grants q u s .release := fun hc => by
    change (s.kernel.waiting q).head? = some u at hc
    simp [hwait] at hc
  have hthread (value : Nat) (u : τ) : ThreadOk q ((s, .release) :: h) { s with value := value } u :=
    (hi.thread u).frame (.refl _ u) rfl .inl (hgrants u) (fun _ => id) id
  by_cases hv : s.value < rtSemValueMax
  · have heq : rtSemRelease q s = ({ s with value := s.value + 1 }, rtEok) := by
      simp only [rtSemRelease, hwait, if_pos hv]
    rw [heq]
    exact
      { sched := hi.sched
        lock := hi.lock
        balance := by
          have hbal := hi.balance
          rw [count_cons, count_cons, count_cons,
            if_pos (show Releases q s .release from congrArg Prod.snd heq),
            if_neg (show ¬ Takes s .release from id), if_neg hone]
          dsimp only
          omega
        empty := fun _ => hwait
        thread := hthread _ }
  · have heq : rtSemRelease q s = (s, rtEfull) := by simp only [rtSemRelease, hwait, if_neg hv]
    have hrel : ¬ Releases q s .release := fun hc => by
      change (rtSemRelease q s).2 = rtEok at hc
      rw [heq] at hc
      exact absurd hc (by simp [rtEfull, rtEok])
    rw [heq]
    exact inv_kernel hi rfl hi.sched rfl id hrel hone (fun he _ => he) (hthread s.value)

theorem inv_step [DecidableEq ι] (hi : SemInv q v₀ h s) (hs : semStep q flag s a = some s') :
    SemInv q v₀ ((s, a) :: h) s' := by
  -- a step that leaves everything as it is
  have hsame (ht : ¬ Takes s a) (hr : ¬ Releases q s a) (hg : ¬ GrantsOne q s a) (hgrants : ∀ u, ¬ Grants q u s a)
      (hreturns : ∀ u code, ¬ Returns u code s a) (htimes : ∀ u, ¬ TimesOut u s a) :
      SemInv q v₀ ((s, a) :: h) s := inv_kernel hi rfl hi.sched rfl ht hr hg (fun he _ => he) fun u =>
    (hi.thread u).frame (.refl _ u) rfl .inl (hgrants u) (hreturns u) (htimes u)
  cases a with
  | take time =>
    obtain ⟨t, hcur, hs⟩ := Option.bind_eq_some_iff.mp hs
    obtain ⟨hpc, hs⟩ := Option.ite_none_right_eq_some.mp hs
    unfold rtSemTake at hs
    split_ifs at hs with hv
    · exact Option.some.inj hs ▸ inv_takeValue hi hv hv id id (fun _ => id) (fun _ _ => id) fun _ => id
    · exact Option.some.inj hs ▸ hsame hv id id (fun _ => id) (fun _ _ => id) fun _ => id
    · obtain ⟨k, hk, rfl⟩ := Option.map_eq_some_iff.mp hs
      exact inv_take_suspend hi hcur hpc hv hk
  | trytake =>
    obtain rfl := Option.some.inj hs
    split_ifs with hv
    · exact inv_takeValue hi hv hv id id (fun _ => id) (fun _ _ => id) fun _ => id
    · exact hsame hv id id (fun _ => id) (fun _ _ => id) fun _ => id
  | release =>
    obtain rfl := Option.some.inj hs
    cases hwait : s.kernel.waiting q with
    | nil => exact inv_release_empty hi hwait
    | cons t rest =>
      have heq : (rtSemRelease q s).1 = { s with
          kernel := rtThreadResume s.kernel t, timer := Function.update s.timer t false } := by
        simp only [rtSemRelease, hwait]
      rw [heq]
      exact inv_grant hi hwait
  | timeout t =>
    obtain ⟨-, hs⟩ := Option.ite_none_right_eq_some.mp hs
    obtain ⟨k, hk, rfl⟩ := Option.map_eq_some_iff.mp hs
    exact inv_timeout hi hk
  | next =>
    obtain ⟨t, hcur, hs⟩ := Option.bind_eq_some_iff.mp hs
    unfold takeNext at hs
    split at hs
    · cases hs
    · next hpc =>
      obtain ⟨k, hk, rfl⟩ := Option.map_eq_some_iff.mp hs
      exact inv_next_schedule hi hpc hcur hk
    · next hpc => exact Option.some.inj hs ▸ inv_next_return hi hpc hcur
  | sleep =>
    obtain ⟨t, hcur, hs⟩ := Option.bind_eq_some_iff.mp hs
    obtain ⟨hpc, hs⟩ := Option.ite_none_right_eq_some.mp hs
    obtain ⟨k, hk, rfl⟩ := Option.map_eq_some_iff.mp hs
    exact inv_sleep hi hcur hpc hk
  | yield =>
    obtain ⟨k, hk, rfl⟩ := Option.map_eq_some_iff.mp hs
    obtain ⟨hsched, hwaiting, hlock, hready⟩ := rtThreadYield_spec hi.sched hi.lock hk
    exact inv_kernel hi rfl hsched hlock id id id (fun he _ => by rw [hwaiting]; exact he) fun u =>
      (hi.thread u).frame (untouched_yield hk u) rfl (hready u) id (fun _ => id) id
  | schedule =>
    obtain ⟨k, hk, rfl⟩ := Option.map_eq_some_iff.mp hs
    obtain ⟨-, -, -, hwaiting, -, hlock⟩ := rtSchedule_frame hk
    exact inv_kernel hi rfl (inv_schedule hi.sched hk) hlock id id id (fun he _ => by rw [hwaiting]; exact he)
      fun u => (hi.thread u).frame (untouched_schedule hk u) rfl
        (fun hc => .inr (schedule_ready hi.sched hk hi.lock hc)) id (fun _ => id) id

end steps

/-! ## All runs -/

section runs

variable {q : ι} {flag : IpcFlag} {v₀ : Nat} {h : History (SemState τ ι) (SemAction τ)} {s : SemState τ ι}

theorem semInv (hrun : (semaphore τ q flag v₀).Run h s) : SemInv q v₀ h s := by
  refine hrun.always (I := SemInv q v₀) ?_ fun _ _ _ _ _ hi hs => inv_step hi hs
  rintro s ⟨hsched, hlock, hwaiting, hvalue, hpc⟩
  exact
    { sched := hsched
      lock := hlock
      balance := by
        rw [count_nil, count_nil, count_nil, hvalue]
      empty := fun _ => hwaiting
      thread := fun t =>
        { outside := fun _ => by rw [hwaiting]; exact List.not_mem_nil
          waits := fun hm => by rw [hwaiting] at hm; cases hm
          suspended := fun hc => absurd (hpc t) hc
          runs := fun hc => absurd ((hpc t).symm.trans hc) (by simp)
          outcome := fun hc => absurd (hpc t) hc
          grants := by rw [count_nil, count_nil, if_neg fun hc => hc.1 (hpc t)]
          timeouts := by rw [count_nil, count_nil, if_neg fun hc => hc.1 (hpc t)] } }

/-- In every state: the units that the semaphore started with or got are in its value, were taken from it, or were
handed to a suspended thread; no thread is suspended on it while its value is positive; and each thread returns
`RT_EOK` for each unit it was handed and `-RT_ETIMEOUT` for each timeout, at once or when it runs again. -/
theorem sem_conserved (hrun : (semaphore τ q flag v₀).Run h s) :
    v₀ + count (Releases q) h = s.value + (count Takes h + count (GrantsOne q) h) ∧
    (0 < s.value → s.kernel.waiting q = []) ∧
    ∀ t, count (Grants q t) h = count (Returns t rtEok) h + (if Granted q s t then 1 else 0) ∧
      count (TimesOut t) h = count (Returns t rtEtimeout) h + (if TimedOut s t then 1 else 0) ∧
      (s.pc t ≠ .idle → t ∈ s.kernel.waiting q ∨ Granted q s t ∨ TimedOut s t) := by
  have hi := semInv hrun
  refine ⟨by rw [hi.balance, Nat.add_assoc], hi.empty, fun t => ?_⟩
  have ht := hi.thread t
  refine ⟨ht.grants, ht.timeouts, fun hpc => ?_⟩
  by_cases hm : t ∈ s.kernel.waiting q
  · exact .inl hm
  · exact .inr ((ht.outcome hpc).imp (fun he => ⟨hpc, hm, he⟩) fun he => ⟨hpc, he⟩)

/-- The threads run, and the semaphore has one unit. -/
def semStart : SemState Bool Unit where
  kernel := twoRunning
  value := 1
  timer _ := false
  pc _ := .idle

theorem semInit_start : SemInit () 1 semStart where
  sched := schedInv_twoRunning
  lock := rfl
  waiting := rfl
  value := rfl
  pc _ := rfl

/-- The thread takes the unit, waits and is granted another one, and waits and times out. -/
theorem sem_conserved_run :
    ∃ h s, (semaphore Bool () .prio 1).Run h s ∧ count (Releases ()) h = 1 ∧
      1 + 1 = s.value + (count Takes h + count (GrantsOne ()) h) ∧
      count (Grants () true) h = count (Returns true rtEok) h + 0 := by
  obtain ⟨h, s, hrun, hrel, hpc⟩ := System.exists_run (S := semaphore Bool () .prio 1) semInit_start
    [.take (-1), .take 5, .next, .release, .schedule, .next, .take 3, .next, .timeout true, .next]
    (fun h s => count (Releases ()) h = 1 ∧ s.pc true = .idle) (by decide +kernel)
  obtain ⟨hbal, -, hthread⟩ := sem_conserved hrun
  obtain ⟨hgrants, -, -⟩ := hthread true
  rw [hrel] at hbal
  rw [if_neg fun hc => hc.1 hpc] at hgrants
  exact ⟨h, s, hrun, hrel, hbal, hgrants⟩

end runs

/-! ## The semaphore without its threads -/

section refinement

variable {q : ι} {s s' : SemState τ ι} {sem : RtSemaphore τ} {t : τ} {time : Int}

/-- `sem` is the semaphore: its value and its list. -/
def Is (q : ι) (s : SemState τ ι) (sem : RtSemaphore τ) : Prop :=
  sem.value = s.value ∧ sem.suspendThread = s.kernel.waiting q

/-- The critical section of `rt_sem_take`, for a semaphore with the flag `RT_IPC_FLAG_FIFO`. -/
theorem take_refines (his : Is q s sem) (hcur : s.kernel.current = some t) (hout : t ∉ s.kernel.waiting q)
    (htime : time ≠ 0) (hs : rtSemTake q .fifo s t time = some s') :
    Is q s' (ThyristorController.rtSemTake sem t).1 := by
  obtain ⟨hvalue, hlist⟩ := his
  unfold rtSemTake at hs
  split_ifs at hs with hv
  · obtain rfl := Option.some.inj hs
    obtain ⟨-, hval, hsusp⟩ := rtSemTake_pos sem t (by omega)
    exact ⟨by rw [hval, hvalue], by rw [hsusp, hlist]⟩
  · obtain ⟨k, hk, rfl⟩ := Option.map_eq_some_iff.mp hs
    obtain ⟨-, hval, hsusp⟩ := rtSemTake_zero sem t (by omega)
    obtain ⟨-, -, -, hwaiting, -⟩ := rtIpcListSuspend_spec
      (k := s.kernel.setTcb t { s.kernel.tcb t with error := rtEok }) hcur hout hk
    refine ⟨by rw [hval]; dsimp only; omega, ?_⟩
    dsimp only
    rw [hsusp, hlist, hwaiting]
    exact (List.insertIdx_length_self).symm

omit [DecidableEq ι] in
theorem release_refines (his : Is q s sem) (hsched : SchedInv s.kernel) :
    Is q (rtSemRelease q s).1 (ThyristorController.rtSemRelease sem).1 := by
  obtain ⟨hvalue, hlist⟩ := his
  cases hwait : s.kernel.waiting q with
  | nil =>
    rw [hwait] at hlist
    by_cases hv : s.value < rtSemValueMax
    · obtain ⟨-, hval, hsusp⟩ := rtSemRelease_stored sem hlist (hvalue ▸ hv)
      simp only [rtSemRelease, hwait, if_pos hv]
      exact ⟨by rw [hval, hvalue], by rw [hsusp, hwait]⟩
    · rw [rtSemRelease_full sem hlist (hvalue ▸ hv)]
      simp only [rtSemRelease, hwait, if_neg hv]
      exact ⟨hvalue, by rw [hlist, hwait]⟩
  | cons t rest =>
    rw [hwait] at hlist
    obtain ⟨-, hval, hsusp⟩ := rtSemRelease_waiting sem hlist
    have hstat := (hsched.waiting t q (by simp [hwait])).2
    simp only [rtSemRelease, hwait]
    refine ⟨by rw [hval, hvalue], ?_⟩
    rw [hsusp, (rtThreadResume_spec hstat).2.1, hwait, List.erase_cons_head]

end refinement

end ThyristorController.SemThreads
