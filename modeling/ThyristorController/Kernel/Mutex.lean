import ThyristorController.Kernel.IpcThreads

/-!
# Mutexes and their threads (`src/ipc.c`)

`rt_mutex_take` with any waiting time and `rt_mutex_release`, over the scheduler, for any number of mutexes. A
thread that finds a mutex taken raises the priority of the owner to its own, suspends itself into the mutex's list,
and calls `rt_schedule`. A release gives the saved priority back to the owner, and hands the mutex to the first
thread of the list while that is still suspended.

`mutual_exclusion` is the state of a mutex in every reachable state, and the balance of takes and releases.
-/

namespace ThyristorController.Mutexes

open Transition SemThreads

/-! ## The system -/

/-- `RT_MUTEX_HOLD_MAX` and `RT_MUTEX_VALUE_MAX`. -/
def rtMutexHoldMax : BitVec 8 := 255
def rtMutexValueMax : BitVec 16 := 65535

/-- `struct rt_mutex`, without the list; `originalPriority` is `none` for `0xff`. -/
structure RtMutex (τ : Type) where
  value : BitVec 16
  originalPriority : Option Priority
  hold : BitVec 8
  owner : Option τ

/-- What `rt_mutex_init` sets. -/
def rtMutexInit {τ : Type} : RtMutex τ where
  value := 1
  originalPriority := none
  hold := 0
  owner := none

/-- The call that a thread is in is `rt_mutex_take` of a mutex; the lists are those of the mutexes. -/
structure MutexState (τ μ : Type) where
  threads : IpcThreads τ μ μ
  mutex : μ → RtMutex τ

/-- The running thread calls `rt_mutex_take` or `rt_mutex_release`, or returns from the former after it was
suspended; `env` is everything else. -/
inductive MutexAction (τ μ : Type) where
  | take (m : μ) (time : Int)
  | release (m : μ)
  | ret
  | env (a : EnvAction τ)

variable {τ μ : Type} [DecidableEq τ] [DecidableEq μ]

namespace MutexState

def setMutex (s : MutexState τ μ) (m : μ) (x : RtMutex τ) : MutexState τ μ :=
  { s with mutex := Function.update s.mutex m x }

/-- `thread->current_priority`. -/
abbrev priority (s : MutexState τ μ) (t : τ) : Priority := s.threads.view.priority t

/-- `mutex->parent.suspend_thread`. -/
abbrev waiting (s : MutexState τ μ) (m : μ) : List τ := s.threads.view.waiting m

end MutexState

/-- `rt_mutex_take` up to its call of `rt_schedule`, with the code if it returns at once; `none` is the null
pointer read of an owner. -/
def rtMutexTake (flag : μ → IpcFlag) (s : MutexState τ μ) (t : τ) (m : μ) (time : Int) :
    Option (MutexState τ μ × Option Int) :=
  let s := { s with threads := s.threads.setError t rtEok }
  let x := s.mutex m
  if x.owner = some t then
    if x.hold < rtMutexHoldMax then some (s.setMutex m { x with hold := x.hold + 1 }, some rtEok)
    else some (s, some rtEfull)
  else if 0 < x.value then
    let x := { x with value := x.value - 1, owner := some t, originalPriority := some (s.priority t) }
    if x.hold < rtMutexHoldMax then some (s.setMutex m { x with hold := x.hold + 1 }, some rtEok)
    else some (s.setMutex m x, some rtEfull)
  else if time = 0 then some ({ s with threads := s.threads.setError t rtEtimeout }, some rtEtimeout)
  else
    match x.owner with
    | none => none
    | some o =>
      let w := if s.priority t < s.priority o then s.threads.changePriority o (s.priority t) else s.threads
      (w.suspendOn t m (flag m) (decide (0 < time)) m).map fun w => ({ s with threads := w }, none)

/-- `rt_mutex_release` up to its call of `rt_schedule`, with its return code; `none` is the priority `0xff`. -/
def rtMutexRelease (s : MutexState τ μ) (t : τ) (m : μ) : Option (MutexState τ μ × Int) :=
  let x := s.mutex m
  if x.owner ≠ some t then some ({ s with threads := s.threads.setError t rtError }, rtError)
  else
    let x := { x with hold := x.hold - 1 }
    if x.hold = 0 then
      match x.originalPriority with
      | none => none
      | some prio =>
        let s := if prio ≠ s.priority t then { s with threads := s.threads.changePriority t prio } else s
        match s.waiting m with
        | u :: _ =>
          let x := { x with owner := some u, originalPriority := some (s.priority u) }
          if x.hold < rtMutexHoldMax then
            let s := s.setMutex m { x with hold := x.hold + 1 }
            some ({ s with threads := s.threads.resume u }, rtEok)
          else some (s.setMutex m x, rtEfull)
        | [] =>
          if x.value < rtMutexValueMax then
            some (s.setMutex m { x with value := x.value + 1, owner := none, originalPriority := none }, rtEok)
          else some (s.setMutex m x, rtEfull)
    else some (s.setMutex m x, rtEok)

def mutexStep (flag : μ → IpcFlag) (s : MutexState τ μ) : MutexAction τ μ → Option (MutexState τ μ)
  | .take m time => s.threads.caller.bind fun t => (rtMutexTake flag s t m time).map Prod.fst
  | .release m => s.threads.caller.bind fun t => (rtMutexRelease s t m).map Prod.fst
  | .ret => s.threads.returning.map fun r => { s with threads := s.threads.setPc r.1 .idle }
  | .env a => (s.threads.envStep a).map fun w => { s with threads := w }

/-- The mutexes are initialised. -/
structure MutexInit (s : MutexState τ μ) : Prop where
  threads : s.threads.Init
  mutex : ∀ m, s.mutex m = rtMutexInit

def mutexes (τ : Type) {μ : Type} [DecidableEq τ] [DecidableEq μ] (flag : μ → IpcFlag) :
    System (MutexState τ μ) (MutexAction τ μ) where
  init := MutexInit
  step := mutexStep flag

/-! ## The events -/

/-- `rt_mutex_take` of the thread returns `RT_EOK` at once. -/
def Takes (flag : μ → IpcFlag) (m : μ) (t : τ) (s : MutexState τ μ) : MutexAction τ μ → Prop
  | .take n time => n = m ∧ s.threads.caller = some t ∧ (rtMutexTake flag s t m time).bind Prod.snd = some rtEok
  | _ => False

/-- `rt_mutex_release` of the thread returns `RT_EOK`. -/
def Releases (m : μ) (t : τ) (s : MutexState τ μ) : MutexAction τ μ → Prop
  | .release n => n = m ∧ s.threads.caller = some t ∧ (rtMutexRelease s t m).map Prod.snd = some rtEok
  | _ => False

/-- A release hands the mutex to the thread. -/
def Grants (m : μ) (t : τ) (s : MutexState τ μ) : MutexAction τ μ → Prop
  | .release n => n = m ∧ (s.mutex m).hold = 1 ∧ s.threads.caller ≠ none ∧ s.threads.caller = (s.mutex m).owner ∧
    (s.waiting m).head? = some t
  | _ => False

/-- The thread returns from `rt_mutex_take` with the code, after it was suspended. -/
def Returns (m : μ) (t : τ) (code : Int) (s : MutexState τ μ) : MutexAction τ μ → Prop
  | .ret => s.threads.returning = some (t, m) ∧ s.threads.view.error t = code
  | _ => False

/-- The thread has been handed the mutex, and has not returned yet. -/
def Granted (m : μ) (s : MutexState τ μ) (t : τ) : Prop :=
  s.threads.view.call t = some m ∧ t ∉ s.waiting m ∧ s.threads.view.error t = rtEok

instance (flag : μ → IpcFlag) (m : μ) (t : τ) (s : MutexState τ μ) :
    (a : MutexAction τ μ) → Decidable (Takes flag m t s a)
  | .take n time => inferInstanceAs (Decidable
      (n = m ∧ s.threads.caller = some t ∧ (rtMutexTake flag s t m time).bind Prod.snd = some rtEok))
  | .release _ | .ret | .env _ => isFalse id

instance (m : μ) (t : τ) (s : MutexState τ μ) : (a : MutexAction τ μ) → Decidable (Releases m t s a)
  | .release n => inferInstanceAs (Decidable
      (n = m ∧ s.threads.caller = some t ∧ (rtMutexRelease s t m).map Prod.snd = some rtEok))
  | .take _ _ | .ret | .env _ => isFalse id

instance (m : μ) (t : τ) (s : MutexState τ μ) : (a : MutexAction τ μ) → Decidable (Grants m t s a)
  | .release n => inferInstanceAs (Decidable
      (n = m ∧ (s.mutex m).hold = 1 ∧ s.threads.caller ≠ none ∧ s.threads.caller = (s.mutex m).owner ∧
        (s.waiting m).head? = some t))
  | .take _ _ | .ret | .env _ => isFalse id

instance (m : μ) (t : τ) (code : Int) (s : MutexState τ μ) :
    (a : MutexAction τ μ) → Decidable (Returns m t code s a)
  | .ret => inferInstanceAs (Decidable (s.threads.returning = some (t, m) ∧ s.threads.view.error t = code))
  | .take _ _ | .release _ | .env _ => isFalse id

instance (m : μ) (s : MutexState τ μ) (t : τ) : Decidable (Granted m s t) :=
  inferInstanceAs (Decidable (s.threads.view.call t = some m ∧ t ∉ s.waiting m ∧ s.threads.view.error t = rtEok))

/-! ## What the operations do -/

/-- A mutex is free and nobody waits for it, or it has an owner. -/
def MutexOk (s : MutexState τ μ) (m : μ) : Prop :=
  s.mutex m = rtMutexInit ∧ s.waiting m = [] ∨
  (s.mutex m).value = 0 ∧ (s.mutex m).hold ≠ 0 ∧ (s.mutex m).owner ≠ none ∧ (s.mutex m).originalPriority ≠ none

/-- The threads and the mutexes are in order. -/
structure MutexInv (s : MutexState τ μ) : Prop where
  threads : s.threads.Ok id
  mutex : ∀ m, MutexOk s m

/-- What `rt_mutex_take` does, apart from the error number of the thread: take the mutex again, find the hold counter
at its limit, take a free mutex, not wait, or wait. -/
inductive TakeEffect (s : MutexState τ μ) (t : τ) (m : μ) (time : Int) (s' : MutexState τ μ) : Option Int → Prop
  | again : (s.mutex m).owner = some t → (s.mutex m).hold ≠ rtMutexHoldMax →
      s'.threads.view = s.threads.view.setError t rtEok →
      s'.mutex = Function.update s.mutex m { s.mutex m with hold := (s.mutex m).hold + 1 } →
      TakeEffect s t m time s' (some rtEok)
  | full : (s.mutex m).owner = some t → s'.threads.view = s.threads.view.setError t rtEok → s'.mutex = s.mutex →
      TakeEffect s t m time s' (some rtEfull)
  | free : s.mutex m = rtMutexInit → s.waiting m = [] → s'.threads.view = s.threads.view.setError t rtEok →
      s'.mutex = Function.update s.mutex m
        { value := 0, originalPriority := some (s.priority t), hold := 1, owner := some t } →
      TakeEffect s t m time s' (some rtEok)
  | refused : time = 0 → s'.threads.view = (s.threads.view.setError t rtEok).setError t rtEtimeout →
      s'.mutex = s.mutex →
      TakeEffect s t m time s' (some rtEtimeout)
  | waits (o : τ) (i : Nat) : time ≠ 0 → (s.mutex m).owner = some o → o ≠ t → i ≤ (s.waiting m).length →
      s'.threads.view = ((s.threads.view.setError t rtEok).setPriority o (min (s.priority o) (s.priority t))).suspend
        t m i m →
      s'.mutex = s.mutex → TakeEffect s t m time s' none

/-- What `rt_mutex_release` does: refuse, release once, free the mutex, or hand it over. -/
inductive ReleaseEffect (s : MutexState τ μ) (t : τ) (m : μ) (s' : MutexState τ μ) : Int → Prop
  | refused : (s.mutex m).owner ≠ some t → s'.threads.view = s.threads.view.setError t rtError →
      s'.mutex = s.mutex → ReleaseEffect s t m s' rtError
  | inner : (s.mutex m).owner = some t → (s.mutex m).hold ≠ 1 → s'.threads.view = s.threads.view →
      s'.mutex = Function.update s.mutex m { s.mutex m with hold := (s.mutex m).hold - 1 } →
      ReleaseEffect s t m s' rtEok
  | free (prio : Priority) : (s.mutex m).owner = some t → (s.mutex m).hold = 1 →
      (s.mutex m).originalPriority = some prio → s.waiting m = [] →
      s'.threads.view = s.threads.view.setPriority t prio → s'.mutex = Function.update s.mutex m rtMutexInit →
      ReleaseEffect s t m s' rtEok
  | hands (prio : Priority) (u : τ) (rest : List τ) : (s.mutex m).owner = some t → (s.mutex m).hold = 1 →
      (s.mutex m).originalPriority = some prio → s.waiting m = u :: rest → u ≠ t →
      s'.threads.view = (s.threads.view.setPriority t prio).resume u →
      s'.mutex = Function.update s.mutex m
        { value := 0, originalPriority := some (s.priority u), hold := 1, owner := some u } →
      ReleaseEffect s t m s' rtEok

section effects

variable {flag : μ → IpcFlag} {s s' : MutexState τ μ} {t : τ} {m : μ} {time : Int} {r : Option Int} {code : Int}

omit [DecidableEq μ] in
theorem setPriority_same (v : IpcView τ μ μ) (t : τ) : v.setPriority t (v.priority t) = v := by
  unfold IpcView.setPriority
  rw [Function.update_eq_self]

theorem take_effect (hi : MutexInv s) (hr : s.threads.caller = some t)
    (hs : rtMutexTake flag s t m time = some (s', r)) : s'.threads.Ok id ∧ TakeEffect s t m time s' r := by
  have hset := hi.threads.setError (.inl hr) rtEok
  have hprio (u : τ) : (⟨s.threads.setError t rtEok, s.mutex⟩ : MutexState τ μ).priority u = s.priority u := by
    simp only [MutexState.priority, IpcThreads.view_setError]
    rfl
  unfold rtMutexTake at hs
  dsimp only at hs
  split_ifs at hs with howner hhold hvalue hhold htime
  · obtain ⟨rfl, rfl⟩ := Prod.mk.inj (Option.some.inj hs)
    refine ⟨hset, .again howner (fun he => ?_) (IpcThreads.view_setError _ _ _) rfl⟩
    rw [he] at hhold
    exact absurd hhold (by decide)
  · obtain ⟨rfl, rfl⟩ := Prod.mk.inj (Option.some.inj hs)
    exact ⟨hset, .full howner (IpcThreads.view_setError _ _ _) rfl⟩
  · obtain ⟨rfl, rfl⟩ := Prod.mk.inj (Option.some.inj hs)
    rcases hi.mutex m with ⟨hfree, hempty⟩ | ⟨hzero, -⟩
    · refine ⟨hset, .free hfree hempty (IpcThreads.view_setError _ _ _) ?_⟩
      show Function.update s.mutex m _ = _
      have hvalue : (rtMutexInit : RtMutex τ).value - 1 = 0 := show (1 : BitVec 16) - 1 = 0 by decide
      rw [hprio, hfree, hvalue]
      rfl
    · rw [hzero] at hvalue
      exact absurd hvalue (by decide)
  · rcases hi.mutex m with ⟨hfree, -⟩ | ⟨hzero, -⟩
    · rw [hfree] at hhold
      exact absurd (show (0 : BitVec 8) < rtMutexHoldMax by decide) hhold
    · rw [hzero] at hvalue
      exact absurd hvalue (by decide)
  · obtain ⟨rfl, rfl⟩ := Prod.mk.inj (Option.some.inj hs)
    refine ⟨hset.setError (.inl hr) rtEtimeout, .refused htime ?_ rfl⟩
    rw [IpcThreads.view_setError, IpcThreads.view_setError]
  · split at hs
    · cases hs
    · next o ho =>
      obtain ⟨w, hw, heq⟩ := Option.map_eq_some_iff.mp hs
      obtain ⟨rfl, rfl⟩ := Prod.mk.inj heq
      have hne : o ≠ t := fun he => howner (he ▸ ho)
      -- the threads once the owner has at least the priority of the thread
      have hboost : ∃ w₁ : IpcThreads τ μ μ, w₁.suspendOn t m (flag m) (decide (0 < time)) m = some w ∧ w₁.Ok id ∧
          w₁.Runs t ∧ w₁.view =
            (s.threads.view.setError t rtEok).setPriority o (min (s.priority o) (s.priority t)) := by
        rw [hprio, hprio] at hw
        split_ifs at hw with hlt
        · refine ⟨_, hw, hset.changePriority o _, ?_, ?_⟩
          · exact (IpcThreads.changePriority_runs _ _ _).mpr (.inl hr)
          · rw [IpcThreads.view_changePriority hset, IpcThreads.view_setError, min_eq_right hlt.le]
        · refine ⟨_, hw, hset, .inl hr, ?_⟩
          rw [IpcThreads.view_setError, min_eq_left (not_lt.mp hlt)]
          exact (setPriority_same _ o).symm
      obtain ⟨w₁, hw₁, hok₁, hr₁, hview₁⟩ := hboost
      have herr : w₁.view.error t = rtEok := by
        rw [hview₁]
        exact Function.update_self _ _ _
      obtain ⟨hok, i, hle, hview⟩ := IpcThreads.suspendOn_spec hok₁ hr₁ herr rfl hw₁
      rw [hview₁] at hle hview
      exact ⟨hok, .waits o i htime ho hne hle hview rfl⟩

theorem release_effect (hi : MutexInv s) (hr : s.threads.caller = some t)
    (hs : rtMutexRelease s t m = some (s', code)) : s'.threads.Ok id ∧ ReleaseEffect s t m s' code := by
  unfold rtMutexRelease at hs
  dsimp only at hs
  by_cases howner : (s.mutex m).owner = some t
  case neg =>
    rw [if_pos howner] at hs
    obtain ⟨rfl, rfl⟩ := Prod.mk.inj (Option.some.inj hs)
    exact ⟨hi.threads.setError (.inl hr) rtError, .refused howner (IpcThreads.view_setError _ _ _) rfl⟩
  rw [if_neg (not_not.mpr howner)] at hs
  by_cases hhold : (s.mutex m).hold - 1 = 0
  · have hone : (s.mutex m).hold = 1 := by bv_omega
    have hzero : (s.mutex m).value = 0 := by
      rcases hi.mutex m with ⟨hfree, -⟩ | ⟨hzero, -⟩
      · rw [hfree] at howner
        cases howner
      · exact hzero
    rw [if_pos hhold] at hs
    split at hs
    · cases hs
    · next prio horig =>
      -- the threads once the priority is given back
      have hback : ∃ w : IpcThreads τ μ μ, w.Ok id ∧ w.view = s.threads.view.setPriority t prio ∧
          (if prio ≠ s.priority t then { s with threads := s.threads.changePriority t prio } else s) =
            { s with threads := w } := by
        split_ifs with hprio
        · exact ⟨_, hi.threads.changePriority t prio, IpcThreads.view_changePriority hi.threads t prio, rfl⟩
        · refine ⟨_, hi.threads, ?_, rfl⟩
          rw [not_not.mp hprio]
          exact (setPriority_same _ t).symm
      obtain ⟨w, hok, hview, heq⟩ := hback
      rw [heq] at hs
      have hwaiting : MutexState.waiting { s with threads := w } m = s.waiting m := by
        show w.view.waiting m = _
        rw [hview]
        rfl
      split at hs
      · next u rest hw =>
        have hw' : s.waiting m = u :: rest := hwaiting ▸ hw
        have hmem : u ∈ w.view.waiting m := by
          rw [show w.view.waiting m = u :: rest from hw]
          exact List.mem_cons_self
        have hut : u ≠ t := fun he => by
          have := hi.threads.not_waiting (.inl hr) m
          rw [show s.threads.view.waiting m = u :: rest from hw', he] at this
          exact this List.mem_cons_self
        have hprio : MutexState.priority { s with threads := w } u = s.priority u := by
          show w.view.priority u = _
          rw [hview]
          exact Function.update_of_ne hut _ _
        rw [if_pos (by rw [hhold]; decide)] at hs
        obtain ⟨rfl, rfl⟩ := Prod.mk.inj (Option.some.inj hs)
        refine ⟨hok.resume hmem, .hands prio u rest howner hone horig hw' hut ?_ ?_⟩
        · rw [← hview]
          exact IpcThreads.view_resume hok hmem
        · show Function.update s.mutex m _ = _
          rw [hhold, hzero, hprio]
          rfl
      · next hw =>
        rw [if_pos (by rw [hzero]; decide)] at hs
        obtain ⟨rfl, rfl⟩ := Prod.mk.inj (Option.some.inj hs)
        refine ⟨hok, .free prio howner hone horig (hwaiting ▸ hw) hview ?_⟩
        show Function.update s.mutex m _ = _
        rw [hhold, hzero]
        rfl
  · rw [if_neg hhold] at hs
    obtain ⟨rfl, rfl⟩ := Prod.mk.inj (Option.some.inj hs)
    refine ⟨hi.threads, .inner howner (fun he => hhold ?_) rfl rfl⟩
    rw [he]
    rfl

theorem mem_waits {v : IpcView τ μ μ} {o u : τ} {n : μ} {i : Nat} {e : Int} {prio : Priority}
    (hle : i ≤ (v.waiting m).length) (hv : s'.threads.view = ((v.setError t e).setPriority o prio).suspend t m i m) :
    u ∈ s'.waiting n ↔ u = t ∧ n = m ∨ u ∈ v.waiting n := by
  rw [MutexState.waiting, hv, IpcView.mem_suspend]
  · rfl
  · exact hle

/-- What a step does. -/
inductive Effect (flag : μ → IpcFlag) (s : MutexState τ μ) : MutexAction τ μ → MutexState τ μ → Prop
  | take {s' : MutexState τ μ} {m : μ} {time : Int} {t : τ} {r : Option Int} : s.threads.caller = some t →
      rtMutexTake flag s t m time = some (s', r) → TakeEffect s t m time s' r → Effect flag s (.take m time) s'
  | release {s' : MutexState τ μ} {m : μ} {t : τ} {code : Int} : s.threads.caller = some t →
      rtMutexRelease s t m = some (s', code) → ReleaseEffect s t m s' code → Effect flag s (.release m) s'
  | ret {s' : MutexState τ μ} {t : τ} {m : μ} : s.threads.returning = some (t, m) →
      s'.threads.view = s.threads.view.setCall t none → s'.mutex = s.mutex → Effect flag s .ret s'
  | timeout {s' : MutexState τ μ} {t : τ} : (∀ m, s.threads.view.call t = some m → t ∈ s.waiting m) →
      s'.threads.view = s.threads.view.expire t → s'.mutex = s.mutex → Effect flag s (.env (.timeout t)) s'
  | env {s' : MutexState τ μ} {a : EnvAction τ} : s'.threads.view = s.threads.view → s'.mutex = s.mutex →
      Effect flag s (.env a) s'

theorem step_effect {a : MutexAction τ μ} (hi : MutexInv s) (hs : mutexStep flag s a = some s') :
    s'.threads.Ok id ∧ Effect flag s a s' := by
  cases a with
  | take m time =>
    obtain ⟨t, hr, hs⟩ := Option.bind_eq_some_iff.mp hs
    obtain ⟨⟨s₁, r⟩, htake, rfl⟩ := Option.map_eq_some_iff.mp hs
    obtain ⟨hok, heff⟩ := take_effect hi hr htake
    exact ⟨hok, .take hr htake heff⟩
  | release m =>
    obtain ⟨t, hr, hs⟩ := Option.bind_eq_some_iff.mp hs
    obtain ⟨⟨s₁, code⟩, hrel, rfl⟩ := Option.map_eq_some_iff.mp hs
    obtain ⟨hok, heff⟩ := release_effect hi hr hrel
    exact ⟨hok, .release hr hrel heff⟩
  | ret =>
    obtain ⟨⟨t, m⟩, hr, rfl⟩ := Option.map_eq_some_iff.mp hs
    exact ⟨hi.threads.leave (.inr ⟨m, hr⟩), .ret hr (IpcThreads.view_setPc _ _ _) rfl⟩
  | env a =>
    obtain ⟨w, hw, rfl⟩ := Option.map_eq_some_iff.mp hs
    obtain ⟨hok, heff⟩ := IpcThreads.envStep_spec hi.threads hw
    rcases heff with ⟨t, rfl, hview, hwaits⟩ | ⟨-, hview⟩
    · exact ⟨hok, .timeout hwaits hview rfl⟩
    · exact ⟨hok, .env hview rfl⟩

omit [DecidableEq τ] [DecidableEq μ] in
theorem MutexOk.frame (h : MutexOk s m) (hmutex : s'.mutex m = s.mutex m)
    (hwaiting : s.waiting m = [] → s'.waiting m = []) : MutexOk s' m := by
  unfold MutexOk
  rw [hmutex]
  exact h.imp (fun h => ⟨h.1, hwaiting h.2⟩) id

omit [DecidableEq τ] in
theorem MutexOk.hold {k : BitVec 8} (h : MutexOk s m) (howner : (s.mutex m).owner = some t)
    (hm : s'.mutex = Function.update s.mutex m { s.mutex m with hold := k }) (hk : k ≠ 0) : MutexOk s' m := by
  rcases h with ⟨hfree, -⟩ | ⟨hvalue, -, hsome, horig⟩
  · rw [hfree] at howner
    cases howner
  · refine .inr ?_
    rw [hm, Function.update_self]
    exact ⟨hvalue, hk, hsome, horig⟩

theorem Effect.mutexOk {a : MutexAction τ μ} (he : Effect flag s a s') (h : ∀ m, MutexOk s m) (n : μ) :
    MutexOk s' n := by
  have hview {v : IpcView τ μ μ} (hv : s'.threads.view = v) : s'.waiting n = v.waiting n := congrFun
    (congrArg IpcView.waiting hv) n
  have herase (u : τ) (he : s.waiting n = []) : (s.waiting n).erase u = [] := by rw [he]; rfl
  cases he with
  | @take _ m _ t _ _ _ heff =>
    cases heff with
    | again howner hhold hv hm =>
      by_cases hnm : n = m
      · subst hnm
        refine (h n).hold howner hm fun hc => hhold ?_
        simp only [rtMutexHoldMax]
        bv_omega
      · exact (h n).frame (by rw [hm, Function.update_of_ne hnm]) (by rw [hview hv]; exact id)
    | full _ hv hm => exact (h n).frame (by rw [hm]) (by rw [hview hv]; exact id)
    | free hfree hempty hv hm =>
      by_cases hnm : n = m
      · subst hnm
        refine .inr ?_
        rw [hm, Function.update_self]
        exact ⟨rfl, show (1 : BitVec 8) ≠ 0 by decide, by simp, by simp⟩
      · exact (h n).frame (by rw [hm, Function.update_of_ne hnm]) (by rw [hview hv]; exact id)
    | refused _ hv hm => exact (h n).frame (by rw [hm]) (by rw [hview hv]; exact id)
    | waits o i _ howner _ _ hv hm =>
      by_cases hnm : n = m
      · subst hnm
        rcases h n with ⟨hfree, -⟩ | hheld
        · rw [hfree] at howner
          cases howner
        · refine .inr ?_
          rw [hm]
          exact hheld
      · refine (h n).frame (by rw [hm]) ?_
        rw [hview hv]
        exact fun he => (Function.update_of_ne hnm _ _).trans he
  | @release _ m t _ _ _ heff =>
    cases heff with
    | refused _ hv hm => exact (h n).frame (by rw [hm]) (by rw [hview hv]; exact id)
    | inner howner hhold hv hm =>
      by_cases hnm : n = m
      · subst hnm
        refine (h n).hold howner hm fun hc => hhold ?_
        bv_omega
      · exact (h n).frame (by rw [hm, Function.update_of_ne hnm]) (by rw [hview hv]; exact id)
    | free prio _ _ _ hempty hv hm =>
      by_cases hnm : n = m
      · subst hnm
        exact .inl ⟨by rw [hm, Function.update_self], by rw [hview hv]; exact hempty⟩
      · exact (h n).frame (by rw [hm, Function.update_of_ne hnm]) (by rw [hview hv]; exact id)
    | hands prio u rest _ _ _ _ _ hv hm =>
      by_cases hnm : n = m
      · subst hnm
        refine .inr ?_
        rw [hm, Function.update_self]
        exact ⟨rfl, show (1 : BitVec 8) ≠ 0 by decide, by simp, by simp⟩
      · exact (h n).frame (by rw [hm, Function.update_of_ne hnm]) (by rw [hview hv]; exact herase u)
  | ret _ hv hm => exact (h n).frame (by rw [hm]) (by rw [hview hv]; exact id)
  | @timeout _ t _ hv hm => exact (h n).frame (by rw [hm]) (by rw [hview hv]; exact herase t)
  | env hv hm => exact (h n).frame (by rw [hm]) (by rw [hview hv]; exact id)

end effects

/-! ## The balance -/

/-- How often the thread holds the mutex. -/
def held (s : MutexState τ μ) (m : μ) (t : τ) : Nat := if (s.mutex m).owner = some t then (s.mutex m).hold.toNat else 0

section balance

variable {flag : μ → IpcFlag} {s s' : MutexState τ μ} {t u : τ} {m n : μ} {time : Int} {r : Option Int} {code : Int}
  {a : MutexAction τ μ}

theorem takes_iff (hr : s.threads.caller = some t) (hs : rtMutexTake flag s t m time = some (s', r)) :
    Takes flag n u s (.take m time) ↔ m = n ∧ t = u ∧ r = some rtEok := by
  constructor
  · rintro ⟨rfl, hu, hcode⟩
    obtain rfl := Option.some.inj (hr.symm.trans hu)
    rw [hs] at hcode
    exact ⟨rfl, rfl, hcode⟩
  · rintro ⟨rfl, rfl, hcode⟩
    exact ⟨rfl, hr, by rw [hs]; exact hcode⟩

theorem releases_iff (hr : s.threads.caller = some t) (hs : rtMutexRelease s t m = some (s', code)) :
    Releases n u s (.release m) ↔ m = n ∧ t = u ∧ code = rtEok := by
  constructor
  · rintro ⟨rfl, hu, hcode⟩
    obtain rfl := Option.some.inj (hr.symm.trans hu)
    rw [hs] at hcode
    exact ⟨rfl, rfl, Option.some.inj hcode⟩
  · rintro ⟨rfl, rfl, hcode⟩
    exact ⟨rfl, hr, by rw [hs, hcode]; rfl⟩

omit [DecidableEq τ] [DecidableEq μ] in
theorem grants_iff (hr : s.threads.caller = some t) :
    Grants n u s (.release m) ↔
      m = n ∧ (s.mutex n).hold = 1 ∧ (s.mutex n).owner = some t ∧ (s.waiting n).head? = some u := by
  show (m = n ∧ (s.mutex n).hold = 1 ∧ s.threads.caller ≠ none ∧ s.threads.caller = (s.mutex n).owner ∧ _) ↔ _
  rw [hr]
  simp only [ne_eq, reduceCtorEq, not_false_eq_true, true_and, eq_comm]

omit [DecidableEq μ] in
theorem held_self (howner : (s.mutex m).owner = some t) : held s m u = if u = t then (s.mutex m).hold.toNat else 0 := by
  unfold held
  rw [howner]
  simp only [Option.some.injEq, eq_comm]

omit [DecidableEq μ] in
theorem held_same (hm : s'.mutex m = s.mutex m) : held s' m u = held s m u := by
  unfold held
  rw [hm]

omit [DecidableEq μ] in
theorem held_free (hm : s.mutex m = rtMutexInit) : held s m u = 0 := by
  unfold held
  rw [hm]
  rfl

omit [DecidableEq τ] [DecidableEq μ] in
theorem MutexOk.hold_ne_zero (h : MutexOk s m) (howner : (s.mutex m).owner = some t) : (s.mutex m).hold ≠ 0 := by
  rcases h with ⟨hfree, -⟩ | ⟨-, hzero, -⟩
  · rw [hfree] at howner
    cases howner
  · exact hzero

theorem held_take (he : TakeEffect s t m time s' r) :
    held s' n u = held s n u + if m = n ∧ t = u ∧ r = some rtEok then 1 else 0 := by
  by_cases hmn : m = n
  case neg =>
    rw [if_neg fun hc => hmn hc.1, Nat.add_zero]
    refine held_same ?_
    cases he with
    | again _ _ _ hm => rw [hm, Function.update_of_ne (Ne.symm hmn)]
    | free _ _ _ hm => rw [hm, Function.update_of_ne (Ne.symm hmn)]
    | full _ _ hm => rw [hm]
    | refused _ _ hm => rw [hm]
    | waits _ _ _ _ _ _ _ hm => rw [hm]
  subst hmn
  have hcode (e : Int) (he : e ≠ rtEok) : ¬ (m = m ∧ t = u ∧ some e = some rtEok) := fun hc =>
    he (Option.some.inj hc.2.2)
  cases he with
  | again howner hhold _ hm =>
    have hself : s'.mutex m = { s.mutex m with hold := (s.mutex m).hold + 1 } := by
      rw [hm, Function.update_self]
    have hsucc : ((s.mutex m).hold + 1).toNat = (s.mutex m).hold.toNat + 1 := by
      simp only [rtMutexHoldMax] at hhold
      bv_omega
    rw [held_self howner, held_self (s := s') (by rw [hself]; exact howner), hself]
    dsimp only
    rw [hsucc]
    by_cases hut : u = t
    · simp [hut]
    · simp [hut, Ne.symm hut]
  | free hfree _ _ hm =>
    have hself : s'.mutex m =
        { value := 0, originalPriority := some (s.priority t), hold := 1, owner := some t } := by
      rw [hm, Function.update_self]
    rw [held_free hfree, held_self (s := s') (t := t) (by rw [hself]), hself]
    by_cases hut : u = t
    · simp [hut]
    · simp [hut, Ne.symm hut]
  | full _ _ hm => rw [if_neg (hcode rtEfull (by decide)), held_same (congrFun hm m), Nat.add_zero]
  | refused _ _ hm => rw [if_neg (hcode rtEtimeout (by decide)), held_same (congrFun hm m), Nat.add_zero]
  | waits _ _ _ _ _ _ _ hm => rw [if_neg (by simp), held_same (congrFun hm m), Nat.add_zero]

theorem held_release (hok : MutexOk s m) (he : ReleaseEffect s t m s' code) :
    held s' n u + (if m = n ∧ t = u ∧ code = rtEok then 1 else 0) =
      held s n u + if m = n ∧ (s.mutex n).hold = 1 ∧ (s.mutex n).owner = some t ∧ (s.waiting n).head? = some u
        then 1 else 0 := by
  by_cases hmn : m = n
  case neg =>
    rw [if_neg fun hc => hmn hc.1, if_neg fun hc => hmn hc.1, held_same]
    cases he with
    | refused _ _ hm => rw [hm]
    | inner _ _ _ hm => rw [hm, Function.update_of_ne (Ne.symm hmn)]
    | free _ _ _ _ _ _ hm => rw [hm, Function.update_of_ne (Ne.symm hmn)]
    | hands _ _ _ _ _ _ _ _ _ hm => rw [hm, Function.update_of_ne (Ne.symm hmn)]
  subst hmn
  cases he with
  | refused howner _ hm =>
    rw [if_neg fun hc => absurd hc.2.2 (by decide), if_neg fun hc => howner hc.2.2.1, held_same (congrFun hm m)]
  | inner howner hhold _ hm =>
    have hself : s'.mutex m = { s.mutex m with hold := (s.mutex m).hold - 1 } := by
      rw [hm, Function.update_self]
    have hpred : ((s.mutex m).hold - 1).toNat + 1 = (s.mutex m).hold.toNat := by
      have := hok.hold_ne_zero howner
      bv_omega
    rw [if_neg (c := m = m ∧ (s.mutex m).hold = 1 ∧ _) fun hc => hhold hc.2.1, held_self howner,
      held_self (s := s') (by rw [hself]; exact howner), hself]
    dsimp only
    by_cases hut : u = t
    · rw [if_pos hut, if_pos hut, if_pos ⟨rfl, hut.symm, rfl⟩, hpred, Nat.add_zero]
    · simp [hut, Ne.symm hut]
  | free prio howner hhold _ hempty _ hm =>
    rw [held_free (s := s') (by rw [hm, Function.update_self]), held_self howner, hhold]
    by_cases hut : u = t
    · simp [hut, hempty]
    · simp [hut, Ne.symm hut, hempty]
  | hands prio v rest howner hhold _ hwait hvt _ hm =>
    have hself : s'.mutex m =
        { value := 0, originalPriority := some (s.priority v), hold := 1, owner := some v } := by
      rw [hm, Function.update_self]
    rw [held_self howner, held_self (s := s') (t := v) (by rw [hself]), hself, hhold]
    by_cases hut : u = t
    · subst hut
      simp [hwait, hvt, Ne.symm hvt, howner]
    · simp [hwait, howner, hut, Ne.symm hut, eq_comm]

/-- Each step changes how often a thread holds a mutex by its takes, hand-overs and releases. -/
theorem Effect.held (hok : ∀ m, MutexOk s m) (he : Effect flag s a s') :
    held s' n u + (if Releases n u s a then 1 else 0) =
      held s n u + (if Takes flag n u s a then 1 else 0) + if Grants n u s a then 1 else 0 := by
  cases he with
  | @take _ m time t r hr htake heff =>
    simp only [takes_iff hr htake]
    rw [held_take heff, if_neg (show ¬ Releases n u s (.take m time) from id),
      if_neg (show ¬ Grants n u s (.take m time) from id)]
  | @release _ m t code hr hrel heff =>
    simp only [releases_iff hr hrel, grants_iff hr]
    rw [held_release (hok m) heff, if_neg (show ¬ Takes flag n u s (.release m) from id), Nat.add_zero]
  | ret _ _ hm => simp only [held_same (congrFun hm n), Takes, Releases, Grants, ↓reduceIte]
  | timeout _ _ hm => simp only [held_same (congrFun hm n), Takes, Releases, Grants, ↓reduceIte]
  | env _ hm => simp only [held_same (congrFun hm n), Takes, Releases, Grants, ↓reduceIte]

/-! ### Hand-overs -/

omit [DecidableEq τ] [DecidableEq μ] in
theorem granted_iff {v : IpcView τ μ μ} (hv : s'.threads.view = v) :
    Granted n s' u ↔ v.call u = some n ∧ u ∉ v.waiting n ∧ v.error u = rtEok := by
  subst hv
  rfl

theorem granted_take (hr : s.threads.caller = some t) (he : TakeEffect s t m time s' r) :
    Granted n s' u ↔ Granted n s u := by
  by_cases hut : u = t
  · -- the thread is outside of its calls before, and waits or is outside of them afterwards
    subst hut
    have hcall := IpcThreads.caller_call hr
    refine iff_of_false ?_ fun hg => absurd (hcall.symm.trans hg.1) (by simp)
    cases he with
    | again _ _ hv => simp [granted_iff hv, hcall]
    | full _ hv => simp [granted_iff hv, hcall]
    | free _ _ hv => simp [granted_iff hv, hcall]
    | refused _ hv => simp [granted_iff hv, hcall]
    | waits o i _ _ _ hle hv =>
      rw [granted_iff hv]
      simp only [IpcView.suspend_call, Function.update_self, Option.some.injEq]
      rintro ⟨rfl, hnot, -⟩
      refine hnot ?_
      rw [IpcView.mem_suspend]
      · exact .inl ⟨rfl, rfl⟩
      · exact hle
  · cases he with
    | again _ _ hv => simp [granted_iff hv, granted_iff (Eq.refl s.threads.view), hut]
    | full _ hv => simp [granted_iff hv, granted_iff (Eq.refl s.threads.view), hut]
    | free _ _ hv => simp [granted_iff hv, granted_iff (Eq.refl s.threads.view), hut]
    | refused _ hv => simp [granted_iff hv, granted_iff (Eq.refl s.threads.view), hut]
    | waits o i _ _ _ hle hv =>
      rw [granted_iff hv, granted_iff (Eq.refl s.threads.view), IpcView.mem_suspend]
      · simp [hut]
      · exact hle

theorem granted_release (hi : MutexInv s) (hr : s.threads.caller = some t) (he : ReleaseEffect s t m s' code) :
    (if Granted n s' u then 1 else 0) = (if Granted n s u then 1 else 0) +
      if m = n ∧ (s.mutex n).hold = 1 ∧ (s.mutex n).owner = some t ∧ (s.waiting n).head? = some u then 1 else 0 := by
  -- a release that hands nothing over to the thread
  have hsame (hiff : Granted n s' u ↔ Granted n s u) (hnone : m = n → (s.mutex m).hold = 1 →
      (s.mutex m).owner = some t → (s.waiting m).head? ≠ some u) :
      (if Granted n s' u then 1 else 0) = (if Granted n s u then 1 else 0) +
      if m = n ∧ (s.mutex n).hold = 1 ∧ (s.mutex n).owner = some t ∧ (s.waiting n).head? = some u then 1 else 0 := by
    rw [if_neg (c := m = n ∧ _) (by rintro ⟨rfl, h₁, h₂, h₃⟩; exact hnone rfl h₁ h₂ h₃), Nat.add_zero]
    exact if_congr hiff rfl rfl
  cases he with
  | refused howner hv =>
    refine hsame ?_ fun _ _ ho => absurd ho howner
    by_cases hut : u = t
    · subst hut
      simp [granted_iff hv, granted_iff (Eq.refl s.threads.view), IpcThreads.caller_call hr]
    · simp [granted_iff hv, granted_iff (Eq.refl s.threads.view), hut]
  | inner _ hhold hv => exact hsame (granted_iff hv) fun _ hh => absurd hh hhold
  | free _ _ _ _ hempty hv => exact hsame ((granted_iff hv).trans Iff.rfl) fun _ _ _ => by simp [hempty]
  | hands prio v rest howner hhold _ hwait hvt hv =>
    have hmem : v ∈ s.waiting m := by
      rw [hwait]
      exact List.mem_cons_self
    by_cases huv : u = v
    · subst huv
      obtain ⟨c, hc, hcm⟩ := hi.threads.waiting_call hmem
      obtain rfl : c = m := hcm
      have hnew : Granted n s' u ↔ c = n := by
        rw [granted_iff hv]
        simp only [IpcView.resume_call, IpcView.setPriority_call, IpcView.resume_waiting, IpcView.setPriority_waiting,
          IpcView.resume_error, IpcView.setPriority_error, hc, Option.some.injEq, hi.threads.waiting_error hmem]
        exact and_iff_left ⟨(hi.threads.waiting_nodup n).not_mem_erase, trivial⟩
      have hold : ¬ Granted n s u := fun hg => hg.2.1 (Option.some.inj (hc.symm.trans hg.1) ▸ hmem)
      rw [if_neg hold, Nat.zero_add]
      refine if_congr (hnew.trans ⟨?_, fun h => h.1⟩) rfl rfl
      rintro rfl
      exact ⟨rfl, hhold, howner, by rw [hwait]; rfl⟩
    · refine hsame ?_ fun _ _ _ hc => huv ?_
      · simp [granted_iff hv, granted_iff (Eq.refl s.threads.view), List.mem_erase_of_ne huv]
      · rw [hwait] at hc
        exact (Option.some.inj hc).symm

/-- Each hand-over is a return of `RT_EOK` that is still to come, or has come. -/
theorem Effect.granted (hi : MutexInv s) (he : Effect flag s a s') :
    (if Granted n s' u then 1 else 0) + (if Returns n u rtEok s a then 1 else 0) =
      (if Granted n s u then 1 else 0) + if Grants n u s a then 1 else 0 := by
  cases he with
  | take hr _ heff =>
    simp only [Returns, Grants, ↓reduceIte, Nat.add_zero]
    exact if_congr (granted_take hr heff) rfl rfl
  | release hr _ heff =>
    simp only [Returns, ↓reduceIte, Nat.add_zero, grants_iff hr]
    exact granted_release hi hr heff
  | @ret _ t m hr hv =>
    simp only [Grants, ↓reduceIte, Nat.add_zero]
    have hreturns : Returns n u rtEok s .ret ↔ (t = u ∧ m = n) ∧ s.threads.view.error u = rtEok := by
      show _ ∧ _ ↔ _
      rw [hr, Option.some.injEq, Prod.mk.injEq]
    by_cases hut : u = t
    · subst hut
      have hold : Granted n s u ↔ m = n ∧ s.threads.view.error u = rtEok :=
        ⟨fun hg => ⟨Option.some.inj ((IpcThreads.returning_call hr).symm.trans hg.1), hg.2.2⟩,
          fun hc => ⟨hc.1 ▸ IpcThreads.returning_call hr, hi.threads.not_waiting (.inr ⟨m, hr⟩) n, hc.2⟩⟩
      rw [if_neg (by simp [granted_iff hv]), Nat.zero_add]
      exact if_congr (by rw [hreturns, hold]; simp) rfl rfl
    · rw [if_neg (c := Returns n u rtEok s .ret) fun hc => hut (hreturns.mp hc).1.1.symm, Nat.add_zero]
      exact if_congr (by simp [granted_iff hv, granted_iff (Eq.refl s.threads.view), hut]) rfl rfl
  | @timeout _ t hwaits hv =>
    simp only [Returns, Grants, ↓reduceIte, Nat.add_zero]
    refine if_congr ?_ rfl rfl
    by_cases hut : u = t
    · subst hut
      refine iff_of_false ?_ fun hg => hg.2.1 (hwaits n hg.1)
      simp [granted_iff hv, rtEtimeout, rtEok]
    · simp [granted_iff hv, granted_iff (Eq.refl s.threads.view), List.mem_erase_of_ne hut, hut]
  | env hv =>
    simp only [Returns, Grants, ↓reduceIte, Nat.add_zero]
    exact if_congr (granted_iff hv) rfl rfl

end balance

/-! ## All runs -/

section runs

variable {flag : μ → IpcFlag} {h : History (MutexState τ μ) (MutexAction τ μ)} {s : MutexState τ μ} {t : τ} {m : μ}

theorem mutexInv (hrun : (mutexes τ flag).Run h s) : MutexInv s := by
  refine hrun.always (I := fun _ s => MutexInv s) ?_ fun _ s a s' _ hi hs => ?_
  · rintro s ⟨hthreads, hmutex⟩
    exact ⟨hthreads.ok, fun m => .inl ⟨hmutex m, hthreads.waiting m⟩⟩
  · obtain ⟨hok, heff⟩ := step_effect hi hs
    exact ⟨hok, heff.mutexOk hi.mutex⟩

theorem takes_balance (hrun : (mutexes τ flag).Run h s) (m : μ) (t : τ) :
    count (Takes flag m t) h + count (Grants m t) h = count (Releases m t) h + held s m t := by
  refine hrun.always (I := fun h s => count (Takes flag m t) h + count (Grants m t) h =
    count (Releases m t) h + held s m t) ?_ fun h s a s' hr hbal hs => ?_
  · rintro s ⟨-, hmutex⟩
    rw [count_nil, count_nil, count_nil, held_free (hmutex m)]
  · have hi := mutexInv hr
    have hheld := (step_effect hi hs).2.held (n := m) (u := t) hi.mutex
    rw [count_cons, count_cons, count_cons]
    omega

theorem grants_balance (hrun : (mutexes τ flag).Run h s) (m : μ) (t : τ) :
    count (Grants m t) h = count (Returns m t rtEok) h + if Granted m s t then 1 else 0 := by
  refine hrun.always (I := fun h s => count (Grants m t) h = count (Returns m t rtEok) h +
    if Granted m s t then 1 else 0) ?_ fun h s a s' hr hbal hs => ?_
  · rintro s ⟨hthreads, -⟩
    rw [count_nil, count_nil, if_neg]
    rintro ⟨hc, -⟩
    change (s.threads.pc t).call = some m at hc
    rw [hthreads.pc] at hc
    cases hc
  · have hi := mutexInv hr
    have hgranted := (step_effect hi hs).2.granted (n := m) (u := t) hi
    rw [count_cons, count_cons]
    omega

theorem release_defined (hi : MutexInv s) (t : τ) (m : μ) : ∃ s' code, rtMutexRelease s t m = some (s', code) := by
  have hs : (rtMutexRelease s t m).isSome := by
    unfold rtMutexRelease
    dsimp only
    by_cases howner : (s.mutex m).owner = some t
    case neg =>
      rw [if_pos howner]
      rfl
    rw [if_neg (not_not.mpr howner)]
    by_cases hhold : (s.mutex m).hold - 1 = 0
    · rw [if_pos hhold]
      split
      · next horig =>
        rcases hi.mutex m with ⟨hfree, -⟩ | ⟨-, -, -, hsaved⟩
        · rw [hfree] at howner
          cases howner
        · exact absurd horig hsaved
      · split
        · split <;> rfl
        · split <;> rfl
    · rw [if_neg hhold]
      rfl
  obtain ⟨⟨s', code⟩, hs⟩ := Option.isSome_iff_exists.mp hs
  exact ⟨s', code, hs⟩

theorem take_defined (hi : MutexInv s) (hr : s.threads.caller = some t) (m : μ) (time : Int) :
    ∃ s' r, rtMutexTake flag s t m time = some (s', r) := by
  have hset := hi.threads.setError (.inl hr) rtEok
  unfold rtMutexTake
  dsimp only
  split_ifs with howner hhold hvalue hhold htime
  · exact ⟨_, _, rfl⟩
  · exact ⟨_, _, rfl⟩
  · exact ⟨_, _, rfl⟩
  · exact ⟨_, _, rfl⟩
  · exact ⟨_, _, rfl⟩
  · split
    · next hnone =>
      rcases hi.mutex m with ⟨hfree, -⟩ | ⟨-, -, hsome, -⟩
      · rw [hfree] at hvalue
        exact absurd (show (0 : BitVec 16) < 1 by decide) hvalue
      · exact absurd hnone hsome
    · next o _ =>
      -- the owner may get another priority first
      have hsuspend (w : IpcThreads τ μ μ) (hok : w.Ok id) (hw : w.Runs t) :
          ∃ s' r, (w.suspendOn t m (flag m) (decide (0 < time)) m).map (fun w =>
            ((⟨w, s.mutex⟩ : MutexState τ μ), (none : Option Int))) = some (s', r) := by
        obtain ⟨w', hw'⟩ := IpcThreads.suspendOn_defined hok hw m (flag m) (decide (0 < time)) m
        exact ⟨_, _, Option.map_eq_some_iff.mpr ⟨w', hw', rfl⟩⟩
      split_ifs
      · exact hsuspend _ (hset.changePriority o _) ((IpcThreads.changePriority_runs _ _ _).mpr (.inl hr))
      · exact hsuspend _ hset (.inl hr)

omit [DecidableEq μ] in
/-- The first waiting thread, to which a mutex is handed over, waits no more. -/
theorem handed_over {s' : MutexState τ μ} {prio : Priority} {u : τ} {rest : List τ} (hi : MutexInv s)
    (hok : s'.threads.Ok id) (hwait : s.waiting m = u :: rest)
    (hv : s'.threads.view = (s.threads.view.setPriority t prio).resume u) :
    s'.waiting m = rest ∧ (s'.threads.kernel.tcb u).stat ≠ .suspend := by
  have hrest : s'.waiting m = rest := by
    show s'.threads.view.waiting m = rest
    rw [hv]
    show (s.waiting m).erase u = rest
    rw [hwait, List.erase_cons_head]
  have hnot : u ∉ rest := by
    have hnodup := hi.threads.waiting_nodup m
    rw [show s.threads.view.waiting m = u :: rest from hwait] at hnodup
    exact (List.nodup_cons.mp hnodup).1
  have hmem : u ∈ s.waiting m := hwait ▸ List.mem_cons_self
  obtain ⟨c, hc, hcm⟩ := hi.threads.waiting_call hmem
  obtain rfl : c = m := hcm
  have hcall : s'.threads.view.call u = some c := by
    rw [hv]
    exact hc
  refine ⟨hrest, fun hstat => hnot ?_⟩
  rw [← hrest]
  exact (hok.thread u).suspended c hcall hstat

/-- In every state, of every mutex: its value is 0 or 1, and 1 exactly if it has no owner, exactly if it is not held;
no thread waits for it without an owner; and a thread holds it as often as it took it (itself, or by a hand-over,
for which it returns `RT_EOK` when it runs) and did not release it. The next call releases it only for the owner,
hands it over to the first waiting thread only, and leaves it alone if it returns `-RT_EFULL`. -/
theorem mutual_exclusion (hrun : (mutexes τ flag).Run h s) (m : μ) :
    ((s.mutex m).value = 0 ∨ (s.mutex m).value = 1) ∧
    ((s.mutex m).value = 1 ↔ (s.mutex m).owner = none) ∧ ((s.mutex m).owner = none ↔ (s.mutex m).hold = 0) ∧
    (s.waiting m ≠ [] → (s.mutex m).owner ≠ none) ∧
    (∀ t, count (Takes flag m t) h + count (Grants m t) h = count (Releases m t) h +
        (if (s.mutex m).owner = some t then (s.mutex m).hold.toNat else 0) ∧
      count (Grants m t) h = count (Returns m t rtEok) h + if Granted m s t then 1 else 0) ∧
    (∀ t, s.threads.caller = some t → ∃ s' code, rtMutexRelease s t m = some (s', code) ∧
      ((s.mutex m).owner ≠ some t → code = rtError ∧ s'.mutex = s.mutex ∧ s'.waiting = s.waiting) ∧
      (∀ u rest, (s.mutex m).owner = some t → (s.mutex m).hold = 1 → s.waiting m = u :: rest →
        code = rtEok ∧ (s'.mutex m).owner = some u ∧ (s'.mutex m).hold = 1 ∧ s'.waiting m = rest ∧
          (s'.threads.kernel.tcb u).stat ≠ .suspend) ∧
      (code = rtEfull → s'.mutex = s.mutex)) ∧
    ∀ t time, s.threads.caller = some t → ∃ s' r, rtMutexTake flag s t m time = some (s', r) ∧
      (r = some rtEfull → s'.mutex = s.mutex) := by
  have hi := mutexInv hrun
  refine ⟨?_, ?_, ?_, ?_, fun t => ⟨takes_balance hrun m t, grants_balance hrun m t⟩, fun t hr => ?_,
    fun t time hr => ?_⟩
  · rcases hi.mutex m with ⟨hfree, -⟩ | ⟨hvalue, -⟩
    · exact .inr (by rw [hfree]; rfl)
    · exact .inl hvalue
  · rcases hi.mutex m with ⟨hfree, -⟩ | ⟨hvalue, -, hsome, -⟩
    · exact iff_of_true (by rw [hfree]; rfl) (by rw [hfree]; rfl)
    · exact iff_of_false (by rw [hvalue]; decide) hsome
  · rcases hi.mutex m with ⟨hfree, -⟩ | ⟨-, hhold, hsome, -⟩
    · exact iff_of_true (by rw [hfree]; rfl) (by rw [hfree]; rfl)
    · exact iff_of_false hsome hhold
  · intro hne
    rcases hi.mutex m with ⟨-, hempty⟩ | ⟨-, -, hsome, -⟩
    · exact absurd hempty hne
    · exact hsome
  · obtain ⟨s', code, hs⟩ := release_defined hi t m
    obtain ⟨hok, heff⟩ := release_effect hi hr hs
    refine ⟨s', code, hs, fun hne => ?_, fun u rest howner hhold hwait => ?_, fun hfull => ?_⟩
    · cases heff with
      | refused _ hv hm =>
        refine ⟨rfl, hm, funext fun n => ?_⟩
        show s'.threads.view.waiting n = _
        rw [hv]
        rfl
      | inner howner => exact absurd howner hne
      | free _ howner => exact absurd howner hne
      | hands _ _ _ howner => exact absurd howner hne
    · cases heff with
      | refused hne => exact absurd howner hne
      | inner _ hne => exact absurd hhold hne
      | free _ _ _ _ hempty => exact absurd (hwait.symm.trans hempty) (by simp)
      | hands _ v rest' _ _ _ hwait' hvt hv hm =>
        obtain ⟨rfl, rfl⟩ := List.cons.inj (hwait.symm.trans hwait')
        obtain ⟨hrest, hready⟩ := handed_over hi hok hwait hv
        exact ⟨rfl, by rw [hm, Function.update_self], by rw [hm, Function.update_self], hrest, hready⟩
    · cases heff with
      | refused _ _ hm => exact hm
      | inner => exact absurd hfull (by decide)
      | free => exact absurd hfull (by decide)
      | hands => exact absurd hfull (by decide)
  · obtain ⟨s', r, hs⟩ : ∃ s' r, rtMutexTake flag s t m time = some (s', r) := take_defined hi hr m time
    obtain ⟨-, heff⟩ := take_effect hi hr hs
    refine ⟨s', r, hs, fun hfull => ?_⟩
    cases heff with
    | again => exact absurd hfull (by decide)
    | full _ _ hm => exact hm
    | free => exact absurd hfull (by decide)
    | refused _ _ hm => exact hm
    | waits => exact absurd hfull (by decide)

/-- Two threads, of which the one of the higher priority runs, and two mutexes. -/
def mutexStart : MutexState Bool Bool where
  threads :=
    { kernel :=
        { tcb := twoRunning.tcb
          table := twoRunning.table
          group := twoRunning.group
          current := some true
          currentPriority := twoRunning.currentPriority
          lockNest := 0
          waiting := fun _ => []
          defunct := [] }
      timer := fun _ => false
      pc := fun _ => .idle }
  mutex _ := rtMutexInit

theorem mutexInit_start : MutexInit mutexStart where
  threads :=
    { sched := by decide +kernel
      lock := rfl
      waiting := fun _ => rfl
      pc := fun _ => rfl
      running := by decide +kernel }
  mutex _ := rfl

/-- The thread takes a mutex twice, the other one waits for it, and it is handed over. -/
theorem mutual_exclusion_run :
    ∃ h s, (mutexes Bool fun _ => .prio).Run h s ∧ (s.mutex true).owner = some false ∧ (s.mutex true).hold ≠ 0 ∧
      count (Grants true false) h = count (Returns true false rtEok) h + 1 := by
  obtain ⟨h, s, hrun, howner, hgranted⟩ := System.exists_run (S := mutexes Bool fun _ => .prio) mutexInit_start
    [.take true 0, .take true 0, .env .sleep, .env .next, .take true 7, .env (.timeout true), .release true,
      .release true]
    (fun _ s => (s.mutex true).owner = some false ∧ Granted true s false) (by decide +kernel)
  obtain ⟨-, -, hhold, -, hbal, -, -⟩ := mutual_exclusion hrun true
  have hgrants := (hbal false).2
  rw [if_pos hgranted] at hgrants
  exact ⟨h, s, hrun, howner, fun hz => absurd (howner.symm.trans (hhold.mpr hz)) (by simp), hgrants⟩

end runs

end ThyristorController.Mutexes
