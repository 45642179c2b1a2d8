import ThyristorController.Kernel.Mutex

/-!
# The priorities of the owners of mutexes (`src/ipc.c`)

A thread that waits for a mutex lends its priority to the owner, once, when it blocks. Each mutex saves the priority
that its owner has when it becomes the owner, which may be a lent one, and gives that priority back when it is
released, whatever other mutexes the thread owns.

`restored_iff` says in which runs a thread without a mutex always has its initial priority, and `inherited_iff` in
which runs the owner of a mutex always has at least the priority of each thread that waits for it. The former is so when
no thread takes a mutex while it owns another one (`releasesInitial_of_takesOne`).
-/

namespace ThyristorController.Mutexes

open Transition SemThreads

variable {τ μ : Type} [DecidableEq τ] [DecidableEq μ]

/-- `thread->init_priority`. -/
abbrev MutexState.initPriority (s : MutexState τ μ) (t : τ) : Priority := s.threads.view.initPriority t

/-- A thread that owns no mutex has its initial priority. -/
def Restored (s : MutexState τ μ) : Prop := ∀ t, (∀ m, (s.mutex m).owner ≠ some t) → s.priority t = s.initPriority t

/-- The owner of a mutex has at least the priority of each thread that waits for it. -/
def Inherited (s : MutexState τ μ) : Prop :=
  ∀ m o u, (s.mutex m).owner = some o → u ∈ s.waiting m → s.priority o ≤ s.priority u

/-- The mutexes, at the time when no thread has been given another priority than its initial one. -/
def unboosted (τ : Type) {μ : Type} [DecidableEq τ] [DecidableEq μ] (flag : μ → IpcFlag) :
    System (MutexState τ μ) (MutexAction τ μ) where
  init s := MutexInit s ∧ Restored s
  step := mutexStep flag

/-! ## The conditions -/

/-- The last mutex that a thread releases has saved the thread's initial priority. -/
def ReleasesInitial (s : MutexState τ μ) : MutexAction τ μ → Prop
  | .release m => ∀ t, s.threads.caller = some t → (s.mutex m).owner = some t → (s.mutex m).hold = 1 →
      (∀ n, n ≠ m → (s.mutex n).owner ≠ some t) → (s.mutex m).originalPriority = some (s.initPriority t)
  | _ => True

/-- A thread blocks on a mutex only if the owner of that one waits for no mutex whose owner has a lower priority than
the thread. A mutex is released only if it has saved at least the priority of each thread that waits for another
mutex of its owner, and if no thread that waits for it has a higher priority than the first one. -/
def KeepsInherited (s : MutexState τ μ) : MutexAction τ μ → Prop
  | .take m time => ∀ t o, s.threads.caller = some t → (s.mutex m).owner = some o → o ≠ t → time ≠ 0 →
      ∀ n p, (s.mutex n).owner = some p → o ∈ s.waiting n → s.priority p ≤ s.priority t
  | .release m => ∀ t, s.threads.caller = some t → (s.mutex m).owner = some t → (s.mutex m).hold = 1 →
      (∀ prio, (s.mutex m).originalPriority = some prio →
        ∀ n u, n ≠ m → (s.mutex n).owner = some t → u ∈ s.waiting n → prio ≤ s.priority u) ∧
      ∀ u, (s.waiting m).head? = some u → ∀ v ∈ s.waiting m, s.priority u ≤ s.priority v
  | _ => True

instance [Fintype τ] [Fintype μ] (s : MutexState τ μ) : (a : MutexAction τ μ) → Decidable (ReleasesInitial s a)
  | .release m => inferInstanceAs (Decidable (∀ t, s.threads.caller = some t → (s.mutex m).owner = some t →
      (s.mutex m).hold = 1 → (∀ n, n ≠ m → (s.mutex n).owner ≠ some t) →
      (s.mutex m).originalPriority = some (s.initPriority t)))
  | .take _ _ | .ret | .env _ => isTrue trivial

set_option synthInstance.maxSize 256 in
instance [Fintype τ] [Fintype μ] (s : MutexState τ μ) : (a : MutexAction τ μ) → Decidable (KeepsInherited s a)
  | .take m time => inferInstanceAs (Decidable (∀ t o, s.threads.caller = some t → (s.mutex m).owner = some o →
      o ≠ t → time ≠ 0 → ∀ n p, (s.mutex n).owner = some p → o ∈ s.waiting n → s.priority p ≤ s.priority t))
  | .release m => inferInstanceAs (Decidable (∀ t, s.threads.caller = some t → (s.mutex m).owner = some t →
      (s.mutex m).hold = 1 → (∀ prio, (s.mutex m).originalPriority = some prio →
        ∀ n u, n ≠ m → (s.mutex n).owner = some t → u ∈ s.waiting n → prio ≤ s.priority u) ∧
      ∀ u, (s.waiting m).head? = some u → ∀ v ∈ s.waiting m, s.priority u ≤ s.priority v))
  | .ret | .env _ => isTrue trivial

section steps

variable {flag : μ → IpcFlag} {s s' : MutexState τ μ} {t : τ} {m : μ} {time : Int} {r : Option Int} {code : Int}
  {a : MutexAction τ μ}

/-! ## The initial priority comes back -/

omit [DecidableEq τ] [DecidableEq μ] in
theorem Restored.keep (h : Restored s) (howner : ∀ n u, (s.mutex n).owner = some u → ∃ n, (s'.mutex n).owner = some u)
    (hprio : ∀ u, (∀ n, (s'.mutex n).owner ≠ some u) → s'.priority u = s.priority u)
    (hinit : s'.threads.view.initPriority = s.threads.view.initPriority) : Restored s' := by
  intro u hnone
  rw [hprio u hnone, MutexState.initPriority, hinit]
  refine h u fun n hn => ?_
  obtain ⟨n', hn'⟩ := howner n u hn
  exact hnone n' hn'

theorem restored_take (h : Restored s) (he : TakeEffect s t m time s' r) : Restored s' := by
  cases he with
  | again howner _ hv hm =>
    refine h.keep (fun n u hn => ⟨n, ?_⟩) (fun u _ => by simp [MutexState.priority, hv]) (by rw [hv]; rfl)
    by_cases hnm : n = m
    · subst hnm
      rw [hm, Function.update_self]
      exact hn
    · rw [hm, Function.update_of_ne hnm]
      exact hn
  | full _ hv hm =>
    exact h.keep (fun n u hn => ⟨n, by rw [hm]; exact hn⟩) (fun u _ => by simp [MutexState.priority, hv])
      (by rw [hv]; rfl)
  | free hfree _ hv hm =>
    refine h.keep (fun n u hn => ⟨n, ?_⟩) (fun u _ => by simp [MutexState.priority, hv]) (by rw [hv]; rfl)
    by_cases hnm : n = m
    · subst hnm
      rw [hfree] at hn
      cases hn
    · rw [hm, Function.update_of_ne hnm]
      exact hn
  | refused _ hv hm =>
    exact h.keep (fun n u hn => ⟨n, by rw [hm]; exact hn⟩) (fun u _ => by simp [MutexState.priority, hv])
      (by rw [hv]; rfl)
  | waits o i _ howner _ _ hv hm =>
    refine h.keep (fun n u hn => ⟨n, by rw [hm]; exact hn⟩) (fun u hnone => ?_) (by rw [hv]; rfl)
    -- the priority of the owner changes
    have huo : u ≠ o := fun he => hnone m (by rw [hm, he]; exact howner)
    simp [MutexState.priority, hv, huo]

theorem restored_release (h : Restored s) (hr : s.threads.caller = some t) (he : ReleaseEffect s t m s' code) :
    Restored s' ↔ ReleasesInitial s (.release m) := by
  -- the last release: the thread gets `prio`, and the mutex another owner, or none
  have hlast (prio : Priority) (o : Option τ) (hot : o ≠ some t) (howner : (s.mutex m).owner = some t)
      (hhold : (s.mutex m).hold = 1) (horig : (s.mutex m).originalPriority = some prio)
      (hprio : ∀ u, s'.priority u = if u = t then prio else s.priority u)
      (hinit : s'.threads.view.initPriority = s.threads.view.initPriority)
      (hm : ∀ n, (s'.mutex n).owner = if n = m then o else (s.mutex n).owner) :
      Restored s' ↔ ReleasesInitial s (.release m) := by
    constructor
    · intro h' u hu howner' _ hothers
      obtain rfl := Option.some.inj (hr.symm.trans hu)
      have := h' t fun n => by
        rw [hm]
        split_ifs with hnm
        · exact hot
        · exact hothers n hnm
      rw [hprio, if_pos rfl, MutexState.initPriority, hinit] at this
      rw [horig, this]
    · intro hcond u hnone
      rw [hprio, MutexState.initPriority, hinit]
      split_ifs with hut
      · subst hut
        refine Option.some.inj (horig.symm.trans (hcond u hr howner hhold fun n hnm hn => ?_))
        exact hnone n (by rw [hm, if_neg hnm]; exact hn)
      · refine h u fun n hn => ?_
        by_cases hnm : n = m
        · subst hnm
          exact hut (Option.some.inj (hn.symm.trans howner))
        · exact hnone n (by rw [hm, if_neg hnm]; exact hn)
  cases he with
  | refused hne hv hm =>
    refine iff_of_true ?_ ?_
    · exact h.keep (fun n u hn => ⟨n, by rw [hm]; exact hn⟩) (fun u _ => by simp [MutexState.priority, hv])
        (by rw [hv]; rfl)
    · intro u hu howner
      exact absurd (howner.trans (hu.symm.trans hr)) hne
  | inner howner hne hv hm =>
    refine iff_of_true ?_ fun _ _ _ hhold => absurd hhold hne
    refine h.keep (fun n u hn => ⟨n, ?_⟩) (fun u _ => by simp [MutexState.priority, hv]) (by rw [hv])
    by_cases hnm : n = m
    · subst hnm
      rw [hm, Function.update_self]
      exact hn
    · rw [hm, Function.update_of_ne hnm]
      exact hn
  | free prio howner hhold horig _ hv hm =>
    refine hlast prio none (by simp) howner hhold horig (fun u => ?_) (by rw [hv]; rfl) fun n => ?_
    · simp [MutexState.priority, hv, Function.update_apply]
    · rw [hm, Function.update_apply]
      split_ifs <;> rfl
  | hands prio v rest howner hhold horig _ hvt hv hm =>
    refine hlast prio (some v) (by simpa using hvt) howner hhold horig (fun u => ?_) (by rw [hv]; rfl) fun n => ?_
    · simp [MutexState.priority, hv, Function.update_apply]
    · rw [hm, Function.update_apply]
      split_ifs <;> rfl

theorem restored_step (hi : MutexInv s) (h : Restored s) (hs : mutexStep flag s a = some s') :
    Restored s' ↔ ReleasesInitial s a := by
  obtain ⟨-, heff⟩ := step_effect hi hs
  cases heff with
  | take _ _ heff => exact iff_of_true (restored_take h heff) trivial
  | release hr _ heff => exact restored_release h hr heff
  | ret _ hv hm =>
    exact iff_of_true (h.keep (fun n u hn => ⟨n, by rw [hm]; exact hn⟩) (fun u _ => by simp [MutexState.priority, hv])
      (by rw [hv]; rfl)) trivial
  | timeout _ hv hm =>
    exact iff_of_true (h.keep (fun n u hn => ⟨n, by rw [hm]; exact hn⟩) (fun u _ => by simp [MutexState.priority, hv])
      (by rw [hv]; rfl)) trivial
  | env hv hm =>
    exact iff_of_true (h.keep (fun n u hn => ⟨n, by rw [hm]; exact hn⟩) (fun u _ => by simp [MutexState.priority, hv])
      (by rw [hv])) trivial

/-! ### A condition on the threads -/

/-- A thread takes no mutex while it owns another one. -/
def TakesOne (s : MutexState τ μ) : MutexAction τ μ → Prop
  | .take m _ => ∀ t n, s.threads.caller = some t → n ≠ m → (s.mutex n).owner ≠ some t
  | _ => True

/-- Each mutex has saved the initial priority of its owner, and a thread that waits owns no mutex. -/
structure Single (s : MutexState τ μ) : Prop where
  saved : ∀ n u, (s.mutex n).owner = some u → (s.mutex n).originalPriority = some (s.initPriority u)
  waits : ∀ n u p, u ∈ s.waiting n → (s.mutex p).owner ≠ some u

omit [DecidableEq τ] [DecidableEq μ] in
theorem Single.frame (h : Single s) (hm : s'.mutex = s.mutex) (hwaiting : ∀ n u, u ∈ s'.waiting n → u ∈ s.waiting n)
    (hinit : s'.threads.view.initPriority = s.threads.view.initPriority) : Single s' := by
  refine ⟨fun n u hn => ?_, fun n u p hw hp => ?_⟩
  · rw [hm] at hn ⊢
    rw [MutexState.initPriority, hinit]
    exact h.saved n u hn
  · rw [hm] at hp
    exact h.waits n u p (hwaiting n u hw) hp

omit [DecidableEq τ] in
theorem Single.update {x : RtMutex τ} (h : Single s) (hm : s'.mutex = Function.update s.mutex m x)
    (hsaved : ∀ u, x.owner = some u → x.originalPriority = some (s.initPriority u))
    (hnew : ∀ u, x.owner = some u → ∀ n, u ∉ s'.waiting n) (hwaiting : ∀ n u, u ∈ s'.waiting n → u ∈ s.waiting n)
    (hinit : s'.threads.view.initPriority = s.threads.view.initPriority) : Single s' := by
  refine ⟨fun n u hn => ?_, fun n u p hw hp => ?_⟩
  · rw [MutexState.initPriority, hinit]
    by_cases hnm : n = m
    · subst hnm
      rw [hm, Function.update_self] at hn ⊢
      exact hsaved u hn
    · rw [hm, Function.update_of_ne hnm] at hn ⊢
      exact h.saved n u hn
  · by_cases hpm : p = m
    · subst hpm
      rw [hm, Function.update_self] at hp
      exact hnew u hp n hw
    · rw [hm, Function.update_of_ne hpm] at hp
      exact h.waits n u p (hwaiting n u hw) hp

theorem single_take (hi : MutexInv s) (hrest : Restored s) (h : Single s) (hr : s.threads.caller = some t)
    (hone : ∀ n, n ≠ m → (s.mutex n).owner ≠ some t) (he : TakeEffect s t m time s' r) : Single s' := by
  cases he with
  | again _ _ hv hm =>
    have hwaiting : ∀ n u, u ∈ s'.waiting n → u ∈ s.waiting n := fun n u => by simp [MutexState.waiting, hv]
    exact h.update hm (h.saved m) (fun u hu n hw => h.waits n u m (hwaiting n u hw) hu) hwaiting (by rw [hv]; rfl)
  | full _ hv hm => exact h.frame hm (fun n u => by simp [MutexState.waiting, hv]) (by rw [hv]; rfl)
  | refused _ hv hm => exact h.frame hm (fun n u => by simp [MutexState.waiting, hv]) (by rw [hv]; rfl)
  | free hfree _ hv hm =>
    have hwaiting : ∀ n u, u ∈ s'.waiting n → u ∈ s.waiting n := fun n u => by simp [MutexState.waiting, hv]
    refine h.update hm (fun u hu => ?_) (fun u hu n hw => ?_) hwaiting (by rw [hv]; rfl)
    · obtain rfl := Option.some.inj hu
      -- the thread owned no mutex before
      refine congrArg some (hrest t fun n hn => ?_)
      by_cases hnm : n = m
      · subst hnm
        rw [hfree] at hn
        cases hn
      · exact hone n hnm hn
    · obtain rfl := Option.some.inj hu
      exact hi.threads.not_waiting (.inl hr) n (hwaiting n t hw)
  | waits o i _ howner hot hle hv hm =>
    refine ⟨fun n u hn => ?_, fun n u p hw hp => ?_⟩
    · rw [hm] at hn ⊢
      rw [MutexState.initPriority, hv]
      exact h.saved n u hn
    · rw [hm] at hp
      rcases (mem_waits hle hv).mp hw with ⟨rfl, rfl⟩ | hw
      · by_cases hpn : p = n
        · subst hpn
          exact hot (Option.some.inj (howner.symm.trans hp))
        · exact hone p hpn hp
      · exact h.waits n u p hw hp

theorem single_release (hi : MutexInv s) (hrest : Restored s) (h : Single s) (he : ReleaseEffect s t m s' code) :
    Single s' := by
  cases he with
  | refused _ hv hm => exact h.frame hm (fun n u => by simp [MutexState.waiting, hv]) (by rw [hv]; rfl)
  | inner _ _ hv hm =>
    have hwaiting : ∀ n u, u ∈ s'.waiting n → u ∈ s.waiting n := fun n u => by simp [MutexState.waiting, hv]
    exact h.update hm (h.saved m) (fun u hu n hw => h.waits n u m (hwaiting n u hw) hu) hwaiting (by rw [hv])
  | free prio _ _ _ _ hv hm =>
    exact h.update hm (fun u hu => by cases hu) (fun u hu => by cases hu)
      (fun n u => by simp [MutexState.waiting, hv]) (by rw [hv]; rfl)
  | hands prio v rest _ _ _ hwait _ hv hm =>
    have hfirst : v ∈ s.waiting m := by rw [hwait]; exact List.mem_cons_self
    have hstill : ∀ n u, u ∈ s'.waiting n → u ∈ (s.waiting n).erase v := by
      intro n u hw
      simpa only [MutexState.waiting, hv, IpcView.resume_waiting, IpcView.setPriority_waiting] using hw
    refine h.update hm (fun u hu => ?_) (fun u hu n hw => ?_) (fun n u hw => List.mem_of_mem_erase (hstill n u hw))
      (by rw [hv]; rfl)
    · obtain rfl := Option.some.inj hu
      exact congrArg some (hrest v fun n => h.waits m v n hfirst)
    · obtain rfl := Option.some.inj hu
      exact (hi.threads.waiting_nodup n).not_mem_erase (hstill n v hw)

theorem single_step (hi : MutexInv s) (hrest : Restored s) (h : Single s) (hone : TakesOne s a)
    (hs : mutexStep flag s a = some s') : Single s' := by
  obtain ⟨-, heff⟩ := step_effect hi hs
  cases heff with
  | @take _ m _ t _ hr _ heff => exact single_take hi hrest h hr (fun n hnm => hone t n hr hnm) heff
  | release _ _ heff => exact single_release hi hrest h heff
  | ret _ hv hm => exact h.frame hm (fun n u => by simp [MutexState.waiting, hv]) (by rw [hv]; rfl)
  | timeout _ hv hm =>
    refine h.frame hm (fun n u hw => ?_) (by rw [hv]; rfl)
    simp only [MutexState.waiting, hv, IpcView.expire_waiting] at hw
    exact List.mem_of_mem_erase hw
  | env hv hm => exact h.frame hm (fun n u => by simp [MutexState.waiting, hv]) (by rw [hv])

omit [DecidableEq τ] [DecidableEq μ] in
theorem Single.releases (h : Single s) : ReleasesInitial s a := by
  cases a with
  | release m => exact fun t _ howner _ _ => h.saved m t howner
  | _ => trivial

/-! ## The owner has the highest priority -/

/-- No thread waits for a mutex that it owns. -/
def OwnerRuns (s : MutexState τ μ) : Prop := ∀ m o, (s.mutex m).owner = some o → o ∉ s.waiting m

omit [DecidableEq τ] [DecidableEq μ] in
theorem OwnerRuns.keep (h : OwnerRuns s) (howner : ∀ n, (s'.mutex n).owner = (s.mutex n).owner)
    (hwaiting : ∀ n u, u ∈ s'.waiting n → u ∈ s.waiting n) : OwnerRuns s' := fun n o hn hm =>
  h n o (howner n ▸ hn) (hwaiting n o hm)

omit [DecidableEq τ] in
theorem OwnerRuns.unwaited {m : μ} {x : RtMutex τ} (h : OwnerRuns s) (hm : s'.mutex = Function.update s.mutex m x)
    (hempty : s.waiting m = []) (hwaiting : ∀ n, s'.waiting n = s.waiting n) : OwnerRuns s' := by
  intro n o hn hw
  rw [hwaiting] at hw
  by_cases hnm : n = m
  · subst hnm
    rw [hempty] at hw
    cases hw
  · rw [hm, Function.update_of_ne hnm] at hn
    exact h n o hn hw

theorem ownerRuns_step (hi : MutexInv s) (h : OwnerRuns s) (hs : mutexStep flag s a = some s') : OwnerRuns s' := by
  obtain ⟨-, heff⟩ := step_effect hi hs
  have hupdate {m : μ} {x : RtMutex τ} (hm : s'.mutex = Function.update s.mutex m x)
      (hx : x.owner = (s.mutex m).owner) (n : μ) : (s'.mutex n).owner = (s.mutex n).owner := by
    rw [hm, Function.update_apply]
    split_ifs with hnm
    · rw [hx, hnm]
    · rfl
  cases heff with
  | @take _ m _ t _ hr _ heff =>
    cases heff with
    | again howner _ hv hm => exact h.keep (hupdate hm rfl) fun n u => by simp [MutexState.waiting, hv]
    | full _ hv hm => exact h.keep (fun n => by rw [hm]) fun n u => by simp [MutexState.waiting, hv]
    | refused _ hv hm => exact h.keep (fun n => by rw [hm]) fun n u => by simp [MutexState.waiting, hv]
    | free _ hempty hv hm => exact h.unwaited hm hempty fun n => by simp [MutexState.waiting, hv]
    | waits o i _ howner hot hle hv hm =>
      intro n p hn hw
      rw [hm] at hn
      rcases (mem_waits hle hv).mp hw with ⟨rfl, rfl⟩ | hw
      · exact hot (Option.some.inj (howner.symm.trans hn))
      · exact h n p hn hw
  | @release _ m t _ hr _ heff =>
    cases heff with
    | refused _ hv hm => exact h.keep (fun n => by rw [hm]) fun n u => by simp [MutexState.waiting, hv]
    | inner _ _ hv hm => exact h.keep (hupdate hm rfl) fun n u => by simp [MutexState.waiting, hv]
    | free _ _ _ _ hempty hv hm => exact h.unwaited hm hempty fun n => by simp [MutexState.waiting, hv]
    | hands _ v rest _ _ _ _ _ hv hm =>
      intro n o hn hw
      simp only [MutexState.waiting, hv, IpcView.resume_waiting, IpcView.setPriority_waiting] at hw
      by_cases hnm : n = m
      · subst hnm
        rw [hm, Function.update_self] at hn
        obtain rfl := Option.some.inj hn
        exact (hi.threads.waiting_nodup n).not_mem_erase hw
      · rw [hm, Function.update_of_ne hnm] at hn
        exact h n o hn (List.mem_of_mem_erase hw)
  | ret _ hv hm => exact h.keep (fun n => by rw [hm]) fun n u => by simp [MutexState.waiting, hv]
  | timeout _ hv hm =>
    refine h.keep (fun n => by rw [hm]) fun n u hw => ?_
    simp only [MutexState.waiting, hv, IpcView.expire_waiting] at hw
    exact List.mem_of_mem_erase hw
  | env hv hm => exact h.keep (fun n => by rw [hm]) fun n u => by simp [MutexState.waiting, hv]

omit [DecidableEq τ] [DecidableEq μ] in
theorem Inherited.keep (h : Inherited s) (howner : ∀ n, (s'.mutex n).owner = (s.mutex n).owner)
    (hwaiting : ∀ n u, u ∈ s'.waiting n → u ∈ s.waiting n)
    (hprio : s'.threads.view.priority = s.threads.view.priority) : Inherited s' := by
  intro n o u hn hw
  rw [MutexState.priority, MutexState.priority, hprio]
  exact h n o u (howner n ▸ hn) (hwaiting n u hw)

theorem inherited_take (hruns : OwnerRuns s) (h : Inherited s) (hr : s.threads.caller = some t)
    (he : TakeEffect s t m time s' r) : Inherited s' ↔ KeepsInherited s (.take m time) := by
  -- a call that does not block
  have htrue (h' : Inherited s') (hnone : ∀ o, (s.mutex m).owner = some o → o ≠ t → time ≠ 0 → False) :
      Inherited s' ↔ KeepsInherited s (.take m time) := by
    refine iff_of_true h' fun u o hu howner hne htime => ?_
    obtain rfl := Option.some.inj (hr.symm.trans hu)
    exact (hnone o howner hne htime).elim
  cases he with
  | again howner _ hv hm =>
    refine htrue (h.keep (fun n => ?_) (fun n u => by simp [MutexState.waiting, hv]) (by rw [hv]; rfl))
      fun o ho hne _ => hne (Option.some.inj (ho.symm.trans howner))
    rw [hm, Function.update_apply]
    split_ifs with hnm
    · rw [hnm]
    · rfl
  | full howner hv hm =>
    exact htrue (h.keep (fun n => by rw [hm]) (fun n u => by simp [MutexState.waiting, hv]) (by rw [hv]; rfl))
      fun o ho hne _ => hne (Option.some.inj (ho.symm.trans howner))
  | free hfree hempty hv hm =>
    refine htrue (fun n o u hn hw => ?_) fun o ho => by rw [hfree] at ho; cases ho
    simp only [MutexState.waiting, hv, IpcView.setError_waiting] at hw
    simp only [MutexState.priority, hv, IpcView.setError_priority]
    by_cases hnm : n = m
    · subst hnm
      rw [show s.threads.view.waiting n = [] from hempty] at hw
      cases hw
    · rw [hm, Function.update_of_ne hnm] at hn
      exact h n o u hn hw
  | refused htime hv hm =>
    exact htrue (h.keep (fun n => by rw [hm]) (fun n u => by simp [MutexState.waiting, hv]) (by rw [hv]; rfl))
      fun _ _ _ hne => hne htime
  | waits o i htime howner hot hle hv hm =>
    have hmin : s'.priority o = min (s.priority o) (s.priority t) := by simp [MutexState.priority, hv]
    have hother {u : τ} (huo : u ≠ o) : s'.priority u = s.priority u := by simp [MutexState.priority, hv, huo]
    have hle' (u : τ) : s'.priority u ≤ s.priority u := by
      by_cases huo : u = o
      · subst huo
        rw [hmin]
        exact min_le_left _ _
      · exact (hother huo).le
    constructor
    · intro h' u o' hu howner' _ _ n p hn hw
      obtain rfl := Option.some.inj (hr.symm.trans hu)
      obtain rfl := Option.some.inj (howner.symm.trans howner')
      have hpo : p ≠ o := fun he => hruns n o (he ▸ hn) hw
      have := h' n p o (by rw [hm]; exact hn) ((mem_waits hle hv).mpr (.inr hw))
      rw [hother hpo, hmin] at this
      exact this.trans (min_le_right _ _)
    · intro hcond n p u hn hw
      rw [hm] at hn
      rcases (mem_waits hle hv).mp hw with ⟨rfl, rfl⟩ | hw
      · -- the thread that blocks
        obtain rfl := Option.some.inj (howner.symm.trans hn)
        rw [hmin, hother (Ne.symm hot)]
        exact min_le_right _ _
      · by_cases huo : u = o
        · -- the owner waits itself
          subst huo
          have hpo : p ≠ u := fun he => hruns n u (he ▸ hn) hw
          rw [hmin, hother hpo]
          exact le_min (h n p u hn hw) (hcond t u hr howner hot htime n p hn hw)
        · rw [hother huo]
          exact (hle' p).trans (h n p u hn hw)

omit [DecidableEq μ] in
/-- The thread that releases a mutex gets another priority: the mutexes beside it are all right exactly if their waiting
threads have no higher one, where they are the thread's own. -/
theorem inherited_beside {prio : Priority} (h : Inherited s) (hnot : ∀ n u, u ∈ s.waiting n → u ≠ t)
    (hprio : ∀ u, s'.priority u = if u = t then prio else s.priority u)
    (howner : ∀ n, n ≠ m → (s'.mutex n).owner = (s.mutex n).owner)
    (hwaiting : ∀ n, n ≠ m → s'.waiting n = s.waiting n) :
    (∀ n p u, n ≠ m → (s'.mutex n).owner = some p → u ∈ s'.waiting n → s'.priority p ≤ s'.priority u) ↔
      ∀ n u, n ≠ m → (s.mutex n).owner = some t → u ∈ s.waiting n → prio ≤ s.priority u := by
  constructor
  · intro h' n u hnm hn hu
    have hle := h' n t u hnm (by rwa [howner n hnm]) (by rwa [hwaiting n hnm])
    rwa [hprio, hprio, if_pos rfl, if_neg (hnot n u hu)] at hle
  · intro hcond n p u hnm hn hu
    rw [howner n hnm] at hn
    rw [hwaiting n hnm] at hu
    rw [hprio, hprio, if_neg (hnot n u hu)]
    split_ifs with hpt
    · exact hcond n u hnm (hpt ▸ hn) hu
    · exact h n p u hn hu

theorem inherited_release (hi : MutexInv s) (h : Inherited s) (hr : s.threads.caller = some t)
    (he : ReleaseEffect s t m s' code) : Inherited s' ↔ KeepsInherited s (.release m) := by
  -- the thread runs, so it waits for nothing
  have hnot (n : μ) {u : τ} (hu : u ∈ s.waiting n) : u ≠ t := fun he =>
    hi.threads.not_waiting (.inl hr) n (he ▸ hu)
  cases he with
  | refused hne hv hm =>
    refine iff_of_true (h.keep (fun n => by rw [hm]) (fun n u => by simp [MutexState.waiting, hv]) (by rw [hv]; rfl)) ?_
    intro u hu howner
    exact absurd (howner.trans (hu.symm.trans hr)) hne
  | inner howner hne hv hm =>
    refine iff_of_true (h.keep (fun n => ?_) (fun n u => by simp [MutexState.waiting, hv]) (by rw [hv]))
      fun _ _ _ hhold => absurd hhold hne
    rw [hm, Function.update_apply]
    split_ifs with hnm
    · rw [hnm]
    · rfl
  | free prio howner hhold horig hempty hv hm =>
    have hprio (u : τ) : s'.priority u = if u = t then prio else s.priority u := by
      simp [MutexState.priority, hv, Function.update_apply]
    have hwaiting (n : μ) : s'.waiting n = s.waiting n := by simp [MutexState.waiting, hv]
    have hbeside := inherited_beside h (fun n u => hnot n) hprio
      (fun n hnm => by rw [hm, Function.update_of_ne hnm]) fun n _ => hwaiting n
    constructor
    · intro h' u hu _ _
      obtain rfl := Option.some.inj (hr.symm.trans hu)
      refine ⟨fun p hp => ?_, fun v hw => by simp [hempty] at hw⟩
      obtain rfl := Option.some.inj (horig.symm.trans hp)
      exact hbeside.mp fun n p u _ => h' n p u
    · intro hcond n p u hn hw
      by_cases hnm : n = m
      · rw [hwaiting, hnm, hempty] at hw
        cases hw
      · exact hbeside.mpr ((hcond t hr howner hhold).1 prio horig) n p u hnm hn hw
  | hands prio v rest howner hhold horig hwait hvt hv hm =>
    have hprio (u : τ) : s'.priority u = if u = t then prio else s.priority u := by
      simp [MutexState.priority, hv, Function.update_apply]
    have hmem : v ∈ s.waiting m := by
      rw [hwait]
      exact List.mem_cons_self
    have hfirst : s'.waiting m = rest := by
      simp only [MutexState.waiting, hv, IpcView.resume_waiting, IpcView.setPriority_waiting]
      rw [show s.threads.view.waiting m = v :: rest from hwait, List.erase_cons_head]
    have hwaiting (n : μ) (hnm : n ≠ m) : s'.waiting n = s.waiting n := by
      simp only [MutexState.waiting, hv, IpcView.resume_waiting, IpcView.setPriority_waiting]
      refine List.erase_of_not_mem fun hn => hnm ?_
      obtain ⟨c, hc, hcn⟩ := hi.threads.waiting_call hn
      obtain ⟨d, hd, hdm⟩ := hi.threads.waiting_call (show v ∈ s.threads.view.waiting m from hmem)
      obtain rfl := Option.some.inj (hc.symm.trans hd)
      exact hcn.symm.trans hdm
    have hnew : (s'.mutex m).owner = some v := by rw [hm, Function.update_self]
    have hbeside := inherited_beside h (fun n u => hnot n) hprio
      (fun n hnm => by rw [hm, Function.update_of_ne hnm]) hwaiting
    have hrest {u : τ} (hu : u ∈ rest) : u ≠ t := hnot m (by rw [hwait]; exact List.mem_cons_of_mem _ hu)
    constructor
    · intro h' u hu _ _
      obtain rfl := Option.some.inj (hr.symm.trans hu)
      refine ⟨fun p hp => ?_, fun w hw x hx => ?_⟩
      · obtain rfl := Option.some.inj (horig.symm.trans hp)
        exact hbeside.mp fun n p u _ => h' n p u
      · rw [hwait] at hw hx
        obtain rfl := Option.some.inj hw
        rcases List.mem_cons.mp hx with rfl | hx
        · exact le_rfl
        · have := h' m v x hnew (by rw [hfirst]; exact hx)
          rwa [hprio, hprio, if_neg hvt, if_neg (hrest hx)] at this
    · intro hcond n p u hn hw
      obtain ⟨hsaved, hhead⟩ := hcond t hr howner hhold
      by_cases hnm : n = m
      · subst hnm
        obtain rfl := Option.some.inj (hnew.symm.trans hn)
        rw [hfirst] at hw
        rw [hprio, hprio, if_neg hvt, if_neg (hrest hw)]
        exact hhead v (by rw [hwait]; rfl) u (by rw [hwait]; exact List.mem_cons_of_mem _ hw)
      · exact hbeside.mpr (hsaved prio horig) n p u hnm hn hw

theorem inherited_step (hi : MutexInv s) (hruns : OwnerRuns s) (h : Inherited s)
    (hs : mutexStep flag s a = some s') : Inherited s' ↔ KeepsInherited s a := by
  obtain ⟨-, heff⟩ := step_effect hi hs
  cases heff with
  | take hr _ heff => exact inherited_take hruns h hr heff
  | release hr _ heff => exact inherited_release hi h hr heff
  | ret _ hv hm =>
    exact iff_of_true (h.keep (fun n => by rw [hm]) (fun n u => by simp [MutexState.waiting, hv])
      (by rw [hv]; rfl)) trivial
  | timeout _ hv hm =>
    refine iff_of_true (h.keep (fun n => by rw [hm]) (fun n u hw => ?_) (by rw [hv]; rfl)) trivial
    simp only [MutexState.waiting, hv, IpcView.expire_waiting] at hw
    exact List.mem_of_mem_erase hw
  | env hv hm =>
    exact iff_of_true (h.keep (fun n => by rw [hm]) (fun n u => by simp [MutexState.waiting, hv])
      (by rw [hv])) trivial

end steps

/-! ## All runs -/

section runs

variable {flag : μ → IpcFlag} {h : History (MutexState τ μ) (MutexAction τ μ)} {s : MutexState τ μ}

theorem unboosted_run (hrun : (unboosted τ flag).Run h s) : (mutexes τ flag).Run h s := by
  refine System.Run.mono (S := unboosted τ flag) ?_ rfl hrun
  rintro s ⟨hs, -⟩
  exact hs

/-- In every state of a run each thread without a mutex has its initial priority, exactly if each mutex that was
released last by its thread had saved the thread's initial priority. -/
theorem restored_iff (hrun : (unboosted τ flag).Run h s) :
    (Throughout (fun _ s _ => Restored s) h ∧ Restored s) ↔ Throughout (fun _ s a => ReleasesInitial s a) h := by
  refine hrun.throughout_iff ?_ fun h s a s' hr hp hs => ?_
  · rintro s ⟨-, hs⟩
    exact hs
  · exact restored_step (mutexInv (unboosted_run hr)) hp hs

theorem releasesInitial_of_takesOne (hrun : (unboosted τ flag).Run h s)
    (hone : Throughout (fun _ s a => TakesOne s a) h) :
    Throughout (fun _ s a => ReleasesInitial s a) h ∧ Restored s := by
  have hsingle : ∀ h s, (unboosted τ flag).Run h s → Throughout (fun _ s a => TakesOne s a) h →
      Restored s ∧ Single s := by
    intro h s hr hall
    refine hr.invariant (I := fun _ s => Restored s ∧ Single s) ?_ ?_ hall
    · rintro s ⟨⟨hthreads, hmutex⟩, hs⟩
      refine ⟨hs, fun n u hn => ?_, fun n u p _ hp => ?_⟩
      · rw [hmutex] at hn
        cases hn
      · rw [hmutex] at hp
        cases hp
    · rintro h s a s' hr ⟨hrest, h⟩ hone hs
      have hi := mutexInv (unboosted_run hr)
      exact ⟨(restored_step hi hrest hs).mpr h.releases, single_step hi hrest h hone hs⟩
  exact ⟨hrun.throughout hsingle (fun _ _ _ _ _ h _ _ => h.2.releases) hone, (hsingle h s hrun hone).1⟩

theorem ownerRuns (hrun : (mutexes τ flag).Run h s) : OwnerRuns s := by
  refine hrun.always (I := fun _ s => OwnerRuns s) ?_ fun _ _ _ _ hr hi hs => ownerRuns_step (mutexInv hr) hi hs
  rintro s ⟨-, hmutex⟩ m o ho
  rw [hmutex] at ho
  cases ho

/-- In every state of a run the owner of each mutex has at least the priority of the threads that wait for it,
exactly if each blocking take and each release keeps that. -/
theorem inherited_iff (hrun : (mutexes τ flag).Run h s) :
    (Throughout (fun _ s _ => Inherited s) h ∧ Inherited s) ↔ Throughout (fun _ s a => KeepsInherited s a) h := by
  refine hrun.throughout_iff ?_ fun _ _ _ _ hr hp hs => inherited_step (mutexInv hr) (ownerRuns hr) hp hs
  rintro s ⟨-, hmutex⟩ m o u ho
  rw [hmutex] at ho
  cases ho

theorem unboosted_start : (unboosted Bool fun _ : Bool => .prio).init mutexStart :=
  ⟨mutexInit_start, fun _ _ => rfl⟩

/-- A thread owns a mutex, gets a higher priority from the other one, which waits for it, and gives it back. -/
theorem restored_iff_run :
    ∃ h s, (unboosted Bool fun _ : Bool => .prio).Run h s ∧ (s.mutex true).owner = some true ∧ Restored s := by
  obtain ⟨h, s, hrun, howner, hcond⟩ := System.exists_run (S := unboosted Bool fun _ : Bool => .prio) unboosted_start
    [.env .sleep, .env .next, .take true 0, .env (.timeout true), .take true 7, .env .next, .release true]
    (fun h s => (s.mutex true).owner = some true ∧ Throughout (fun _ s a => ReleasesInitial s a) h)
    (by decide +kernel)
  exact ⟨h, s, hrun, howner, ((restored_iff hrun).mpr hcond).2⟩

/-- A thread gets a higher priority because of its first mutex, takes a second one, and releases them in this
order: it is left with the higher priority. -/
theorem priority_kept_without_a_mutex :
    ∃ h s, (unboosted Bool fun _ : Bool => .prio).Run h s ∧ (∀ m, (s.mutex m).owner ≠ some false) ∧
      s.initPriority false = priority 20 ∧ s.priority false = priority 10 :=
  System.exists_run (S := unboosted Bool fun _ : Bool => .prio) unboosted_start
    [.env .sleep, .env .next, .take true 0, .env (.timeout true), .take true (-1), .env .next, .take false 0,
      .release true, .env .schedule, .ret, .release true, .env .sleep, .env .next, .release false]
    (fun _ s => (∀ m, (s.mutex m).owner ≠ some false) ∧ s.initPriority false = priority 20 ∧
      s.priority false = priority 10) (by decide +kernel)

/-- A thread blocks on a mutex, and the owner, with its priority from then on, hands it over. -/
theorem inherited_iff_run :
    ∃ h s, (mutexes Bool fun _ : Bool => .prio).Run h s ∧ (s.mutex true).owner = some true ∧ Inherited s := by
  obtain ⟨h, s, hrun, howner, hcond⟩ := System.exists_run (S := mutexes Bool fun _ : Bool => .prio) mutexInit_start
    [.env .sleep, .env .next, .take true 0, .env (.timeout true), .take true 7, .env .next, .release true]
    (fun h s => (s.mutex true).owner = some true ∧ Throughout (fun _ s a => KeepsInherited s a) h)
    (by decide +kernel)
  exact ⟨h, s, hrun, howner, ((inherited_iff hrun).mpr hcond).2⟩

/-- A thread owns two mutexes and gets a higher priority because of the first one; the release of the second one
takes it away while the other thread still waits for the first. -/
theorem owner_below_a_waiting_thread :
    ∃ h s, (mutexes Bool fun _ : Bool => .prio).Run h s ∧ (s.mutex true).owner = some false ∧ true ∈ s.waiting true ∧
      s.priority true < s.priority false :=
  System.exists_run (S := mutexes Bool fun _ : Bool => .prio) mutexInit_start
    [.env .sleep, .env .next, .take true 0, .take false 0, .env (.timeout true), .take true (-1), .env .next,
      .release false]
    (fun _ s => (s.mutex true).owner = some false ∧ true ∈ s.waiting true ∧ s.priority true < s.priority false)
    (by decide +kernel)

end runs

end ThyristorController.Mutexes
