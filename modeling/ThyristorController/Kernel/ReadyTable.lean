import ThyristorController.Kernel.Scheduler
import Mathlib.Data.List.Nodup
import Mathlib.Data.Fintype.Basic

/-!
# The invariant of the ready table (`src/scheduler.c`, `src/thread.c`)

`SchedInv` ties the bitmap, the 32 lists, and the state, priority and mask of every thread together. An
operation takes a thread out of its list, changes its fields, and puts it into a list again; in between the
invariant holds for all other threads (`SchedInvExcept`), so each operation is put together from a few
lemmas about removing, changing and inserting.

`ready_table` says that all runs keep the invariant in which `rt_schedule_insert_thread` and
`rt_schedule_remove_thread` are used on their own as their callers use them, and what `rt_schedule` selects.
-/

namespace ThyristorController

open Transition

variable {τ ι : Type} [DecidableEq τ]

/-! ## The invariant -/

/-- The ready table agrees with the threads, except for the thread `skip`, which is in no list and about
whose fields nothing is said. -/
@[mk_iff]
structure SchedInvExcept (k : Kernel τ ι) (skip : Option τ) : Prop where
  bit : ∀ p, k.group.getLsbD p.val = true ↔ k.table p ≠ []
  mem : ∀ t p, t ∈ k.table p → some t ≠ skip ∧ (k.tcb t).stat = .ready ∧ (k.tcb t).currentPriority = p
  ready : ∀ t, some t ≠ skip → (k.tcb t).stat = .ready → t ∈ k.table (k.tcb t).currentPriority
  nodup : ∀ p, (k.table p).Nodup
  mask : ∀ t, some t ≠ skip → (k.tcb t).stat = .ready ∨ (k.tcb t).stat = .suspend →
    (k.tcb t).numberMask = prioMask (k.tcb t).currentPriority
  mask_or : ∀ t, some t ≠ skip →
    (k.tcb t).numberMask = 0 ∨ (k.tcb t).numberMask = prioMask (k.tcb t).currentPriority
  waiting : ∀ t q, t ∈ k.waiting q → some t ≠ skip ∧ (k.tcb t).stat = .suspend
  waiting_nodup : ∀ q, (k.waiting q).Nodup
  defunct : ∀ t, t ∈ k.defunct → some t ≠ skip ∧ (k.tcb t).stat = .close
  defunct_nodup : k.defunct.Nodup

/-- The invariant of the ready table. -/
abbrev SchedInv (k : Kernel τ ι) : Prop := SchedInvExcept k none

variable {k : Kernel τ ι} {t : τ}

omit [DecidableEq τ] in
theorem SchedInvExcept.not_mem (h : SchedInv k) (hstat : (k.tcb t).stat ≠ .ready) (p : Priority) :
    t ∉ k.table p := fun hm => hstat (h.mem t p hm).2.1

theorem mem_erase_except {l : List τ} (hnd : l.Nodup) {u : τ} (hu : u ∈ l.erase t) :
    some u ≠ some t ∧ u ∈ l := by
  obtain ⟨hne, hmem⟩ := hnd.mem_erase_iff.mp hu
  exact ⟨by simpa using hne, hmem⟩

/-- A thread's node is taken out of its list, and the bitmap is brought up to date. -/
theorem inv_unlink_group (h : SchedInv k) (group : BitVec 32)
    (hbit : ∀ p : Priority, group.getLsbD p.val = true ↔ (k.table p).erase t ≠ []) :
    SchedInvExcept { k.unlink t with group := group } (some t) where
  bit := hbit
  mem u p hu :=
    have ⟨hne, hm⟩ := mem_erase_except (h.nodup p) hu
    ⟨hne, (h.mem u p hm).2⟩
  ready u hne hu := (List.mem_erase_of_ne (by simpa using hne)).mpr (h.ready u (by simp) hu)
  nodup p := (h.nodup p).erase t
  mask u _ := h.mask u (by simp)
  mask_or u _ := h.mask_or u (by simp)
  waiting u q hu :=
    have ⟨hne, hm⟩ := mem_erase_except (h.waiting_nodup q) hu
    ⟨hne, (h.waiting u q hm).2⟩
  waiting_nodup q := (h.waiting_nodup q).erase t
  defunct u hu :=
    have ⟨hne, hm⟩ := mem_erase_except h.defunct_nodup hu
    ⟨hne, (h.defunct u hm).2⟩
  defunct_nodup := h.defunct_nodup.erase t

theorem inv_unlink (h : SchedInv k) (hstat : (k.tcb t).stat ≠ .ready) :
    SchedInvExcept (k.unlink t) (some t) := by
  refine inv_unlink_group h k.group fun p => ?_
  rw [List.erase_of_not_mem (h.not_mem hstat p)]
  exact h.bit p

/-- `rt_schedule_remove_thread` takes the thread out; it clears the bit exactly if the list is now empty. -/
theorem inv_remove (h : SchedInv k) (t : τ) : SchedInvExcept (rtScheduleRemoveThread k t) (some t) := by
  rw [rtScheduleRemoveThread_eq]
  refine inv_unlink_group h _ fun p => ?_
  by_cases hp : p = (k.tcb t).currentPriority
  · subst hp
    split_ifs with hempty
    · refine iff_of_false (fun hbit => ?_) (not_not.mpr hempty)
      rcases h.mask_or t (by simp) with hmask | hmask
      · -- a thread that was never started is in no list, so the bit was clear before
        have hstat : (k.tcb t).stat ≠ .ready := fun hr => by
          have hset := getLsbD_prioMask (k.tcb t).currentPriority (k.tcb t).currentPriority
          rw [← h.mask t (by simp) (.inl hr), hmask] at hset
          simp at hset
        rw [hmask, clear_nothing, h.bit,
          ← List.erase_of_not_mem (h.not_mem hstat _)] at hbit
        exact hbit hempty
      · rw [hmask, getLsbD_clear] at hbit
        exact hbit.1 rfl
    · exact iff_of_true ((h.bit _).mpr fun hnil => hempty (by rw [hnil]; rfl)) hempty
  · rw [List.erase_of_not_mem fun hm => hp (h.mem t p hm).2.2.symm, ← h.bit]
    split_ifs
    · rcases h.mask_or t (by simp) with hmask | hmask
      · rw [hmask, clear_nothing]
      · rw [hmask, getLsbD_clear]
        exact and_iff_right hp
    · exact Iff.rfl

theorem inv_insert (h : SchedInvExcept k (some t))
    (hmask : (k.tcb t).numberMask = prioMask (k.tcb t).currentPriority) :
    SchedInv (rtScheduleInsertThread k t) := by
  have hother {u : τ} (hu : u ≠ t) : (rtScheduleInsertThread k t).tcb u = k.tcb u := Function.update_of_ne hu _ _
  have hself := rtScheduleInsertThread_self k t
  have htable (p : Priority) : (rtScheduleInsertThread k t).table p =
      if p = (k.tcb t).currentPriority then k.table p ++ [t] else k.table p := by
    by_cases hp : p = (k.tcb t).currentPriority
    · subst hp
      rw [if_pos rfl]
      exact Function.update_self _ _ _
    · rw [if_neg hp]
      exact Function.update_of_ne hp _ _
  have hnot (p : Priority) : t ∉ k.table p := fun hm => (h.mem t p hm).1 rfl
  have hmem {u : τ} {p : Priority} : u ∈ (rtScheduleInsertThread k t).table p ↔
      u ∈ k.table p ∨ (u = t ∧ p = (k.tcb t).currentPriority) := by
    rw [htable]
    split_ifs with hp <;> simp [hp]
  exact
    { bit := fun p => by
        show (k.group ||| (k.tcb t).numberMask).getLsbD p.val = true ↔ _
        rw [hmask, getLsbD_set, htable, h.bit]
        split_ifs with hp <;> simp [hp]
      mem := fun u p hu => by
        refine ⟨by simp, ?_⟩
        rcases hmem.mp hu with hu | ⟨rfl, rfl⟩
        · have hne : u ≠ t := fun he => hnot p (he ▸ hu)
          rw [hother hne]
          exact (h.mem u p hu).2
        · rw [hself]
          exact ⟨rfl, rfl⟩
      ready := fun u _ hu => by
        by_cases hut : u = t
        · subst hut
          rw [hself]
          exact hmem.mpr (.inr ⟨rfl, rfl⟩)
        · rw [hother hut] at hu ⊢
          exact hmem.mpr (.inl (h.ready u (by simpa using hut) hu))
      nodup := fun p => by
        rw [htable]
        split_ifs
        · rw [← List.concat_eq_append]
          exact (h.nodup p).concat (hnot p)
        · exact h.nodup p
      mask := fun u _ hu => by
        by_cases hut : u = t
        · subst hut
          rw [hself]
          exact hmask
        · rw [hother hut] at hu ⊢
          exact h.mask u (by simpa using hut) hu
      mask_or := fun u _ => by
        by_cases hut : u = t
        · subst hut
          rw [hself]
          exact .inr hmask
        · rw [hother hut]
          exact h.mask_or u (by simpa using hut)
      waiting := fun u q hu => by
        obtain ⟨hne, hstat⟩ := h.waiting u q hu
        rw [hother (by simpa using hne)]
        exact ⟨by simp, hstat⟩
      waiting_nodup := h.waiting_nodup
      defunct := fun u hu => by
        obtain ⟨hne, hstat⟩ := h.defunct u hu
        rw [hother (by simpa using hne)]
        exact ⟨by simp, hstat⟩
      defunct_nodup := h.defunct_nodup }

theorem inv_setTcb (h : SchedInvExcept k (some t)) (tcb : Tcb) : SchedInvExcept (k.setTcb t tcb) (some t) := by
  have hother {u : τ} (hu : some u ≠ some t) : (k.setTcb t tcb).tcb u = k.tcb u :=
    Function.update_of_ne (by simpa using hu) _ _
  exact
    { bit := h.bit
      mem := fun u p hu => by
        rw [hother (h.mem u p hu).1]
        exact h.mem u p hu
      ready := fun u hne hu => by
        rw [hother hne] at hu ⊢
        exact h.ready u hne hu
      nodup := h.nodup
      mask := fun u hne hu => by
        rw [hother hne] at hu ⊢
        exact h.mask u hne hu
      mask_or := fun u hne => by
        rw [hother hne]
        exact h.mask_or u hne
      waiting := fun u q hu => by
        rw [hother (h.waiting u q hu).1]
        exact h.waiting u q hu
      waiting_nodup := h.waiting_nodup
      defunct := fun u hu => by
        rw [hother (h.defunct u hu).1]
        exact h.defunct u hu
      defunct_nodup := h.defunct_nodup }

omit [DecidableEq τ] in
theorem inv_restore (h : SchedInvExcept k (some t)) (hstat : (k.tcb t).stat ≠ .ready)
    (hmask : (k.tcb t).stat = .suspend → (k.tcb t).numberMask = prioMask (k.tcb t).currentPriority)
    (hor : (k.tcb t).numberMask = 0 ∨ (k.tcb t).numberMask = prioMask (k.tcb t).currentPriority) :
    SchedInv k where
  bit := h.bit
  mem u p hu := ⟨by simp, (h.mem u p hu).2⟩
  ready u _ hu := h.ready u (fun he => hstat (Option.some.inj he ▸ hu)) hu
  nodup := h.nodup
  mask u _ hu := by
    by_cases hut : u = t
    · subst hut
      exact hmask (hu.resolve_left hstat)
    · exact h.mask u (by simpa using hut) hu
  mask_or u _ := by
    by_cases hut : u = t
    · subst hut
      exact hor
    · exact h.mask_or u (by simpa using hut)
  waiting u q hu := ⟨by simp, (h.waiting u q hu).2⟩
  waiting_nodup := h.waiting_nodup
  defunct u hu := ⟨by simp, (h.defunct u hu).2⟩
  defunct_nodup := h.defunct_nodup

/-! ## The operations -/

section operations

variable {k' : Kernel τ ι}

omit [DecidableEq τ] in
theorem inv_frame (h : SchedInv k) (htcb : k'.tcb = k.tcb) (htable : k'.table = k.table)
    (hgroup : k'.group = k.group) (hwaiting : k'.waiting = k.waiting) (hdefunct : k'.defunct = k.defunct) :
    SchedInv k' := by
  obtain ⟨tcb, table, group, current, currentPriority, lockNest, waiting, defunct⟩ := k'
  subst htcb htable hgroup hwaiting hdefunct
  exact { h with }

theorem inv_setTcb_same (h : SchedInv k) {tcb : Tcb} (hstat : tcb.stat = (k.tcb t).stat)
    (hprio : tcb.currentPriority = (k.tcb t).currentPriority) (hmask : tcb.numberMask = (k.tcb t).numberMask) :
    SchedInv (k.setTcb t tcb) := by
  have hsame (u : τ) : ((k.setTcb t tcb).tcb u).stat = (k.tcb u).stat ∧
      ((k.setTcb t tcb).tcb u).currentPriority = (k.tcb u).currentPriority ∧
      ((k.setTcb t tcb).tcb u).numberMask = (k.tcb u).numberMask := by
    by_cases hut : u = t
    · subst hut
      rw [Kernel.setTcb_self]
      exact ⟨hstat, hprio, hmask⟩
    · rw [k.setTcb_other tcb hut]
      exact ⟨rfl, rfl, rfl⟩
  exact
    { bit := h.bit
      mem := fun u p hm => by
        rw [(hsame u).1, (hsame u).2.1]
        exact h.mem u p hm
      ready := fun u hne hu => by
        rw [(hsame u).1] at hu
        rw [(hsame u).2.1]
        exact h.ready u hne hu
      nodup := h.nodup
      mask := fun u hne hu => by
        rw [(hsame u).1] at hu
        rw [(hsame u).2.1, (hsame u).2.2]
        exact h.mask u hne hu
      mask_or := fun u hne => by
        rw [(hsame u).2.1, (hsame u).2.2]
        exact h.mask_or u hne
      waiting := fun u q hm => by
        rw [(hsame u).1]
        exact h.waiting u q hm
      waiting_nodup := h.waiting_nodup
      defunct := fun u hm => by
        rw [(hsame u).1]
        exact h.defunct u hm
      defunct_nodup := h.defunct_nodup }

theorem inv_schedule (h : SchedInv k) (hs : rtSchedule k = some k') : SchedInv k' := by
  obtain ⟨htcb, htable, hgroup, hwaiting, hdefunct, -⟩ := rtSchedule_frame hs
  exact inv_frame h htcb htable hgroup hwaiting hdefunct

theorem inv_resume (h : SchedInv k) (t : τ) : SchedInv (rtThreadResume k t) := by
  unfold rtThreadResume
  split_ifs with hstat
  · exact h
  · have hstat : (k.tcb t).stat = .suspend := not_not.mp hstat
    exact inv_insert (inv_unlink h (by simp [hstat])) (h.mask t (by simp) (.inr hstat))

/-- The fields of a thread that is not ready may change, its state only from initialised to suspended. -/
theorem inv_setTcb_idle (h : SchedInv k) (hstat : (k.tcb t).stat ≠ .ready) {tcb : Tcb}
    (hkind : tcb.stat = (k.tcb t).stat ∨ (k.tcb t).stat = .init ∧ tcb.stat = .suspend)
    (hmask : tcb.numberMask = prioMask tcb.currentPriority) : SchedInv (k.setTcb t tcb) := by
  have hother {u : τ} (hu : u ≠ t) : (k.setTcb t tcb).tcb u = k.tcb u := k.setTcb_other tcb hu
  have hself : (k.setTcb t tcb).tcb t = tcb := k.setTcb_self t tcb
  have hnew : tcb.stat ≠ .ready := by
    rcases hkind with hk | ⟨-, hk⟩ <;> simp [hk, hstat]
  exact
    { bit := h.bit
      mem := fun u p hu => by
        rw [hother fun he => h.not_mem hstat p (he ▸ hu)]
        exact h.mem u p hu
      ready := fun u hne hu => by
        by_cases hut : u = t
        · subst hut
          rw [hself] at hu
          exact absurd hu hnew
        · rw [hother hut] at hu ⊢
          exact h.ready u hne hu
      nodup := h.nodup
      mask := fun u hne hu => by
        by_cases hut : u = t
        · subst hut
          rw [hself]
          exact hmask
        · rw [hother hut] at hu ⊢
          exact h.mask u hne hu
      mask_or := fun u hne => by
        by_cases hut : u = t
        · subst hut
          rw [hself]
          exact .inr hmask
        · rw [hother hut]
          exact h.mask_or u hne
      waiting := fun u q hu => by
        have hw := (h.waiting u q hu).2
        by_cases hut : u = t
        · subst hut
          rw [hself]
          rcases hkind with hk | ⟨hk, -⟩
          · exact ⟨by simp, hk.trans hw⟩
          · rw [hk] at hw
            cases hw
        · rw [hother hut]
          exact h.waiting u q hu
      waiting_nodup := h.waiting_nodup
      defunct := fun u hu => by
        have hd := (h.defunct u hu).2
        by_cases hut : u = t
        · subst hut
          rw [hself]
          rcases hkind with hk | ⟨hk, -⟩
          · exact ⟨by simp, hk.trans hd⟩
          · rw [hk] at hd
            cases hd
        · rw [hother hut]
          exact h.defunct u hu
      defunct_nodup := h.defunct_nodup }

theorem inv_startup_resume (h : SchedInv k) (hstat : (k.tcb t).stat = .init) :
    SchedInv (rtThreadResume (k.setTcb t { k.tcb t with
      currentPriority := (k.tcb t).initPriority
      numberMask := prioMask (k.tcb t).initPriority
      stat := .suspend }) t) :=
  inv_resume (inv_setTcb_idle h (by simp [hstat]) (.inr ⟨hstat, rfl⟩) rfl) t

theorem rtThreadSuspend_eq (hstat : (k.tcb t).stat = .ready) :
    (rtThreadSuspend k t).tcb t = { k.tcb t with stat := .suspend } ∧
      (∀ q, (rtThreadSuspend k t).waiting q = (k.waiting q).erase t) ∧
      (rtThreadSuspend k t).lockNest = k.lockNest ∧ (rtThreadSuspend k t).current = k.current := by
  rw [rtThreadSuspend, if_neg (not_not.mpr hstat), rtScheduleRemoveThread_eq]
  exact ⟨Function.update_self _ _ _, fun _ => rfl, rfl, rfl⟩

/-- `rt_thread_suspend` of a ready thread leaves it suspended in no list. -/
theorem inv_suspend_ready (h : SchedInv k) (hstat : (k.tcb t).stat = .ready) :
    SchedInv (rtThreadSuspend k t) ∧ SchedInvExcept (rtThreadSuspend k t) (some t) ∧
      ((rtThreadSuspend k t).tcb t).stat = .suspend := by
  have hself := (rtThreadSuspend_eq hstat).1
  have hexcept : SchedInvExcept (rtThreadSuspend k t) (some t) := by
    rw [rtThreadSuspend, if_neg (not_not.mpr hstat)]
    exact inv_setTcb (inv_remove h t) _
  have hmask := h.mask t (by simp) (.inl hstat)
  refine ⟨inv_restore hexcept ?_ ?_ ?_, hexcept, by rw [hself]⟩
  · simp [hself]
  · rw [hself]
    exact fun _ => hmask
  · rw [hself]
    exact .inr hmask

theorem inv_suspend (h : SchedInv k) (t : τ) : SchedInv (rtThreadSuspend k t) := by
  by_cases hstat : (k.tcb t).stat = .ready
  · exact (inv_suspend_ready h hstat).1
  · rw [rtThreadSuspend, if_pos hstat]
    exact h

theorem inv_timeout_insert (h : SchedInv k) (hstat : (k.tcb t).stat = .suspend) :
    SchedInv (rtScheduleInsertThread ((k.setTcb t { k.tcb t with error := rtEtimeout }).unlink t) t) := by
  have hmask := h.mask t (by simp) (.inr hstat)
  have hset : SchedInv (k.setTcb t { k.tcb t with error := rtEtimeout }) :=
    inv_setTcb_idle h (by simp [hstat]) (.inl rfl) hmask
  refine inv_insert (inv_unlink hset (by simp [hstat])) ?_
  show ((k.setTcb t _).tcb t).numberMask = prioMask ((k.setTcb t _).tcb t).currentPriority
  rw [Kernel.setTcb_self]
  exact hmask

/-- Moving the running thread to the end of its list keeps the members of the list. -/
theorem inv_yieldMove (h : SchedInv k) (hs : yieldMove k t = some k') : SchedInv k' := by
  unfold yieldMove at hs
  obtain ⟨⟨-, hmem, -⟩, hs⟩ := Option.ite_none_right_eq_some.mp hs
  obtain rfl := Option.some.inj hs
  have htable (p : Priority) :
      (Function.update k.table (k.tcb t).currentPriority ((k.table (k.tcb t).currentPriority).erase t ++ [t]) p).Perm
        (k.table p) := by
    by_cases hp : p = (k.tcb t).currentPriority
    · subst hp
      rw [Function.update_self]
      exact (List.perm_append_singleton _ _).trans (List.perm_cons_erase hmem).symm
    · rw [Function.update_of_ne hp]
  exact
    { h with
      bit := fun p => by
        rw [h.bit]
        exact not_congr (by rw [← List.length_eq_zero_iff, ← List.length_eq_zero_iff, (htable p).length_eq])
      mem := fun u p hu => h.mem u p ((htable p).mem_iff.mp hu)
      ready := fun u hne hu => (htable _).mem_iff.mpr (h.ready u hne hu)
      nodup := fun p => (htable p).nodup_iff.mpr (h.nodup p) }

theorem inv_changePriority (h : SchedInv k) (t : τ) (prio : Priority) :
    SchedInv (rtThreadChangePriority k t prio) := by
  unfold rtThreadChangePriority
  split_ifs with hstat
  · refine inv_insert (inv_setTcb (inv_remove h t) _) ?_
    show ((Kernel.setTcb _ t _).tcb t).numberMask = prioMask ((Kernel.setTcb _ t _).tcb t).currentPriority
    rw [Kernel.setTcb_self]
  · exact inv_setTcb_idle h hstat (.inl rfl) rfl

omit [DecidableEq τ] in
theorem inv_leave (h : SchedInv k) (hu : k.Unlinked t) : SchedInvExcept k (some t) where
  bit := h.bit
  mem u p hm := ⟨fun he => hu.1 p (Option.some.inj he ▸ hm), (h.mem u p hm).2⟩
  ready u _ := h.ready u (by simp)
  nodup := h.nodup
  mask u _ := h.mask u (by simp)
  mask_or u _ := h.mask_or u (by simp)
  waiting u q hm := ⟨fun he => hu.2.1 q (Option.some.inj he ▸ hm), (h.waiting u q hm).2⟩
  waiting_nodup := h.waiting_nodup
  defunct u hm := ⟨fun he => hu.2.2 (Option.some.inj he ▸ hm), (h.defunct u hm).2⟩
  defunct_nodup := h.defunct_nodup

omit [DecidableEq τ] in
theorem unlinked_of_init (h : SchedInv k) (hstat : (k.tcb t).stat = .init) : k.Unlinked t := by
  refine ⟨fun p hm => ?_, fun q hm => ?_, fun hm => ?_⟩
  · exact absurd ((h.mem t p hm).2.1.symm.trans hstat) (by simp)
  · exact absurd ((h.waiting t q hm).2.symm.trans hstat) (by simp)
  · exact absurd ((h.defunct t hm).2.symm.trans hstat) (by simp)

theorem inv_unlink_idle (h : SchedInv k) (hstat : (k.tcb t).stat ≠ .ready) : SchedInv (k.unlink t) :=
  inv_restore (inv_unlink h hstat) hstat (fun hs => h.mask t (by simp) (.inr hs)) (h.mask_or t (by simp))

theorem unlinked_unlink (h : SchedInv k) (t : τ) : (k.unlink t).Unlinked t :=
  ⟨fun p => (h.nodup p).not_mem_erase, fun q => (h.waiting_nodup q).not_mem_erase, h.defunct_nodup.not_mem_erase⟩

/-- `rt_schedule_remove_thread` on its own, for a thread that is not ready. -/
theorem inv_remove_idle (h : SchedInv k) (hstat : (k.tcb t).stat ≠ .ready) :
    SchedInv (rtScheduleRemoveThread k t) := by
  refine inv_restore (inv_remove h t) ?_ ?_ ?_
  · rwa [rtScheduleRemoveThread_tcb]
  · rw [rtScheduleRemoveThread_tcb]
    exact fun hs => h.mask t (by simp) (.inr hs)
  · rw [rtScheduleRemoveThread_tcb]
    exact h.mask_or t (by simp)

theorem inv_closeThread (h : SchedInv k) (t : τ) :
    SchedInvExcept (closeThread k t) (some t) ∧ SchedInv (closeThread k t) ∧
      ((closeThread k t).tcb t).stat = .close := by
  have htcb : (closeThread k t).tcb t = { k.tcb t with stat := .close } := by
    unfold closeThread
    split_ifs
    · rw [Kernel.setTcb_self, rtScheduleRemoveThread_tcb]
    · exact k.setTcb_self t _
  have hexcept : SchedInvExcept (closeThread k t) (some t) := by
    unfold closeThread
    split_ifs with hstat
    · exact inv_setTcb (inv_remove h t) _
    · exact inv_setTcb (inv_leave h (unlinked_of_init h (not_not.mp hstat))) _
  refine ⟨hexcept, inv_restore hexcept ?_ ?_ ?_, by rw [htcb]⟩
  · simp [htcb]
  · simp [htcb]
  · rw [htcb]
    exact h.mask_or t (by simp)

theorem inv_detach (h : SchedInv k) (hs : rtThreadDetach k t = some k') : SchedInv k' := by
  rcases rtThreadDetach_cases hs with rfl | rfl
  · exact h
  · exact (inv_closeThread h t).2.1

theorem inv_delete (h : SchedInv k) (hs : rtThreadDelete k t = some k') : SchedInv k' := by
  rcases rtThreadDelete_cases hs with rfl | rfl
  · exact h
  · obtain ⟨hexcept, hclosed, hstat⟩ := inv_closeThread h t
    exact
      { hclosed with
        defunct := fun u hu => by
          rcases List.mem_cons.mp hu with rfl | hu
          · exact ⟨by simp, hstat⟩
          · exact hclosed.defunct u hu
        defunct_nodup := List.nodup_cons.mpr ⟨fun hm => (hexcept.defunct t hm).1 rfl, hclosed.defunct_nodup⟩ }

theorem inv_ipcSuspend [DecidableEq ι] {q : ι} {i : Nat} (h : SchedInv k)
    (hs : rtIpcListSuspend k q i = some k') : SchedInv k' := by
  obtain ⟨t, -, hstat, -, rfl⟩ := rtIpcListSuspend_cases hs
  obtain ⟨hsusp, hexcept, hnew⟩ := inv_suspend_ready h hstat
  have hfresh (r : ι) : t ∉ (rtThreadSuspend k t).waiting r := fun hm => (hexcept.waiting t r hm).1 rfl
  refine { hsusp with waiting := fun u r hu => ⟨by simp, ?_⟩, waiting_nodup := fun r => ?_ }
  · by_cases hr : r = q
    · subst hr
      dsimp only at hu
      rw [Function.update_self] at hu
      rcases List.eq_or_mem_of_mem_insertIdx hu with rfl | hu
      · exact hnew
      · exact (hsusp.waiting u r hu).2
    · dsimp only at hu
      rw [Function.update_of_ne hr] at hu
      exact (hsusp.waiting u r hu).2
  · dsimp only
    by_cases hr : r = q
    · subst hr
      rw [Function.update_self]
      by_cases hi : i ≤ ((rtThreadSuspend k t).waiting r).length
      · exact (List.perm_insertIdx t _ hi).nodup_iff.mpr (List.nodup_cons.mpr ⟨hfresh r, hsusp.waiting_nodup r⟩)
      · rw [List.insertIdx_of_length_lt (by omega)]
        exact hsusp.waiting_nodup r
    · rw [Function.update_of_ne hr]
      exact hsusp.waiting_nodup r

end operations

/-! ## What `rt_schedule` selects -/

omit [DecidableEq τ] in
theorem highestReady_eq (h : SchedInv k) {p : Priority} (hp : k.table p ≠ []) (hlow : ∀ q < p, k.table q = []) :
    highestReady k = (k.table p).head?.map fun t => (p, t) := by
  have hffs : rtFfs k.group = p.val + 1 := by
    refine rtFfs_spec k.group ((h.bit p).mpr hp) fun q hq => ?_
    have := (h.bit q).not.mpr (not_not.mpr (hlow q hq))
    simpa using this
  have hval : (⟨rtFfs k.group - 1, by omega⟩ : Priority) = p := Fin.ext (by simp [hffs])
  unfold highestReady
  rw [dif_pos ⟨by omega, by omega⟩]
  dsimp only
  rw [hval]

theorem rtSchedule_selects (h : SchedInv k) (hlock : k.lockNest = 0) {p : Priority} (hp : k.table p ≠ [])
    (hlow : ∀ q < p, k.table q = []) : ∃ k', rtSchedule k = some k' ∧ k'.current = (k.table p).head? := by
  obtain ⟨t, ts, ht⟩ := List.exists_cons_of_ne_nil hp
  have hready : highestReady k = some (p, t) := by
    rw [highestReady_eq h hp hlow, ht]
    rfl
  unfold rtSchedule
  rw [if_pos hlock, hready, ht, Option.map_some]
  refine ⟨_, rfl, ?_⟩
  dsimp only
  split_ifs with hcur
  · rfl
  · exact (not_not.mp hcur).symm

/-! ## All runs -/

/-- The operations that end in a call of `rt_schedule`. -/
def EndsInSchedule (k : Kernel τ ι) : SchedAction τ ι → Prop
  | .startup _ => k.current ≠ none
  | .timeout _ => True
  | .yield => ∃ t, k.current = some t ∧ yieldMove k t ≠ none
  | .schedule => True
  | .exitCritical => k.lockNest ≤ 1 ∧ k.current ≠ none
  | _ => False

/-- How the two scheduler functions that are not for applications are used: a suspended thread that is in no
list is inserted, and a thread that is not ready is removed. -/
def ValidUse (k : Kernel τ ι) : SchedAction τ ι → Prop
  | .insert t => (k.tcb t).stat = .suspend ∧ k.Unlinked t
  | .remove t => (k.tcb t).stat ≠ .ready
  | _ => True

instance [Fintype ι] (k : Kernel τ ι) (t : τ) : Decidable (k.Unlinked t) :=
  inferInstanceAs (Decidable ((∀ p, t ∉ k.table p) ∧ (∀ q, t ∉ k.waiting q) ∧ t ∉ k.defunct))

instance [Fintype ι] (k : Kernel τ ι) : (a : SchedAction τ ι) → Decidable (ValidUse k a)
  | .insert t => inferInstanceAs (Decidable ((k.tcb t).stat = .suspend ∧ k.Unlinked t))
  | .remove t => inferInstanceAs (Decidable ((k.tcb t).stat ≠ .ready))
  | .startup _ | .suspend _ | .resume _ | .timeout _ | .yield | .changePriority _ _ | .detach _ | .delete _
  | .schedule | .start | .ipcSuspend _ _ | .enterCritical | .exitCritical => isTrue trivial

section runs

variable [DecidableEq ι] {k' : Kernel τ ι} {a : SchedAction τ ι}

/-- An operation that calls `rt_schedule` last calls it in a state with the invariant. -/
theorem ends_in_schedule (h : SchedInv k) (he : EndsInSchedule k a) (hs : schedStep k a = some k') :
    ∃ k₁, SchedInv k₁ ∧ rtSchedule k₁ = some k' := by
  cases a with
  | startup t =>
    obtain ⟨hstat, hs⟩ := Option.ite_none_right_eq_some.mp hs
    have hcur : ((rtThreadResume (k.setTcb t { k.tcb t with
        currentPriority := (k.tcb t).initPriority
        numberMask := prioMask (k.tcb t).initPriority
        stat := .suspend }) t).current ≠ none) := by
      unfold rtThreadResume
      split_ifs <;> exact he
    dsimp only at hs
    rw [if_pos hcur] at hs
    exact ⟨_, inv_startup_resume h hstat, hs⟩
  | timeout t =>
    obtain ⟨hstat, hs⟩ := Option.ite_none_right_eq_some.mp hs
    exact ⟨_, inv_timeout_insert h hstat, hs⟩
  | yield =>
    obtain ⟨t, hcur, hmove⟩ := he
    obtain ⟨k₁, hk₁⟩ := Option.ne_none_iff_exists'.mp hmove
    change rtThreadYield k = some k' at hs
    simp only [rtThreadYield, hcur, hk₁] at hs
    exact ⟨k₁, inv_yieldMove h hk₁, hs⟩
  | schedule => exact ⟨k, h, hs⟩
  | exitCritical =>
    refine ⟨{ k with lockNest := k.lockNest - 1 }, inv_frame h rfl rfl rfl rfl rfl, ?_⟩
    change rtExitCritical k = some k' at hs
    unfold rtExitCritical at hs
    dsimp only at hs
    rwa [if_pos ⟨by have := he.1; omega, he.2⟩] at hs
  | _ => exact he.elim

theorem schedInv_step (h : SchedInv k) (hv : ValidUse k a) (hs : schedStep k a = some k') : SchedInv k' := by
  by_cases he : EndsInSchedule k a
  · obtain ⟨k₁, h₁, hs₁⟩ := ends_in_schedule h he hs
    exact inv_schedule h₁ hs₁
  · cases a with
    | startup t =>
      obtain ⟨hstat, hs⟩ := Option.ite_none_right_eq_some.mp hs
      have hresume := inv_startup_resume h hstat
      dsimp only at hs
      split_ifs at hs
      · exact inv_schedule hresume hs
      · exact Option.some.inj hs ▸ hresume
    | insert t => exact Option.some.inj hs ▸ inv_insert (inv_leave h hv.2) (h.mask t (by simp) (.inr hv.1))
    | remove t => exact Option.some.inj hs ▸ inv_remove_idle h hv
    | suspend t => exact Option.some.inj hs ▸ inv_suspend h t
    | resume t => exact Option.some.inj hs ▸ inv_resume h t
    | timeout t => exact absurd trivial he
    | yield =>
      obtain ⟨t, hcur, ⟨k₁, hmove, -⟩ | ⟨-, rfl⟩⟩ := rtThreadYield_cases hs
      · exact absurd ⟨t, hcur, by simp [hmove]⟩ he
      · exact h
    | changePriority t prio => exact Option.some.inj hs ▸ inv_changePriority h t prio
    | detach t => exact inv_detach h hs
    | delete t => exact inv_delete h hs
    | schedule => exact absurd trivial he
    | start =>
      obtain ⟨⟨p, t⟩, -, rfl⟩ := Option.map_eq_some_iff.mp hs
      exact inv_frame h rfl rfl rfl rfl rfl
    | ipcSuspend q i => exact inv_ipcSuspend h hs
    | enterCritical => exact Option.some.inj hs ▸ inv_frame h rfl rfl rfl rfl rfl
    | exitCritical =>
      have hunlock : SchedInv { k with lockNest := k.lockNest - 1 } := inv_frame h rfl rfl rfl rfl rfl
      rcases rtExitCritical_cases hs with hs | rfl
      · exact inv_schedule hunlock hs
      · exact hunlock

theorem schedInv {h : History (Kernel τ ι) (SchedAction τ ι)} (hrun : (scheduler τ ι).Run h k)
    (hvalid : Throughout (fun _ k a => ValidUse k a) h) : SchedInv k := by
  refine hrun.invariant (I := fun _ k => SchedInv k) ?_ ?_ hvalid
  · rintro k ⟨hstat, hmask, htable, hgroup, -, hwaiting, hdefunct⟩
    exact
      { bit := fun p => by simp [hgroup, htable]
        mem := fun t p hm => by simp [htable] at hm
        ready := fun t _ hr => by simp [hstat] at hr
        nodup := fun p => by simp [htable]
        mask := fun t _ hr => by simp [hstat] at hr
        mask_or := fun t _ => .inl (hmask t)
        waiting := fun t q hm => by simp [hwaiting] at hm
        waiting_nodup := fun q => by simp [hwaiting]
        defunct := fun t hm => by simp [hdefunct] at hm
        defunct_nodup := by simp [hdefunct] }
  · exact fun _ _ _ _ _ hi hv hs => schedInv_step hi hv hs

/-- In every state of a run that uses the scheduler's internal functions as their callers do: a bit is set
exactly if its list is not empty; a thread is in a ready list exactly if it is ready, once, in the list of its
priority, in no other list, and with the mask of that priority. Whoever calls `rt_schedule` then gets the head
of the first list that is not empty. -/
theorem ready_table {h : History (Kernel τ ι) (SchedAction τ ι)} (hrun : (scheduler τ ι).Run h k)
    (hvalid : Throughout (fun _ k a => ValidUse k a) h) :
    (∀ p : Priority, k.group.getLsbD p.val = true ↔ k.table p ≠ []) ∧
    (∀ t, (∃ p, t ∈ k.table p) ↔ (k.tcb t).stat = .ready) ∧
    (∀ t, (k.tcb t).stat = .ready → (k.table (k.tcb t).currentPriority).count t = 1 ∧
      (∀ p, p ≠ (k.tcb t).currentPriority → t ∉ k.table p) ∧ (∀ q, t ∉ k.waiting q) ∧ t ∉ k.defunct ∧
      (k.tcb t).numberMask = prioMask (k.tcb t).currentPriority) ∧
    (∀ p, k.lockNest = 0 → k.table p ≠ [] → (∀ q < p, k.table q = []) →
      ∃ k', rtSchedule k = some k' ∧ k'.current = (k.table p).head?) ∧
    (∀ a k' p, EndsInSchedule k a → schedStep k a = some k' → k'.lockNest = 0 → k'.table p ≠ [] →
      (∀ q < p, k'.table q = []) → k'.current = (k'.table p).head?) := by
  have hi := schedInv hrun hvalid
  refine ⟨hi.bit, fun t => ⟨fun ⟨p, hm⟩ => (hi.mem t p hm).2.1, fun hr => ⟨_, hi.ready t (by simp) hr⟩⟩,
    fun t hr => ⟨?_, ?_, ?_, ?_, hi.mask t (by simp) (.inl hr)⟩, ?_, ?_⟩
  · exact List.count_eq_one_of_mem (hi.nodup _) (hi.ready t (by simp) hr)
  · exact fun p hp hm => hp (hi.mem t p hm).2.2.symm
  · exact fun q hm => absurd (hr.symm.trans (hi.waiting t q hm).2) (by simp)
  · exact fun hm => absurd (hr.symm.trans (hi.defunct t hm).2) (by simp)
  · exact fun p hlock hp hlow => rtSchedule_selects hi hlock hp hlow
  · intro a k' p he hs hlock hp hlow
    obtain ⟨k₁, h₁, hs₁⟩ := ends_in_schedule hi he hs
    obtain ⟨-, htable, -, -, -, hnest⟩ := rtSchedule_frame hs₁
    rw [htable] at hp hlow ⊢
    obtain ⟨k₂, hs₂, hsel⟩ := rtSchedule_selects h₁ (hnest ▸ hlock) hp hlow
    rw [hs₁] at hs₂
    rw [Option.some.inj hs₂]
    exact hsel

set_option synthInstance.maxSize 256 in
instance [Fintype τ] [Fintype ι] (k : Kernel τ ι) (skip : Option τ) : Decidable (SchedInvExcept k skip) :=
  decidable_of_iff' _ (schedInvExcept_iff k skip)

/-- The priority `n`, for `n` below 32. -/
def priority (n : Nat) : Priority := ⟨n % 32, Nat.mod_lt n (by decide)⟩

/-- Two threads, before they are started. -/
def twoThreads : Kernel Bool Unit where
  tcb t :=
    { stat := .init
      initPriority := if t then priority 10 else priority 20
      currentPriority := if t then priority 10 else priority 20
      numberMask := 0
      initTick := 1
      remainingTick := 1
      error := rtEok
      isSystem := false }
  table _ := []
  group := 0
  current := none
  currentPriority := priority 0
  lockNest := 0
  waiting _ := []
  defunct := []

theorem schedInit_twoThreads : SchedInit twoThreads where
  stat _ := rfl
  mask _ := rfl
  table _ := rfl
  group := rfl
  current := rfl
  waiting _ := rfl
  defunct := rfl

/-- Both threads are started; the one of priority 10 waits with a timeout, is taken out of the suspend list
and inserted by hand, and changes its priority. -/
theorem ready_table_run :
    ∃ h k, (scheduler Bool Unit).Run h k ∧ Throughout (fun _ k a => ValidUse k a) h ∧
      k.current = some false ∧ (k.table (k.tcb true).currentPriority).count true = 1 ∧
      (k.tcb true).numberMask = prioMask (k.tcb true).currentPriority := by
  obtain ⟨h, k, hrun, hvalid, hcur, hready⟩ := System.exists_run (S := scheduler Bool Unit) schedInit_twoThreads
    [.startup true, .startup false, .start, .ipcSuspend () 0, .schedule, .timeout true, .ipcSuspend () 0,
      .remove true, .insert true, .changePriority true (priority 25), .schedule]
    (fun h k => Throughout (fun _ k a => ValidUse k a) h ∧ k.current = some false ∧ (k.tcb true).stat = .ready)
    (by decide +kernel)
  obtain ⟨-, -, hlinked, -⟩ := ready_table hrun hvalid
  obtain ⟨hcount, -, -, -, hmask⟩ := hlinked true hready
  exact ⟨h, k, hrun, hvalid, hcur, hcount, hmask⟩

/-- `rt_schedule_remove_thread` on the running thread, with nothing around it: the thread is ready and in no
list. -/
theorem removed_while_ready :
    ∃ h k, (scheduler Bool Unit).Run h k ∧ (k.tcb true).stat = .ready ∧ ∀ p, true ∉ k.table p :=
  System.exists_run (S := scheduler Bool Unit) schedInit_twoThreads [.startup true, .start, .remove true]
    (fun _ k => (k.tcb true).stat = .ready ∧ ∀ p, true ∉ k.table p) (by decide +kernel)

/-- Two started threads, of which the one of the higher priority runs. -/
def twoRunning : Kernel Bool Unit :=
  { twoThreads with
    tcb := fun t =>
      { twoThreads.tcb t with stat := .ready, numberMask := prioMask (twoThreads.tcb t).currentPriority }
    table := fun p => if p.val = 10 then [true] else if p.val = 20 then [false] else []
    group := prioMask (priority 10) ||| prioMask (priority 20)
    current := some true }

theorem schedInv_twoRunning : SchedInv twoRunning := by decide +kernel

end runs

end ThyristorController
