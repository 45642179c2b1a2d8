import Mathlib.Data.List.Basic
import Mathlib.Tactic.Common

/-!
# Counting semaphores of the kernel (`src/ipc.c`)

A semaphore is a 16-bit value and the list of the threads suspended on it. Both operations run with
interrupts disabled, so each is one atomic step: `rtSemTake` either decrements the value or appends the
caller to the list, and `rtSemRelease` hands its token to the first suspended thread, or stores it in
the value, or fails when the value is at its maximum.

The fields carry the invariant that a thread is suspended only while the value is zero.
-/

namespace ThyristorController

/-- `RT_SEM_VALUE_MAX`. -/
def rtSemValueMax : Nat := 0xffff

/-- `struct rt_semaphore` (FIFO flag), over a type of threads. -/
@[ext] structure RtSemaphore (τ : Type) where
  value : Nat
  suspendThread : List τ
  value_le : value ≤ rtSemValueMax
  value_eq_zero : suspendThread ≠ [] → value = 0

/-- What a release did: the suspended thread it resumed, or its return code. -/
inductive SemRelease (τ : Type) where
  | resumed (thread : τ)
  | stored
  | full
deriving DecidableEq

variable {τ : Type}

/-- `rt_sem_init`. -/
def rtSemInit (value : Nat) (hvalue : value ≤ rtSemValueMax) : RtSemaphore τ where
  value := value
  suspendThread := []
  value_le := hvalue
  value_eq_zero h := absurd rfl h

/-- `rt_sem_take` with `RT_WAITING_FOREVER`: whether the caller got a token, or was suspended. -/
def rtSemTake (sem : RtSemaphore τ) (self : τ) : RtSemaphore τ × Bool :=
  if h : 0 < sem.value then
    ({ value := sem.value - 1
       suspendThread := sem.suspendThread
       value_le := Nat.le_trans (Nat.sub_le _ _) sem.value_le
       value_eq_zero := fun hne => absurd (sem.value_eq_zero hne) (Nat.ne_of_gt h) }, true)
  else
    ({ value := sem.value
       suspendThread := sem.suspendThread ++ [self]
       value_le := sem.value_le
       value_eq_zero := fun _ => Nat.eq_zero_of_not_pos h }, false)

/-- `rt_sem_release`. -/
def rtSemRelease (sem : RtSemaphore τ) : RtSemaphore τ × SemRelease τ :=
  match hl : sem.suspendThread with
  | thread :: rest =>
    ({ value := sem.value
       suspendThread := rest
       value_le := sem.value_le
       value_eq_zero := fun _ => sem.value_eq_zero (by simp [hl]) }, .resumed thread)
  | [] =>
    if h : sem.value < rtSemValueMax then
      ({ value := sem.value + 1
         suspendThread := []
         value_le := h
         value_eq_zero := fun hne => absurd rfl hne }, .stored)
    else (sem, .full)

theorem rtSemTake_pos (sem : RtSemaphore τ) (self : τ) (h : 0 < sem.value) :
    (rtSemTake sem self).2 = true ∧ (rtSemTake sem self).1.value = sem.value - 1 ∧
      (rtSemTake sem self).1.suspendThread = sem.suspendThread := by
  simp [rtSemTake, h]

theorem rtSemTake_zero (sem : RtSemaphore τ) (self : τ) (h : sem.value = 0) :
    (rtSemTake sem self).2 = false ∧ (rtSemTake sem self).1.value = 0 ∧
      (rtSemTake sem self).1.suspendThread = sem.suspendThread ++ [self] := by
  simp [rtSemTake, h]

/-- A release on a semaphore with waiters hands the token to the first one. -/
theorem rtSemRelease_waiting (sem : RtSemaphore τ) {thread : τ} {rest : List τ}
    (h : sem.suspendThread = thread :: rest) :
    (rtSemRelease sem).2 = .resumed thread ∧ (rtSemRelease sem).1.value = sem.value ∧
      (rtSemRelease sem).1.suspendThread = rest := by
  unfold rtSemRelease
  split
  · next t r ht =>
    rw [ht, List.cons.injEq] at h
    simp [h.1, h.2]
  · next ht => rw [ht] at h; cases h

theorem rtSemRelease_stored (sem : RtSemaphore τ) (h : sem.suspendThread = [])
    (hv : sem.value < rtSemValueMax) :
    (rtSemRelease sem).2 = .stored ∧ (rtSemRelease sem).1.value = sem.value + 1 ∧
      (rtSemRelease sem).1.suspendThread = [] := by
  unfold rtSemRelease
  split
  · next t r ht => rw [ht] at h; cases h
  · simp [hv]

/-- A release without waiters at the maximal value fails and changes nothing. -/
theorem rtSemRelease_full (sem : RtSemaphore τ) (h : sem.suspendThread = [])
    (hv : ¬ sem.value < rtSemValueMax) : rtSemRelease sem = (sem, .full) := by
  unfold rtSemRelease
  split
  · next t r ht => rw [ht] at h; cases h
  · simp [hv]

theorem rtSemRelease_resumes (sem : RtSemaphore τ) {thread : τ} {rest : List τ}
    (h : sem.suspendThread = thread :: rest) :
    ∃ sem', rtSemRelease sem = (sem', .resumed thread) ∧ sem'.value = sem.value ∧ sem'.suspendThread = rest := by
  obtain ⟨hr, hv, hl⟩ := rtSemRelease_waiting sem h
  exact ⟨(rtSemRelease sem).1, Prod.ext rfl hr, hv, hl⟩

theorem rtSemRelease_not_waiting (sem : RtSemaphore τ) (h : sem.suspendThread = []) :
    ∃ sem' r, rtSemRelease sem = (sem', r) ∧ (r = .stored ∨ r = .full) ∧ sem'.suspendThread = [] ∧
      0 < sem'.value := by
  by_cases hv : sem.value < rtSemValueMax
  · obtain ⟨hr, hval, hl⟩ := rtSemRelease_stored sem h hv
    exact ⟨(rtSemRelease sem).1, .stored, Prod.ext rfl hr, .inl rfl, hl, by omega⟩
  · exact ⟨sem, .full, rtSemRelease_full sem h hv, .inr rfl, h, Nat.lt_of_lt_of_le (by decide) (Nat.not_lt.mp hv)⟩

end ThyristorController
