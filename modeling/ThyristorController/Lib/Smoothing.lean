import Mathlib.Algebra.Order.Ring.Int
import Mathlib.Logic.Function.Iterate
import Mathlib.Tactic.Common
import Mathlib.Tactic.Ring

/-!
# Smoothing with a rounded feedback

`smooth k x` replaces a value by the mean of the input `x` and of `k` times the value, rounded down, and is fed back its
own result. Rounding stops the recursion short of an input from below: every value of `[x - k, x]` is a fixed point
(`smooth_eq_self`). From a value the recursion comes to the nearest one of them, its `limit`, after finitely many steps
(`settles`), and it does not go past it (`reaches_iff`).
-/

namespace Smoothing

/-- One step: one part of the input and `k` parts of the old value, rounded down. -/
def smooth (k x v : ℤ) : ℤ := (x + k * v) / (k + 1)

/-- The fixed point that the recursion comes to. -/
def limit (k x v : ℤ) : ℤ := max (x - k) (min v x)

variable {k x v s : ℤ}

theorem smooth_eq (hk : 0 ≤ k) : smooth k x v = v + (x - v) / (k + 1) := by
  have hsplit : x + k * v = x - v + v * (k + 1) := by ring
  rw [smooth, hsplit, Int.add_mul_ediv_right _ _ (by omega), Int.add_comm]

theorem smooth_eq_self (hk : 0 ≤ k) : smooth k x v = v ↔ x - k ≤ v ∧ v ≤ x := by
  have hzero : (x - v) / (k + 1) = 0 ↔ 0 ≤ x - v ∧ x - v < k + 1 := by
    rw [Int.ediv_eq_iff_of_pos (by omega)]
    omega
  rw [smooth_eq hk]
  omega

theorem smooth_of_lt (hk : 0 ≤ k) (hv : v < x - k) : v < smooth k x v ∧ smooth k x v ≤ x - k := by
  have hpos : 1 ≤ (x - v) / (k + 1) := (Int.le_ediv_iff_mul_le (by omega)).mpr (by omega)
  have hle : (x - v) / (k + 1) ≤ x - v - k := by
    refine Int.lt_add_one_iff.mp ((Int.ediv_lt_iff_lt_mul (by omega)).mpr ?_)
    have hmul : 0 ≤ k * (x - v - k) := Int.mul_nonneg hk (by omega)
    have hsplit : (x - v - k + 1) * (k + 1) = k * (x - v - k) + (x - v) + 1 := by ring
    omega
  rw [smooth_eq hk]
  omega

theorem smooth_of_gt (hk : 0 ≤ k) (hv : x < v) : smooth k x v < v ∧ x ≤ smooth k x v := by
  have hneg : (x - v) / (k + 1) < 0 := Int.ediv_neg_of_neg_of_pos (by omega) (by omega)
  have hge : x - v ≤ (x - v) / (k + 1) := by
    refine (Int.le_ediv_iff_mul_le (by omega)).mpr ?_
    have hmul : k * (x - v) ≤ 0 := Int.mul_nonpos_of_nonneg_of_nonpos hk (by omega)
    have hsplit : (x - v) * (k + 1) = k * (x - v) + (x - v) := by ring
    omega
  rw [smooth_eq hk]
  omega

theorem limit_eq_self (hk : 0 ≤ k) : limit k x v = v ↔ x - k ≤ v ∧ v ≤ x := by
  unfold limit
  omega

theorem limit_smooth (hk : 0 ≤ k) : limit k x (smooth k x v) = limit k x v := by
  rcases lt_or_ge v (x - k) with hlow | hlow
  · have := smooth_of_lt hk hlow
    unfold limit
    omega
  · rcases lt_or_ge x v with hhigh | hhigh
    · have := smooth_of_gt hk hhigh
      unfold limit
      omega
    · rw [(smooth_eq_self hk).mpr ⟨hlow, hhigh⟩]

theorem smooth_nearer (hk : 0 ≤ k) (hv : v ≠ limit k x v) :
    (limit k x v - smooth k x v).natAbs < (limit k x v - v).natAbs := by
  rcases lt_or_ge v (x - k) with hlow | hlow
  · have := smooth_of_lt hk hlow
    unfold limit
    omega
  · rcases lt_or_ge x v with hhigh | hhigh
    · have := smooth_of_gt hk hhigh
      unfold limit
      omega
    · exact absurd ((limit_eq_self hk).mpr ⟨hlow, hhigh⟩).symm hv

theorem limit_fixed (hk : 0 ≤ k) : smooth k x (limit k x v) = limit k x v := by
  rw [smooth_eq_self hk]
  unfold limit
  omega

theorem settles (hk : 0 ≤ k) (v : ℤ) : ∃ N, ∀ n, N ≤ n → (smooth k x)^[n] v = limit k x v := by
  -- induction on the distance from the limit
  induction hd : (limit k x v - v).natAbs using Nat.strong_induction_on generalizing v with
  | _ d ih =>
    by_cases hv : v = limit k x v
    · refine ⟨0, fun n _ => ?_⟩
      have hfix : smooth k x v = v := by
        have := limit_fixed (x := x) (v := v) hk
        rwa [← hv] at this
      rw [Function.iterate_fixed hfix, ← hv]
    · have hnear := smooth_nearer hk hv
      obtain ⟨N, hN⟩ := ih _ (hd ▸ hnear) (smooth k x v) (by rw [limit_smooth hk])
      refine ⟨N + 1, fun n hn => ?_⟩
      obtain ⟨m, rfl⟩ := Nat.exists_eq_add_of_le' (Nat.le_of_add_left_le hn)
      rw [Function.iterate_succ_apply, hN m (by omega), limit_smooth hk]

theorem le_limit (hv : v ≤ x) : v ≤ limit k x v := by
  unfold limit
  omega

theorem iterate_le (hk : 0 ≤ k) (hv : v ≤ x) (n : ℕ) : (smooth k x)^[n] v ≤ limit k x v := by
  induction n generalizing v with
  | zero => exact le_limit hv
  | succ n ih =>
    have hstep : smooth k x v ≤ x := by
      rcases lt_or_ge v (x - k) with hlow | hlow
      · have := (smooth_of_lt hk hlow).2
        omega
      · rwa [(smooth_eq_self hk).mpr ⟨hlow, hv⟩]
    rw [Function.iterate_succ_apply, ← limit_smooth hk]
    exact ih hstep

/-- A bound that the input meets is met after some step exactly if the limit meets it. -/
theorem reaches_iff (hk : 0 ≤ k) (hs : s ≤ x) : (∃ n, s ≤ (smooth k x)^[n + 1] v) ↔ s ≤ limit k x v := by
  constructor
  · rintro ⟨n, hn⟩
    rcases lt_or_ge x v with hhigh | hle
    · unfold limit
      omega
    · exact hn.trans (iterate_le hk hle _)
  · intro hlimit
    obtain ⟨N, hN⟩ := settles (x := x) hk v
    exact ⟨N, by rwa [hN _ (Nat.le_succ N)]⟩

/-- Such a bound is met if the recursion starts there, or if the input is above it by `k`. -/
theorem le_limit_iff (hs : s ≤ x) : s ≤ limit k x v ↔ s ≤ v ∨ s + k ≤ x := by
  unfold limit
  omega

end Smoothing
