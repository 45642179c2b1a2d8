import Mathlib.Algebra.Order.Group.Nat
import Mathlib.Tactic.Common
import Mathlib.Tactic.Ring

/-!
# Fitting a count into a register

A count of `T` clocks is made of `ticks` of `divider` clocks each, so that there are less than `m` of them: the divider
is `T / m + 1`, the ticks are `T` divided by it. What is lost is less than one tick (`divider_mul_ticks_le`,
`lt_divider_mul_ticks`), and a count that is not small takes at least half of the register (`min_le_ticks`).
-/

namespace Prescale

variable {m T : ℕ}

def divider (m T : ℕ) : ℕ := T / m + 1

def ticks (m T : ℕ) : ℕ := T / divider m T

theorem divider_pos : 0 < divider m T := Nat.succ_pos _

theorem ticks_lt (hm : 0 < m) : ticks m T < m := by
  rw [ticks, Nat.div_lt_iff_lt_mul divider_pos]
  exact Nat.lt_mul_div_succ T hm

theorem divider_mul_ticks_le : divider m T * ticks m T ≤ T := Nat.mul_div_le T _

theorem lt_divider_mul_ticks : T < divider m T * ticks m T + divider m T := by
  have hlt := Nat.lt_mul_div_succ T (divider_pos (m := m) (T := T))
  rwa [Nat.mul_add, Nat.mul_one] at hlt

theorem ticks_eq (hT : T < m) : ticks m T = T := by
  rw [ticks, divider, Nat.div_eq_of_lt hT, Nat.zero_add, Nat.div_one]

/-- The register is used to its half, or the count is smaller than that. -/
theorem min_le_ticks (hm : 0 < m) : min T (m / 2) ≤ ticks m T := by
  rcases Nat.lt_or_ge T m with hlt | hge
  · rw [ticks_eq hlt]
    exact Nat.min_le_left _ _
  · refine (Nat.min_le_right _ _).trans ?_
    have hone : 1 ≤ T / m := (Nat.one_le_div_iff hm).mpr hge
    rw [ticks, Nat.le_div_iff_mul_le divider_pos, divider]
    calc m / 2 * (T / m + 1) ≤ m / 2 * (2 * (T / m)) := Nat.mul_le_mul_left _ (by omega)
      _ = m / 2 * 2 * (T / m) := by ring
      _ ≤ m * (T / m) := Nat.mul_le_mul_right _ (Nat.div_mul_le_self m 2)
      _ ≤ T := Nat.mul_div_le T m

end Prescale
