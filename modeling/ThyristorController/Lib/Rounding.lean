import Mathlib.Data.Int.Log
import Mathlib.Algebra.Order.Floor.Ring
import Mathlib.Algebra.Order.Archimedean.Basic
import Mathlib.Data.Rat.Floor
import Mathlib.Tactic.Linarith
import Mathlib.Tactic.FieldSimp
import Mathlib.Tactic.Positivity
import Mathlib.Tactic.Push
import Mathlib.Tactic.Ring

/-!
# Rounded arithmetic on the rationals

A `Rounding` is a function on the rationals with a bound on its relative error. Two of them are used:
`Rounding.exact`, which rounds nothing, and `Rounding.nearestEven p`, which rounds to a significand of
`p` bits, ties to even, with an unbounded exponent range: for values that neither overflow nor
underflow this is the IEEE rounding of the format with that precision (`p = 24` is binary32). Both
compute.
-/

namespace RatFloat

/-- Truncation towards zero, as in a conversion to an integer type. -/
def ratTrunc (x : ℚ) : ℤ := if 0 ≤ x then ⌊x⌋ else ⌈x⌉

theorem ratTrunc_of_nonneg {x : ℚ} (hx : 0 ≤ x) : ratTrunc x = ⌊x⌋ := if_pos hx

/-- The nearest integer, ties to even. -/
def nearestInt (x : ℚ) : ℤ :=
  if x - ⌊x⌋ < 1 / 2 then ⌊x⌋
  else if 1 / 2 < x - ⌊x⌋ then ⌊x⌋ + 1
  else if ⌊x⌋ % 2 = 0 then ⌊x⌋ else ⌊x⌋ + 1

theorem abs_nearestInt_sub_le (x : ℚ) : |(nearestInt x : ℚ) - x| ≤ 1 / 2 := by
  have hfloor : (⌊x⌋ : ℚ) ≤ x ∧ x < ⌊x⌋ + 1 := ⟨Int.floor_le x, Int.lt_floor_add_one x⟩
  rw [abs_le]
  unfold nearestInt
  split_ifs <;> push_cast <;> constructor <;> linarith [hfloor.1, hfloor.2]

/-- The unit in the last place of a significand of `p` bits at `x`. -/
def ulp (p : ℕ) (x : ℚ) : ℚ := 2 ^ (Int.log 2 |x| - (p - 1))

theorem ulp_pos (p : ℕ) (x : ℚ) : 0 < ulp p x :=
  zpow_pos (by norm_num) _

theorem ulp_le (p : ℕ) {x : ℚ} (hx : x ≠ 0) : ulp p x ≤ 2 * |x| / 2 ^ p := by
  have hlog : ((2 : ℕ) : ℚ) ^ Int.log 2 |x| ≤ |x| := Int.zpow_log_le_self (by norm_num) (abs_pos.mpr hx)
  have hsplit : ulp p x = 2 ^ Int.log 2 |x| * 2 / 2 ^ p := by
    unfold ulp
    rw [show Int.log 2 |x| - ((p : ℤ) - 1) = Int.log 2 |x| + 1 - p by ring,
      zpow_sub₀ (by norm_num), zpow_add₀ (by norm_num), zpow_one, zpow_natCast]
  push_cast at hlog
  rw [hsplit, div_le_div_iff_of_pos_right (by positivity)]
  linarith

/-- A rounding function with a bound on its relative error. -/
structure Rounding where
  rnd : ℚ → ℚ
  unit : ℚ
  unit_nonneg : 0 ≤ unit
  error : ∀ x, |rnd x - x| ≤ unit * |x|

namespace Rounding

/-- No rounding. -/
def exact : Rounding where
  rnd := id
  unit := 0
  unit_nonneg := le_refl 0
  error x := by simp

@[simp] theorem exact_rnd (x : ℚ) : exact.rnd x = x := rfl

theorem nearestEven_error (p : ℕ) (x : ℚ) :
    |(nearestInt (x / ulp p x) * ulp p x) - x| ≤ 1 / 2 ^ p * |x| := by
  rcases eq_or_ne x 0 with rfl | hx
  · simp [nearestInt]
  · have hpos := ulp_pos p x
    have hdiff : nearestInt (x / ulp p x) * ulp p x - x =
        (nearestInt (x / ulp p x) - x / ulp p x) * ulp p x := by
      rw [sub_mul, div_mul_cancel₀ _ hpos.ne']
    calc |(nearestInt (x / ulp p x) * ulp p x) - x|
        = |(nearestInt (x / ulp p x) : ℚ) - x / ulp p x| * ulp p x := by
          rw [hdiff, abs_mul, abs_of_pos hpos]
      _ ≤ 1 / 2 * ulp p x := mul_le_mul_of_nonneg_right (abs_nearestInt_sub_le _) hpos.le
      _ ≤ 1 / 2 * (2 * |x| / 2 ^ p) := by
          have := ulp_le p hx
          linarith
      _ = 1 / 2 ^ p * |x| := by ring

/-- Rounding to a significand of `p` bits, to nearest, ties to even. -/
def nearestEven (p : ℕ) : Rounding where
  rnd x := nearestInt (x / ulp p x) * ulp p x
  unit := 1 / 2 ^ p
  unit_nonneg := by positivity
  error x := nearestEven_error p x

end Rounding

end RatFloat
