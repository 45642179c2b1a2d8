import ThyristorController.Lib.Rounding
import Mathlib.Data.Fin.VecNotation
import Mathlib.Tactic.FinCases
import Mathlib.Tactic.NormNum

/-!
# Sampling and filtering (`applications/AD_read.c`)

The arithmetic of `read_knob_vol_entry`: a raw 12-bit sample is scaled by `REFER_VOLTAGE / CONVERT_BITS`,
and a first-order low-pass filter is applied in `float`. The filter is written over a `Rounding`, so that
`binary32` is what the code computes and `Rounding.exact` is its reading in rational arithmetic.

`lowPass_eq` says what the filter computes: one tenth of `adc + 9 * last`, rounded down, for every
rounding as fine as `float`, unless that is a whole number (then the code may land one below it).
-/

namespace ThyristorController

open RatFloat

/-- `CONVERT_BITS`. -/
def convertBits : Nat := 4096

/-- `REFER_VOLTAGE`. -/
def referVoltage : Fin 7 → Nat := ![330, 330, 330, 330, 330, 330, 330]

/-- `rt_adc_read(adc_dev, i) * REFER_VOLTAGE[i] / CONVERT_BITS`, in unsigned 32-bit arithmetic. -/
def convert (i : Fin 7) (raw : Fin 4096) : Int := ((raw.val * referVoltage i % 2 ^ 32) / convertBits : Nat)

/-- `float`. -/
def binary32 : Rounding := .nearestEven 24

/-- The `float` value `adc * filter_factor + (1 - filter_factor) * last`, one rounding per operation. -/
def lowPassValue (R : Rounding) (adc last : Int) : ℚ :=
  let filterFactor := R.rnd (1 / 10)
  R.rnd (R.rnd (adc * filterFactor) + R.rnd (R.rnd (1 - filterFactor) * last))

/-- The filter with its cast to `int32_t`. -/
def lowPass (R : Rounding) (adc last : Int) : Int := ratTrunc (lowPassValue R adc last)

/-- Rows and columns of `voltage_percentage_table`. -/
def voltagePercentageTable : Fin 2 → Fin 20 → Int :=
  ![![5, 10, 15, 20, 25, 30, 35, 40, 45, 50, 55, 60, 65, 70, 75, 80, 85, 90, 95, 100],
    ![5, 10, 15, 20, 25, 30, 35, 40, 45, 50, 55, 60, 65, 70, 75, 80, 85, 90, 95, 100]]

theorem voltagePercentageTable_eq (r : Fin 2) (j : Fin 20) :
    voltagePercentageTable r j = 5 * (j.val + 1) := by
  revert r j
  decide

theorem voltagePercentageTable_succ (r : Fin 2) (j : Fin 19) :
    voltagePercentageTable r j.succ = 5 * (j.val + 2) := by
  revert r j
  decide

theorem convert_eq (i : Fin 7) (raw : Fin 4096) : convert i raw = (raw.val * 330 / 4096 : Nat) := by
  have hr : referVoltage i = 330 := by
    revert i
    decide
  have hraw := raw.isLt
  have hmod : raw.val * 330 % 2 ^ 32 = raw.val * 330 := Nat.mod_eq_of_lt (by omega)
  rw [convert, hr, hmod, convertBits]

theorem convert_range (i : Fin 7) (raw : Fin 4096) : 0 ≤ convert i raw ∧ convert i raw ≤ 329 := by
  have hraw := raw.isLt
  rw [convert_eq]
  omega

theorem convert_max (i : Fin 7) : convert i 4095 = 329 := by
  revert i
  decide

/-! ## What the filter computes -/

section filter

variable {R : Rounding} {adc last : Int}

/-- The rounding errors of one application stay far below the grid of tenths. -/
theorem lowPassValue_error (hR : R.unit ≤ 1 / 1000000) (ha : 0 ≤ adc ∧ adc ≤ 329)
    (hl : 0 ≤ last ∧ last ≤ 329) :
    |lowPassValue R adc last - (adc + 9 * last : ℚ) / 10| ≤ 1 / 100 := by
  obtain ⟨ha0, ha1⟩ : (0 : ℚ) ≤ adc ∧ (adc : ℚ) ≤ 329 := by exact_mod_cast ha
  obtain ⟨hl0, hl1⟩ : (0 : ℚ) ≤ last ∧ (last : ℚ) ≤ 329 := by exact_mod_cast hl
  have hu := R.unit_nonneg
  -- the error of a rounding whose argument is at most `b`
  have hround : ∀ {x b : ℚ}, |x| ≤ b → |R.rnd x - x| ≤ b / 1000000 := fun {x b} hx => by
    have hb : 0 ≤ b := le_trans (abs_nonneg x) hx
    calc |R.rnd x - x| ≤ R.unit * |x| := R.error x
      _ ≤ 1 / 1000000 * b := mul_le_mul hR hx (abs_nonneg x) (by norm_num)
      _ = b / 1000000 := by ring
  unfold lowPassValue
  dsimp only
  have hf := abs_le.mp (hround (x := 1 / 10) (b := 1) (abs_le.mpr ⟨by norm_num, by norm_num⟩))
  generalize R.rnd (1 / 10) = f at hf ⊢
  have hg := abs_le.mp (hround (x := 1 - f) (b := 1) (abs_le.mpr ⟨by linarith, by linarith⟩))
  generalize R.rnd (1 - f) = g at hg ⊢
  have haf : |(adc : ℚ) * f - adc / 10| ≤ 329 / 1000000 := by
    rw [abs_le]
    refine ⟨?_, ?_⟩ <;> nlinarith
  have hgl : |g * (last : ℚ) - 9 * last / 10| ≤ 658 / 1000000 := by
    rw [abs_le]
    refine ⟨?_, ?_⟩ <;> nlinarith
  rw [abs_le] at haf hgl
  have hp := abs_le.mp (hround (x := (adc : ℚ) * f) (b := 34) (abs_le.mpr ⟨by linarith, by linarith⟩))
  have hq := abs_le.mp (hround (x := g * (last : ℚ)) (b := 298) (abs_le.mpr ⟨by linarith, by linarith⟩))
  generalize R.rnd ((adc : ℚ) * f) = P at hp ⊢
  generalize R.rnd (g * (last : ℚ)) = Q at hq ⊢
  have hs := abs_le.mp (hround (x := P + Q) (b := 333) (abs_le.mpr ⟨by linarith, by linarith⟩))
  exact abs_le.mpr ⟨by linarith, by linarith⟩

theorem lowPass_le (hR : R.unit ≤ 1 / 1000000) (ha : 0 ≤ adc ∧ adc ≤ 329) (hl : 0 ≤ last ∧ last ≤ 329)
    {n : Int} (hn : adc + 9 * last ≤ 10 * n + 9) : lowPass R adc last ≤ n := by
  have herr := abs_le.mp (lowPassValue_error hR ha hl)
  have hnQ : (adc + 9 * last : ℚ) ≤ 10 * n + 9 := by exact_mod_cast hn
  have hlt : lowPassValue R adc last < n + 1 := by linarith
  unfold lowPass ratTrunc
  split_ifs with hpos
  · exact Int.lt_add_one_iff.mp (Int.floor_lt.mpr (by push_cast; exact hlt))
  · have h0 : (0 : Int) ≤ n := by omega
    exact le_trans (Int.ceil_le.mpr (by push_cast; linarith)) h0

theorem le_lowPass (hR : R.unit ≤ 1 / 1000000) (ha : 0 ≤ adc ∧ adc ≤ 329) (hl : 0 ≤ last ∧ last ≤ 329)
    {n : Int} (hn : 10 * n + 1 ≤ adc + 9 * last) : n ≤ lowPass R adc last := by
  have herr := abs_le.mp (lowPassValue_error hR ha hl)
  have hnQ : (10 * n + 1 : ℚ) ≤ adc + 9 * last := by exact_mod_cast hn
  have hlt : (n : ℚ) ≤ lowPassValue R adc last := by linarith
  unfold lowPass ratTrunc
  split_ifs
  · exact Int.le_floor.mpr hlt
  · exact Int.cast_le.mp (le_trans hlt (Int.le_ceil _))

theorem lowPass_eq (hR : R.unit ≤ 1 / 1000000) (ha : 0 ≤ adc ∧ adc ≤ 329) (hl : 0 ≤ last ∧ last ≤ 329)
    (hn : (adc + 9 * last) % 10 ≠ 0) : lowPass R adc last = (adc + 9 * last) / 10 :=
  le_antisymm (lowPass_le hR ha hl (by omega)) (le_lowPass hR ha hl (by omega))

theorem lowPass_nonneg (hR : R.unit ≤ 1 / 1000000) (ha : 0 ≤ adc ∧ adc ≤ 329) (hl : 0 ≤ last ∧ last ≤ 329) :
    0 ≤ lowPass R adc last := by
  have herr := abs_le.mp (lowPassValue_error hR ha hl)
  have hsum : (0 : ℚ) ≤ adc + 9 * last := by exact_mod_cast (by omega : 0 ≤ adc + 9 * last)
  unfold lowPass ratTrunc
  split_ifs with hpos
  · exact Int.floor_nonneg.mpr hpos
  · have hlt : (-1 : Int) < ⌈lowPassValue R adc last⌉ := Int.lt_ceil.mpr (by push_cast; linarith)
    omega

end filter

theorem binary32_unit : binary32.unit ≤ 1 / 1000000 := by
  norm_num [binary32, Rounding.nearestEven]

end ThyristorController
