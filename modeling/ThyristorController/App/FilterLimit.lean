import ThyristorController.App.Controller
import ThyristorController.Lib.Smoothing

/-!
# Where the filter comes to rest

`read_knob_vol_entry` truncates the filtered voltage and feeds it back as `last_voltage`. Read with the exact factor
1/10, this is the recursion of `Lib/Smoothing` with `k = 9`: a voltage that is sampled over and over again is followed
from above all the way, but from below the filtered value stops nine units short of it. A set-point in this band does
not end a charge (`stop_reached_iff`).
-/

namespace ThyristorController

open RatFloat Smoothing

/-- The two sampling loops of an iteration of `read_knob_vol_entry`, which leave `adc_voltage` and `last_voltage`
equal. -/
def sampleLoops (R : Rounding) (raw : Fin 7 → Fin 4096) (lastVoltage : Fin 7 → Int) : Fin 7 → Int :=
  fun i => lowPass R (convert i (raw i)) (lastVoltage i)

/-- `last_voltage` before iteration `n`, where iteration `n` reads `raws n`. -/
def lastVoltageAt (R : Rounding) (raws : Nat → Fin 7 → Fin 4096) (lastVoltage : Fin 7 → Int) : Nat → Fin 7 → Int
  | 0 => lastVoltage
  | n + 1 => sampleLoops R (raws n) (lastVoltageAt R raws lastVoltage n)

/-- `adc_voltage` as iteration `n` tests it. -/
def adcVoltageAt (R : Rounding) (raws : Nat → Fin 7 → Fin 4096) (lastVoltage : Fin 7 → Int) (n : Nat) : Fin 7 → Int :=
  sampleLoops R (raws n) (lastVoltageAt R raws lastVoltage n)

theorem readKnobVolEntry_sample (raw : Fin 7 → Fin 4096) {s : State} (hpc : s.adcPc = .sample) :
    readKnobVolEntry raw s =
      { s with
        adcVoltage := sampleLoops binary32 raw s.lastVoltage
        lastVoltage := sampleLoops binary32 raw s.lastVoltage
        adcPc := .testRecord } := by
  simp only [readKnobVolEntry, hpc]
  rfl

theorem lowPass_exact {adc last : Int} (hsum : 0 ≤ adc + 9 * last) : lowPass .exact adc last = smooth 9 adc last := by
  have hvalue : lowPassValue .exact adc last = ((adc + 9 * last : Int) : ℚ) / ((10 : Nat) : ℚ) := by
    simp only [lowPassValue, Rounding.exact, id_eq]
    push_cast
    ring
  have hpos : (0 : ℚ) ≤ ((adc + 9 * last : Int) : ℚ) := by exact_mod_cast hsum
  rw [lowPass, hvalue, ratTrunc_of_nonneg (by positivity), Rat.floor_intCast_div_natCast]
  rfl

theorem smooth_nonneg {adc last : Int} (ha : 0 ≤ adc) (hl : 0 ≤ last) : 0 ≤ smooth 9 adc last := by
  unfold smooth
  omega

section stop

variable {raws : Nat → Fin 7 → Fin 4096} {lastVoltage : Fin 7 → Int} {r : Fin 4096} {s : Int}

theorem lastVoltageAt_eq {i : Fin 7} (hraws : ∀ n, raws n i = r) (hlast : 0 ≤ lastVoltage i) (n : Nat) :
    lastVoltageAt .exact raws lastVoltage n i = (smooth 9 (convert i r))^[n] (lastVoltage i) ∧
      0 ≤ lastVoltageAt .exact raws lastVoltage n i := by
  have hadc := (convert_range i r).1
  induction n with
  | zero => exact ⟨rfl, hlast⟩
  | succ n ih =>
    obtain ⟨heq, hnonneg⟩ := ih
    have hstep : lastVoltageAt .exact raws lastVoltage (n + 1) i =
        smooth 9 (convert i r) (lastVoltageAt .exact raws lastVoltage n i) := by
      rw [lastVoltageAt, sampleLoops, hraws n]
      exact lowPass_exact (by omega)
    refine ⟨?_, ?_⟩
    · rw [hstep, heq, Function.iterate_succ_apply']
    · rw [hstep]
      exact smooth_nonneg hadc hnonneg

/-- A set-point up to the converted sample is reached exactly if the filter starts there, or if the sample is above it
by nine units. -/
theorem stop_reached_iff (hlast : 0 ≤ lastVoltage 1) (hraws : ∀ n, raws n 1 = r)
    (hr : s ≤ (r.val * 330 / 4096 : Nat)) :
    (∃ n, s ≤ adcVoltageAt .exact raws lastVoltage n 1) ↔
      s ≤ lastVoltage 1 ∨ s + 9 ≤ (r.val * 330 / 4096 : Nat) := by
  have hconvert : convert 1 r = (r.val * 330 / 4096 : Nat) := convert_eq 1 r
  have hiterate : ∀ n, adcVoltageAt .exact raws lastVoltage n 1 = (smooth 9 (convert 1 r))^[n + 1] (lastVoltage 1) :=
    fun n => (lastVoltageAt_eq hraws hlast (n + 1)).1
  rw [← hconvert] at hr ⊢
  simp only [hiterate]
  rw [reaches_iff (by norm_num) hr, le_limit_iff hr]

/-- A voltage 22 above the set-point ends the charge. -/
theorem stop_reached_300 : (∃ n, 300 ≤ adcVoltageAt .exact (fun _ _ => 4000) (fun _ => 0) n 1) ↔
    (300 : Int) ≤ 0 ∨ (300 : Int) + 9 ≤ ((4000 : Fin 4096).val * 330 / 4096 : Nat) :=
  stop_reached_iff (le_refl 0) (fun _ => rfl) (by decide)

/-- The greatest voltage that can be sampled is not reached from 0. -/
theorem stop_not_reached : (329 : Int) ≤ ((4095 : Fin 4096).val * 330 / 4096 : Nat) ∧
    ¬ ∃ n, 329 ≤ adcVoltageAt .exact (fun _ _ => 4095) (fun _ => 0) n 1 := by
  refine ⟨by decide, ?_⟩
  rintro ⟨n, hn⟩
  have heq : adcVoltageAt .exact (fun _ _ => 4095) (fun _ => 0) n 1 = (smooth 9 (convert 1 4095))^[n + 1] 0 :=
    (@lastVoltageAt_eq (fun _ _ => 4095) (fun _ => 0) 4095 1 (fun _ => rfl) (le_refl 0) (n + 1)).1
  have hle := iterate_le (k := 9) (v := 0) (by norm_num) (convert_range 1 4095).1 (n + 1)
  rw [heq] at hn
  rw [convert_max] at hn hle
  have hlimit : limit 9 329 0 = 320 := by decide
  omega

end stop

end ThyristorController
