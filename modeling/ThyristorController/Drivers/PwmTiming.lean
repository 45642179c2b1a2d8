import ThyristorController.Drivers.Pwm
import ThyristorController.Lib.Prescale
import Mathlib.Algebra.Order.Ring.Abs
import Mathlib.Algebra.Order.Ring.Int

/-!
# What `drv_pwm_set` programs and `drv_pwm_get` reads back

The prescaler and the auto-reload of `drv_pwm_set` are the divider and the ticks of `Lib/Prescale` for the period in
timer clocks; the minimum of three ticks is the only exception. So the registers are in range and what is lost is less
than a tick (`drvPwmSet_registers`). `drv_pwm_get` multiplies them again, in 32 bits: it reads back what was set if the
product does not wrap (`drvPwmGet_drvPwmSet_iff`).
-/

namespace ThyristorController

open Prescale

/-- A time in timer clocks. -/
def timerClocks (timClock time : Nat) : Nat := time * timClock / 1000

section registers

variable {timClock period pulse : Nat}

theorem timerClocks_lt (hclk : timClock ≤ 168) (hperiod : period < 2 ^ 32) :
    timerClocks timClock period < 721554506 := by
  have hmul : period * timClock ≤ 4294967295 * 168 := Nat.mul_le_mul (by omega) hclk
  rw [timerClocks, Nat.div_lt_iff_lt_mul (by decide)]
  omega

theorem programmedPsc_eq (hclk : timClock ≤ 168) (hperiod : period < 2 ^ 32) :
    programmedPsc timClock period + 1 = divider maxPeriod (timerClocks timClock period) := by
  have hlt := timerClocks_lt hclk hperiod
  have hmod : timerClocks timClock period % 2 ^ 32 = timerClocks timClock period := Nat.mod_eq_of_lt (by omega)
  exact congrArg (fun n => n / maxPeriod + 1) hmod

theorem programmedTicks_eq (hclk : timClock ≤ 168) (hperiod : period < 2 ^ 32) :
    programmedTicks timClock period = max (ticks maxPeriod (timerClocks timClock period)) minPeriod := by
  have hlt := timerClocks_lt hclk hperiod
  have hmod : period * timClock / 1000 % 2 ^ 32 = timerClocks timClock period := Nat.mod_eq_of_lt (by
    rw [timerClocks] at hlt
    omega)
  rw [programmedTicks, programmedPsc_eq hclk hperiod, hmod, ticks]
  split_ifs <;> omega

theorem pulseTicks_eq (hclk : timClock ≤ 168) (hpulse : pulse < 2 ^ 32) (psc : Nat) :
    pulse * timClock / psc / 1000 % 2 ^ 32 = timerClocks timClock pulse / psc := by
  have hlt := timerClocks_lt hclk hpulse
  have hle : timerClocks timClock pulse / psc ≤ timerClocks timClock pulse := Nat.div_le_self _ _
  rw [Nat.div_right_comm, Nat.mod_eq_of_lt]
  · rfl
  · rw [timerClocks] at hle hlt
    omega

variable {tim : Tim} {c : PwmConfiguration}

theorem drvPwmSet_psc (hclk : timClock ≤ 168) (hperiod : c.period < 2 ^ 32) :
    (drvPwmSet timClock tim c).psc + 1 = divider maxPeriod (timerClocks timClock c.period) := by
  rw [drvPwmSet_eq]
  exact programmedPsc_eq hclk hperiod

theorem drvPwmSet_arr (hclk : timClock ≤ 168) (hperiod : c.period < 2 ^ 32) :
    (drvPwmSet timClock tim c).arr + 1 = max (ticks maxPeriod (timerClocks timClock c.period)) 3 := by
  rw [drvPwmSet_eq]
  dsimp only
  rw [programmedTicks_eq hclk hperiod, minPeriod]
  omega

theorem drvPwmSet_compare (hclk : timClock ≤ 168) (hperiod : c.period < 2 ^ 32) (hpulse : c.pulse < 2 ^ 32) :
    (drvPwmSet timClock tim c).ccr (compareReg (halChannel c.channel)) + 1 =
      min (max (timerClocks timClock c.pulse / divider maxPeriod (timerClocks timClock c.period)) 1)
        (max (ticks maxPeriod (timerClocks timClock c.period)) 3) := by
  rw [drvPwmSet_eq]
  dsimp only
  rw [Function.update_self, programmedCompare, programmedPsc_eq hclk hperiod, pulseTicks_eq hclk hpulse,
    programmedTicks_eq hclk hperiod, minPulse, minPeriod]
  split_ifs <;> omega

end registers

/-- The registers of a call are in range, a pulse of 0 turns the output off, and without the minimum of three ticks a
pulse of the whole period turns it on and the period that is programmed is the one asked for, less a part of a tick. -/
theorem drvPwmSet_registers {hz : Nat} (hhz : 1000000 ≤ hz ∧ hz ≤ 168000000) (tim : Tim) {c : PwmConfiguration}
    (hperiod : c.period < 2 ^ 32) (hpulse : c.pulse < 2 ^ 32) :
    let timClock := hz / 1000000
    let after := drvPwmSet timClock tim c
    let compare := after.ccr (compareReg (halChannel c.channel))
    let clocks := c.period * timClock / 1000
    after.psc ≤ 65535 ∧ (2 ≤ after.arr ∧ after.arr ≤ 65534) ∧ compare ≤ after.arr ∧ (c.pulse = 0 → compare = 0) ∧
      (3 ≤ clocks / (after.psc + 1) →
        (c.period ≤ c.pulse → compare = after.arr) ∧ (after.psc + 1) * (after.arr + 1) ≤ clocks ∧
          clocks - (after.psc + 1) * (after.arr + 1) < after.psc + 1) := by
  intro timClock after compare clocks
  have hclk : timClock ≤ 168 := by omega
  have hpsc : after.psc + 1 = divider maxPeriod clocks := drvPwmSet_psc hclk hperiod
  have harr : after.arr + 1 = max (ticks maxPeriod clocks) 3 := drvPwmSet_arr hclk hperiod
  have hcompare : compare + 1 =
      min (max (timerClocks timClock c.pulse / divider maxPeriod clocks) 1) (max (ticks maxPeriod clocks) 3) :=
    drvPwmSet_compare hclk hperiod hpulse
  have hclocks : clocks < 721554506 := timerClocks_lt hclk hperiod
  have hticks : ticks maxPeriod clocks < 65535 := ticks_lt (by decide)
  have hdivider : divider maxPeriod clocks = clocks / 65535 + 1 := rfl
  refine ⟨by omega, by omega, by omega, ?_, ?_⟩
  · intro hzero
    have hnone : timerClocks timClock c.pulse = 0 := by rw [timerClocks, hzero, Nat.zero_mul, Nat.zero_div]
    rw [hnone, Nat.zero_div] at hcompare
    omega
  · intro hmin
    rw [hpsc] at hmin ⊢
    have hsame : max (ticks maxPeriod clocks) 3 = ticks maxPeriod clocks := Nat.max_eq_left hmin
    rw [hsame] at harr hcompare
    have hle := divider_mul_ticks_le (m := maxPeriod) (T := clocks)
    have hlt := lt_divider_mul_ticks (m := maxPeriod) (T := clocks)
    rw [harr]
    refine ⟨?_, hle, by omega⟩
    intro hfull
    have hmono : ticks maxPeriod clocks ≤ timerClocks timClock c.pulse / divider maxPeriod clocks :=
      Nat.div_le_div_right (Nat.div_le_div_right (Nat.mul_le_mul_right _ hfull))
    omega

/-- The period of the controller, with the output on all the time. -/
theorem drvPwmSet_registers_run :
    let after := drvPwmSet 168 ⟨0, 0, 0, fun _ => 0⟩ ⟨1, 20000000, 20000000⟩
    after.ccr .ccr1 = after.arr ∧ (after.psc + 1) * (after.arr + 1) ≤ 3360000 := by
  have h := @drvPwmSet_registers 168000000 (by decide) ⟨0, 0, 0, fun _ => 0⟩ ⟨1, 20000000, 20000000⟩
    (by decide) (by decide)
  have hmin := h.2.2.2.2 (by decide)
  exact ⟨hmin.1 (le_refl _), hmin.2.1⟩

/-! ## Reading back -/

section readBack

variable {timClock divider count time clocks : Nat}

theorem abs_sub_mul (n m : Int) (timClock : Nat) : |n - m| * timClock = |n * timClock - m * timClock| := by
  rw [← sub_mul, abs_mul, Nat.abs_cast]

theorem readBack_near (hclk : 1 ≤ timClock ∧ timClock ≤ 168) (hdivider : 1 ≤ divider)
    (hwrap : count * divider * 1000 < 2 ^ 32)
    (hnear : count * divider * 1000 ≤ time * timClock + 1000 * divider ∧
      time * timClock < count * divider * 1000 + 1000 * divider) :
    |((count * divider * 1000 % 2 ^ 32 / timClock : Nat) : Int) - time| * timClock ≤ 2 * (divider * 1000 : Nat) := by
  rw [Nat.mod_eq_of_lt hwrap, abs_sub_mul, abs_le]
  obtain ⟨product, hproduct⟩ : ∃ product, count * divider * 1000 = product := ⟨_, rfl⟩
  rw [hproduct] at hnear ⊢
  have hle : product / timClock * timClock ≤ product := Nat.div_mul_le_self _ _
  have hlt : product < product / timClock * timClock + timClock := Nat.lt_div_mul_add hclk.1
  rw [← Int.natCast_mul, ← Int.natCast_mul]
  omega

theorem readBack_wraps (hdivider : divider ≤ 11011) (hwrap : 2 ^ 32 ≤ count * divider * 1000)
    (hle : count * divider * 1000 ≤ time * timClock) :
    2 * ((divider * 1000 : Nat) : Int) <
      |((count * divider * 1000 % 2 ^ 32 / timClock : Nat) : Int) - time| * timClock := by
  rw [abs_sub_mul, lt_abs]
  right
  obtain ⟨product, hproduct⟩ : ∃ product, count * divider * 1000 = product := ⟨_, rfl⟩
  rw [hproduct] at hwrap hle ⊢
  have hread : product % 2 ^ 32 / timClock * timClock ≤ product % 2 ^ 32 := Nat.div_mul_le_self _ _
  rw [← Int.natCast_mul, ← Int.natCast_mul]
  omega

theorem product_fits_iff :
    ticks maxPeriod clocks * Prescale.divider maxPeriod clocks * 1000 < 2 ^ 32 ↔ clocks < 4295016 := by
  have hle := divider_mul_ticks_le (m := maxPeriod) (T := clocks)
  have hlt := lt_divider_mul_ticks (m := maxPeriod) (T := clocks)
  have hdivider : Prescale.divider maxPeriod clocks = clocks / 65535 + 1 := rfl
  rw [Nat.mul_comm (ticks maxPeriod clocks)]
  -- the bound lies among the periods with the divider 66
  by_cases h66 : Prescale.divider maxPeriod clocks = 66
  · rw [h66] at hle hlt ⊢
    omega
  · generalize Prescale.divider maxPeriod clocks * ticks maxPeriod clocks = product at hle hlt ⊢
    omega

theorem ticks_near (hdivider : 0 < divider) :
    timerClocks timClock time / divider * divider * 1000 ≤ time * timClock ∧
      time * timClock < timerClocks timClock time / divider * divider * 1000 + 1000 * divider := by
  have hle : timerClocks timClock time / divider * divider ≤ timerClocks timClock time := Nat.div_mul_le_self _ _
  have hlt := Nat.lt_div_mul_add (a := timerClocks timClock time) hdivider
  generalize timerClocks timClock time / divider * divider = product at hle hlt ⊢
  rw [timerClocks] at hle hlt
  omega

end readBack

theorem three_le_ticks {clocks : Nat} (hthree : 3 ≤ clocks) : 3 ≤ ticks maxPeriod clocks := by
  have hmin := min_le_ticks (m := maxPeriod) (T := clocks) (by decide)
  have hhalf : maxPeriod / 2 = 32767 := rfl
  omega

theorem drvPwmGet_drvPwmSet_eq {timClock : Nat} (hclk : timClock ≤ 168) (tim : Tim) {c : PwmConfiguration}
    (hperiod : c.period < 2 ^ 32) (hpulse : c.pulse ≤ c.period) (hthree : 3 ≤ timerClocks timClock c.period)
    (period pulse : Nat) :
    drvPwmGet (timClock * 1000000) .div1 (drvPwmSet timClock tim c) { c with period := period, pulse := pulse } =
      { c with
        period := ticks maxPeriod (timerClocks timClock c.period) *
          divider maxPeriod (timerClocks timClock c.period) * 1000 % 2 ^ 32 / timClock
        pulse := max (timerClocks timClock c.pulse / divider maxPeriod (timerClocks timClock c.period)) 1 *
          divider maxPeriod (timerClocks timClock c.period) * 1000 % 2 ^ 32 / timClock } := by
  have hmhz : timClock * 1000000 / 1000000 = timClock := Nat.mul_div_cancel _ (by decide)
  have hmono : timerClocks timClock c.pulse / divider maxPeriod (timerClocks timClock c.period) ≤
      ticks maxPeriod (timerClocks timClock c.period) :=
    Nat.div_le_div_right (Nat.div_le_div_right (Nat.mul_le_mul_right _ hpulse))
  have hticks := three_le_ticks hthree
  simp only [drvPwmGet, hmhz, drvPwmSet_psc hclk hperiod, drvPwmSet_arr hclk hperiod,
    drvPwmSet_compare hclk hperiod (lt_of_le_of_lt hpulse hperiod)]
  rw [Nat.max_eq_left hticks, Nat.min_eq_left (by omega)]

/-- `drv_pwm_get` behind `drv_pwm_set` finds the period and the pulse to within two prescaled ticks exactly if the
period is shorter than 4295016 timer clocks. -/
theorem drvPwmGet_drvPwmSet_iff {timClock : Nat} (hclk : 1 ≤ timClock ∧ timClock ≤ 168) (tim : Tim)
    {c : PwmConfiguration} (hperiod : c.period < 2 ^ 32) (hpulse : c.pulse ≤ c.period)
    (hthree : 3 * 1000 ≤ c.period * timClock) (period pulse : Nat) :
    let after := drvPwmSet timClock tim c
    let got := drvPwmGet (timClock * 1000000) .div1 after { c with period := period, pulse := pulse }
    let tick := (after.psc + 1) * 1000
    (|(got.period : Int) - c.period| * timClock ≤ 2 * tick ∧ |(got.pulse : Int) - c.pulse| * timClock ≤ 2 * tick) ↔
      c.period * timClock < 4295016 * 1000 := by
  intro after got tick
  have hpsc : after.psc + 1 = _ := drvPwmSet_psc hclk.2 hperiod
  have hlong := timerClocks_lt hclk.2 hperiod
  have hthree' : 3 ≤ timerClocks timClock c.period := (Nat.le_div_iff_mul_le (by decide)).mpr hthree
  have hgot : got = _ := drvPwmGet_drvPwmSet_eq hclk.2 tim hperiod hpulse hthree' period pulse
  have htick : tick = divider maxPeriod (timerClocks timClock c.period) * 1000 := congrArg (· * 1000) hpsc
  have hlimit : c.period * timClock < 4295016 * 1000 ↔ timerClocks timClock c.period < 4295016 := by
    rw [timerClocks, Nat.div_lt_iff_lt_mul (by decide)]
  rw [hgot, hlimit, ← product_fits_iff, htick]
  dsimp only
  have hdivider : divider maxPeriod (timerClocks timClock c.period) = timerClocks timClock c.period / 65535 + 1 := rfl
  have hpos := divider_pos (m := maxPeriod) (T := timerClocks timClock c.period)
  have hperiodNear := @ticks_near timClock _ c.period hpos
  have hpulseNear := @ticks_near timClock _ c.pulse hpos
  constructor
  · rintro ⟨hnear, -⟩
    by_contra hwrap
    have hfar := @readBack_wraps timClock (divider maxPeriod (timerClocks timClock c.period)) _ _
      (by omega) (not_lt.mp hwrap) hperiodNear.1
    omega
  · intro hfits
    refine ⟨readBack_near hclk hpos hfits ?_, readBack_near hclk hpos ?_ ?_⟩
    · exact ⟨Nat.le_add_right_of_le hperiodNear.1, hperiodNear.2⟩
    · have hmono : timerClocks timClock c.pulse / divider maxPeriod (timerClocks timClock c.period) ≤
          ticks maxPeriod (timerClocks timClock c.period) :=
        Nat.div_le_div_right (Nat.div_le_div_right (Nat.mul_le_mul_right _ hpulse))
      have hone := three_le_ticks hthree'
      exact lt_of_le_of_lt (Nat.mul_le_mul_right _ (Nat.mul_le_mul_right _ (by omega))) hfits
    · -- a pulse below one tick is programmed as one tick
      rcases Nat.eq_zero_or_pos (timerClocks timClock c.pulse / divider maxPeriod (timerClocks timClock c.period))
        with hzero | hpos'
      · rw [hzero, Nat.zero_mul, Nat.zero_mul, Nat.zero_add] at hpulseNear
        rw [hzero, Nat.max_eq_right (Nat.zero_le 1), Nat.one_mul, Nat.mul_comm _ 1000]
        exact ⟨Nat.le_add_left _ _, Nat.lt_add_right _ hpulseNear.2⟩
      · rw [Nat.max_eq_left hpos']
        exact ⟨Nat.le_add_right_of_le hpulseNear.1, hpulseNear.2⟩

/-- The period of the controller, with its pulse. -/
theorem drvPwmGet_drvPwmSet_run :
    let got := drvPwmGet (168 * 1000000) .div1 (drvPwmSet 168 ⟨0, 0, 0, fun _ => 0⟩ ⟨1, 20000000, 2000000⟩) ⟨1, 0, 0⟩
    |(got.period : Int) - 20000000| * 168 ≤ 2 * 52000 ∧ |(got.pulse : Int) - 2000000| * 168 ≤ 2 * 52000 :=
  (drvPwmGet_drvPwmSet_iff (by decide) ⟨0, 0, 0, fun _ => 0⟩ (c := ⟨1, 20000000, 2000000⟩) (by decide) (by decide)
    (by decide) 0 0).mpr (by decide)

/-- A period of 100 ms at 168 MHz is read back as 23 ms. -/
theorem long_period_read_wrong :
    let after := drvPwmSet 168 ⟨0, 0, 0, fun _ => 0⟩ ⟨1, 100000000, 50000000⟩
    let got := drvPwmGet (168 * 1000000) .div1 after ⟨1, 0, 0⟩
    got.period = 23303161 ∧ ¬ |(got.period : Int) - 100000000| * 168 ≤ 2 * ((after.psc + 1) * 1000) := by
  decide

end ThyristorController
