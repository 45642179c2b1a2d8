import ThyristorController.Lib.Rounding
import ThyristorController.Lib.FirstRise

/-!
# Hardware timers (`components/drivers/hwtimer/hwtimer.c`)

A timeout is made of `cycles` periods of a counter of at most `maxcnt` ticks. `timeout_calc` tries one number of cycles
after the other and looks for the least error; it computes in `float`, written here over a `Rounding`. With exact
arithmetic its loop is the search of `Lib/FirstRise`, with the bound of one second for the error. `timeoutCalc_iff` says
which requests it splits.
-/

namespace ThyristorController.Hwtimers

open RatFloat

/-! ## The device -/

inductive CntMode where
  | up | dw
deriving DecidableEq

inductive HwtimerMode where
  | oneshot | period
deriving DecidableEq

/-- `struct rt_hwtimer_info`. -/
structure RtHwtimerInfo where
  maxfreq : Int
  minfreq : Int
  maxcnt : Nat
  cntmode : CntMode

/-- Which of the operations a driver has. -/
structure RtHwtimerOps where
  start : Bool
  stop : Bool
  countGet : Bool

/-- `struct rt_hwtimerval`. -/
structure RtHwtimerval where
  sec : Int
  usec : Int
deriving DecidableEq

/-- `struct rt_hwtimer_device`; `rxIndicate` is whether a callback is set. -/
structure RtHwtimer where
  ops : RtHwtimerOps
  info : RtHwtimerInfo
  freq : Int
  overflow : Int
  periodSec : ℚ
  cycles : Int
  reload : Int
  mode : HwtimerMode
  rxIndicate : Bool

/-! ## Splitting a timeout -/

/-- A `float` stored in an `rt_uint32_t`; a value out of range is undefined. -/
def toUint32 (x : ℚ) : Option Nat :=
  if 0 ≤ ratTrunc x ∧ ratTrunc x < 2 ^ 32 then some (ratTrunc x).toNat else none

/-- The loop of `timeout_calc`: `i` and `timeout` behind it. The first argument is how often `i ++` is defined; a
division by `index = 0` has no value that an integer could hold. -/
def searchLoop (R : Rounding) (freq overflow tvSec : ℚ) : Nat → Nat → ℚ → Nat → Option (Nat × ℚ)
  | 0, _, _, _ => none
  | n + 1, i, deviMin, index =>
    let timeout := R.rnd (tvSec / R.rnd i)
    if timeout ≤ overflow then do
      let counter ← toUint32 (R.rnd (timeout * freq))
      let devi := R.rnd (tvSec - R.rnd (R.rnd (R.rnd counter / freq) * R.rnd i))
      if devi > deviMin then
        if index = 0 then none else some (index, R.rnd (tvSec / R.rnd index))
      else if devi = 0 then some (i, timeout)
      else if devi < deviMin then searchLoop R freq overflow tvSec n (i + 1) devi i
      else searchLoop R freq overflow tvSec n (i + 1) deviMin index
    else searchLoop R freq overflow tvSec n (i + 1) deviMin index

/-- `INT_MAX`. -/
def intMax : Nat := 2147483647

/-- `tv->sec + tv->usec/(float)1000000`. -/
def tvSeconds (R : Rounding) (tv : RtHwtimerval) : ℚ := R.rnd (R.rnd tv.sec + R.rnd (R.rnd tv.usec / 1000000))

/-- `timeout_calc`: the timer and the counter. -/
def timeoutCalc (R : Rounding) (timer : RtHwtimer) (tv : RtHwtimerval) : Option (RtHwtimer × Nat) := do
  let freq := R.rnd timer.freq
  let overflow := R.rnd (R.rnd timer.info.maxcnt / freq)
  let tvSec := tvSeconds R tv
  let (i, timeout) ←
    if tvSec < R.rnd (1 / freq) then some (0, R.rnd (1 / freq)) else searchLoop R freq overflow tvSec intMax 1 1 0
  let counter ← toUint32 (R.rnd (timeout * freq))
  some ({ timer with cycles := i, reload := i, periodSec := timeout }, counter)

/-- A call of `ops->start`. -/
structure StartCall where
  cnt : Nat
  mode : HwtimerMode

/-- `rt_hwtimer_write` of a whole time value; `startOk` is whether `ops->start` succeeds. The result is the timer, the
size and the call of `ops->start`. -/
def rtHwtimerWrite (R : Rounding) (timer : RtHwtimer) (tv : RtHwtimerval) (size : Nat) (startOk : Bool) :
    Option (RtHwtimer × Nat × Option StartCall) :=
  if timer.ops.start = false ∨ timer.ops.stop = false then some (timer, 0, none)
  else if size ≠ 8 then some (timer, 0, none)
  else do
    let (timer, t) ← timeoutCalc R { timer with overflow := 0 } tv
    let opm := if timer.cycles ≤ 1 ∧ timer.mode = .oneshot then .oneshot else .period
    some (timer, if startOk then size else 0, some ⟨t, opm⟩)

/-- `rt_device_hwtimer_isr`: the timer, and whether it stops the counter and calls the callback. -/
def rtDeviceHwtimerIsr (timer : RtHwtimer) : RtHwtimer × Bool × Bool :=
  let timer := { timer with overflow := timer.overflow + 1 }
  let timer := if timer.cycles ≠ 0 then { timer with cycles := timer.cycles - 1 } else timer
  if timer.cycles = 0 then
    ({ timer with cycles := timer.reload }, decide (timer.mode = .oneshot) && timer.ops.stop, timer.rxIndicate)
  else (timer, false, false)

/-- A `float` stored in an `rt_int32_t`. -/
def toInt32 (x : ℚ) : Option Int :=
  if -2 ^ 31 ≤ ratTrunc x ∧ ratTrunc x < 2 ^ 31 then some (ratTrunc x) else none

/-- `rt_hwtimer_read` into a buffer of `size` bytes: the size and the time value; `cnt` is what `ops->count_get`
returns. -/
def rtHwtimerRead (R : Rounding) (timer : RtHwtimer) (cnt size : Nat) : Option (Nat × Option RtHwtimerval) :=
  if timer.ops.countGet = false then some (0, none)
  else do
    let freq := R.rnd timer.freq
    let cnt ←
      if timer.info.cntmode = .dw then toUint32 (R.rnd (R.rnd (freq * timer.periodSec) - R.rnd cnt)) else some cnt
    let t := R.rnd (R.rnd (R.rnd timer.overflow * timer.periodSec) + R.rnd (R.rnd cnt / freq))
    let sec ← toInt32 t
    let usec ← toInt32 (R.rnd (R.rnd (t - R.rnd sec) * 1000000))
    some (min size 8, some ⟨sec, usec⟩)

/-! ## The loop with exact arithmetic -/

/-- What `i` periods of whole ticks leave of a number of ticks. -/
def leftOver (ticks : ℚ) (i : Nat) : ℚ := ticks - i * ⌊ticks / i⌋

/-- The period of `i` cycles fits into the counter. -/
def Fits (ticks : ℚ) (maxcnt i : Nat) : Prop := ticks / i ≤ maxcnt

instance (ticks : ℚ) (maxcnt i : Nat) : Decidable (Fits ticks maxcnt i) := inferInstanceAs (Decidable (_ ≤ _))

section loop

variable {ticks freq : ℚ} {maxcnt n i index : Nat} {deviMin : ℚ}

theorem floor_toNat_cast {x : ℚ} (hx : 0 ≤ x) : ((⌊x⌋.toNat : Nat) : ℚ) = ⌊x⌋ := by
  exact_mod_cast congrArg (Int.cast (R := ℚ)) (Int.toNat_of_nonneg (Int.floor_nonneg.mpr hx))

theorem toUint32_of_le {x : ℚ} (hx : 0 ≤ x) (hle : x ≤ maxcnt) (hmax : maxcnt < 2 ^ 32) :
    toUint32 x = some ⌊x⌋.toNat := by
  have hfloor : ⌊x⌋ ≤ (maxcnt : Int) := by exact_mod_cast Int.floor_le_floor hle
  have hpow : (2 : Int) ^ 32 = 4294967296 := by norm_num
  rw [toUint32, ratTrunc_of_nonneg hx, if_pos ⟨Int.floor_nonneg.mpr hx, by omega⟩]

theorem searchLoop_exact (hfreq : 0 < freq) (hticks : 0 ≤ ticks) (hmax : maxcnt < 2 ^ 32) (hi : 1 ≤ i) :
    searchLoop .exact freq (maxcnt / freq) (ticks / freq) n i deviMin index =
      (FirstRise.search (Fits ticks maxcnt) (fun i => leftOver ticks i / freq) n i deviMin
        (if index = 0 then none else some index)).join.map fun k : Nat => (k, ticks / freq / k) := by
  induction n generalizing i deviMin index with
  | zero => rfl
  | succ n ih =>
    have hi0 : (0 : ℚ) < i := by exact_mod_cast hi
    have htimeout : ticks / freq / i = ticks / i / freq := div_right_comm _ _ _
    have hback : ticks / i / freq * freq = ticks / i := div_mul_cancel₀ _ hfreq.ne'
    have hfits : ticks / i / freq ≤ maxcnt / freq ↔ Fits ticks maxcnt i := div_le_div_iff_of_pos_right hfreq
    have hindex : (if i = 0 then none else some i) = some i := if_neg (by omega)
    have hnext (d : ℚ) (k : Nat) := @ih (i + 1) k d (by omega)
    rw [searchLoop, FirstRise.search]
    simp only [Rounding.exact_rnd, htimeout, hback, hfits]
    by_cases hfit : Fits ticks maxcnt i
    · have hnonneg : 0 ≤ ticks / i := div_nonneg hticks hi0.le
      have hdevi : ticks / freq - ⌊ticks / i⌋ / freq * i = leftOver ticks i / freq := by
        rw [leftOver]
        ring
      simp only [if_pos hfit, toUint32_of_le hnonneg hfit hmax, Option.bind_eq_bind, Option.bind_some,
        floor_toNat_cast hnonneg, hdevi]
      by_cases hrise : deviMin < leftOver ticks i / freq
      · rw [if_pos hrise, if_pos hrise]
        split_ifs <;> rfl
      · rw [if_neg hrise, if_neg hrise]
        by_cases hzero : leftOver ticks i / freq = 0
        · rw [if_pos hzero, if_pos hzero, ← htimeout]
          rfl
        · rw [if_neg hzero, if_neg hzero]
          by_cases hless : leftOver ticks i / freq < deviMin
          · rw [if_pos hless, if_pos hless, hnext, hindex]
          · rw [if_neg hless, if_neg hless, hnext]
    · simp only [if_neg hfit]
      exact hnext _ _

theorem leftOver_eq (hi : 1 ≤ i) : leftOver ticks i = i * Int.fract (ticks / i) := by
  have hi0 : (i : ℚ) ≠ 0 := by exact_mod_cast Nat.ne_of_gt hi
  rw [leftOver, Int.fract, mul_sub, mul_div_cancel₀ _ hi0]

theorem leftOver_nonneg (hticks : 0 ≤ ticks) (i : Nat) : 0 ≤ leftOver ticks i := by
  rcases Nat.eq_zero_or_pos i with rfl | hi
  · simpa [leftOver]
  · rw [leftOver_eq hi]
    exact mul_nonneg (Nat.cast_nonneg i) (Int.fract_nonneg _)

theorem leftOver_lt (hi : 1 ≤ i) : leftOver ticks i < i := by
  have hi0 : (0 : ℚ) < i := by exact_mod_cast hi
  rw [leftOver_eq hi]
  exact mul_lt_of_lt_one_right hi0 (Int.fract_lt_one _)

theorem leftOver_of_lt (hticks : 0 ≤ ticks) (hi : ticks < i) : leftOver ticks i = ticks := by
  have hi0 : (0 : ℚ) < i := lt_of_le_of_lt hticks hi
  have hfloor : ⌊ticks / i⌋ = 0 := Int.floor_eq_zero_iff.mpr ⟨div_nonneg hticks hi0.le, (div_lt_one hi0).mpr hi⟩
  rw [leftOver, hfloor, Int.cast_zero, mul_zero, sub_zero]

theorem Fits.mono {j : Nat} (hticks : 0 ≤ ticks) (hi : 1 ≤ i) (hij : i ≤ j) (hfits : Fits ticks maxcnt i) :
    Fits ticks maxcnt j := by
  have hi0 : (0 : ℚ) < i := by exact_mod_cast hi
  exact (div_le_div_of_nonneg_left hticks hi0 (by exact_mod_cast hij)).trans hfits

end loop

/-! ## The result -/

/-- Going up from one cycle, the first one that fits and does not leave exactly one second leaves less than one second,
and later one leaves nothing, or more than one before it. -/
def Splits (ticks : ℚ) (freq : Int) (maxcnt : Nat) : Prop :=
  ∃ i j, (1 ≤ i ∧ i ≤ j ∧ j ≤ intMax) ∧ (Fits ticks maxcnt i ∧ leftOver ticks i < freq) ∧
    (∀ k, 1 ≤ k → k < i → Fits ticks maxcnt k → leftOver ticks k = freq) ∧
    (leftOver ticks j = 0 ∨ ∃ k, i ≤ k ∧ k < j ∧ leftOver ticks k < leftOver ticks j)

section result

variable {timer : RtHwtimer} {tv : RtHwtimerval} {ticks : ℚ} {k : Nat}

/-- The search of a request. -/
def cyclesFor (ticks : ℚ) (freq : Int) (maxcnt : Nat) : Option (Option Nat) :=
  FirstRise.search (Fits ticks maxcnt) (fun i => leftOver ticks i / freq) intMax 1 1 none

theorem cyclesFor_iff (hfreq : 0 < timer.freq) (hticks : 0 ≤ ticks) :
    (∃ k, cyclesFor ticks timer.freq timer.info.maxcnt = some (some k)) ↔
      Splits ticks timer.freq timer.info.maxcnt := by
  have hpos : (0 : ℚ) < timer.freq := by exact_mod_cast hfreq
  have hnonneg : ∀ k, 0 ≤ leftOver ticks k / timer.freq := fun k => div_nonneg (leftOver_nonneg hticks k) hpos.le
  have hless : ∀ k, leftOver ticks k / timer.freq < 1 ↔ leftOver ticks k < timer.freq := fun k => div_lt_one hpos
  have hsame : ∀ k, leftOver ticks k / timer.freq = 1 ↔ leftOver ticks k = timer.freq :=
    fun k => div_eq_one_iff_eq hpos.ne'
  have hzero : ∀ k, leftOver ticks k / timer.freq = 0 ↔ leftOver ticks k = 0 := fun k => by
    simp [div_eq_zero_iff, hpos.ne']
  have hlt : ∀ k j,
      leftOver ticks k / timer.freq < leftOver ticks j / timer.freq ↔ leftOver ticks k < leftOver ticks j :=
    fun k j => div_lt_div_iff_of_pos_right hpos
  rw [cyclesFor, FirstRise.search_iff hnonneg zero_lt_one]
  constructor
  · rintro ⟨i, hi, ⟨hfits, hi1⟩, hbefore, j, hij, hj, -, hstop⟩
    refine ⟨i, j, ⟨hi, hij, by omega⟩, ⟨hfits, (hless i).mp hi1⟩,
      fun k hk hki hf => (hsame k).mp (hbefore k hk hki hf), ?_⟩
    rcases hstop with h0 | hrise | ⟨k, hk, hkj, -, hkl⟩
    · exact .inl ((hzero j).mp h0)
    · rcases Nat.eq_or_lt_of_le hij with rfl | hlt'
      · exact absurd hi1 hrise.not_gt
      · exact .inr ⟨i, le_refl i, hlt', (hlt i j).mp (hi1.trans hrise)⟩
    · exact .inr ⟨k, hk, hkj, (hlt k j).mp hkl⟩
  · rintro ⟨i, j, ⟨hi, hij, hj⟩, ⟨hfits, hi1⟩, hbefore, hstop⟩
    refine ⟨i, hi, ⟨hfits, (hless i).mpr hi1⟩, fun k hk hki hf => (hsame k).mpr (hbefore k hk hki hf), j, hij, by omega,
      hfits.mono hticks hi hij, ?_⟩
    rcases hstop with h0 | ⟨k, hk, hkj, hkl⟩
    · exact .inl ((hzero j).mpr h0)
    · exact .inr (.inr ⟨k, hk, hkj, hfits.mono hticks hi hk, (hlt k j).mpr hkl⟩)

theorem cyclesFor_result (hfreq : 0 < timer.freq) (hticks : 1 ≤ ticks)
    (hk : cyclesFor ticks timer.freq timer.info.maxcnt = some (some k)) :
    1 ≤ k ∧ Fits ticks timer.info.maxcnt k ∧ 1 ≤ ticks / k := by
  have hpos : (0 : ℚ) < timer.freq := by exact_mod_cast hfreq
  have hticks0 : (0 : ℚ) ≤ ticks := by linarith
  have hnonneg : ∀ k, 0 ≤ leftOver ticks k / timer.freq := fun k => div_nonneg (leftOver_nonneg hticks0 k) hpos.le
  obtain ⟨h, -⟩ | ⟨hk1, hfits, hbest⟩ := FirstRise.search_result zero_lt_one hnonneg hk
  · cases h
  · refine ⟨hk1, hfits, ?_⟩
    have hk0 : (0 : ℚ) < k := by exact_mod_cast hk1
    rw [one_le_div hk0]
    -- more cycles than ticks leave everything, and no later cycle leaves more
    by_contra hlt
    have hall := leftOver_of_lt hticks0 (not_le.mp hlt)
    rcases hbest with hzero | ⟨j, hkj, hless⟩
    · rw [div_eq_zero_iff, hall] at hzero
      rcases hzero with h0 | h0 <;> linarith
    · have hj : ticks < j := (not_le.mp hlt).trans (by exact_mod_cast hkj)
      rw [hall, leftOver_of_lt hticks0 hj] at hless
      exact lt_irrefl _ hless

theorem timeoutCalc_exact (hfreq : 0 < timer.freq) (hmax : timer.info.maxcnt < 2 ^ 32)
    (htv : tvSeconds .exact tv * timer.freq = ticks) (hticks : 1 ≤ ticks) :
    timeoutCalc .exact timer tv =
      (cyclesFor ticks timer.freq timer.info.maxcnt).join.map fun k : Nat =>
        ({ timer with cycles := k, reload := k, periodSec := ticks / timer.freq / k }, ⌊ticks / k⌋.toNat) := by
  have hpos : (0 : ℚ) < timer.freq := by exact_mod_cast hfreq
  have hticks0 : (0 : ℚ) ≤ ticks := by linarith
  have hseconds : tvSeconds .exact tv = ticks / timer.freq := by rw [← htv, mul_div_cancel_right₀ _ hpos.ne']
  have hlong : ¬ ticks / timer.freq < 1 / timer.freq := by
    rw [div_lt_div_iff_of_pos_right hpos]
    exact not_lt.mpr hticks
  have hloop := @searchLoop_exact ticks timer.freq timer.info.maxcnt intMax 1 0 1 hpos hticks0 hmax (le_refl 1)
  rw [if_pos rfl] at hloop
  simp only [timeoutCalc, Rounding.exact_rnd, hseconds, if_neg hlong, hloop]
  rw [← cyclesFor]
  rcases hcycles : cyclesFor ticks timer.freq timer.info.maxcnt with _ | _ | k
  · rfl
  · rfl
  · obtain ⟨hk, hfits, hperiod⟩ := cyclesFor_result hfreq hticks hcycles
    have hback : ticks / timer.freq / k * timer.freq = ticks / k := by
      rw [div_right_comm, div_mul_cancel₀ _ hpos.ne']
    simp [hback, toUint32_of_le (by linarith : (0 : ℚ) ≤ ticks / k) hfits hmax]

end result

theorem toUint32_cast_le {x : ℚ} {n : Nat} (hx : 0 ≤ x) (hn : toUint32 x = some n) : (n : ℚ) ≤ x := by
  unfold toUint32 at hn
  split_ifs at hn with hrange
  rw [← Option.some.inj hn, ratTrunc_of_nonneg hx]
  rw [floor_toNat_cast hx]
  exact Int.floor_le x

theorem searchLoop_nonneg {freq overflow tvSec timeout : ℚ} {n i index k : Nat} {deviMin : ℚ} (htv : 0 ≤ tvSec)
    (hloop : searchLoop .exact freq overflow tvSec n i deviMin index = some (k, timeout)) : 0 ≤ timeout := by
  induction n generalizing i deviMin index with
  | zero => cases hloop
  | succ n ih =>
    rw [searchLoop] at hloop
    dsimp only at hloop
    split at hloop
    · obtain ⟨counter, -, hloop⟩ := Option.bind_eq_some_iff.mp hloop
      split_ifs at hloop
      · obtain ⟨-, rfl⟩ := Prod.mk.inj (Option.some.inj hloop)
        exact div_nonneg htv (Nat.cast_nonneg _)
      · obtain ⟨-, rfl⟩ := Prod.mk.inj (Option.some.inj hloop)
        exact div_nonneg htv (Nat.cast_nonneg _)
      · exact ih hloop
      · exact ih hloop
    · exact ih hloop

/-- A split changes the times of the timer only, and its counter takes at most a period. -/
theorem timeoutCalc_period {timer timer' : RtHwtimer} {tv : RtHwtimerval} {counter : Nat} (hfreq : 0 < timer.freq)
    (hsplit : timeoutCalc .exact timer tv = some (timer', counter)) :
    timer'.ops = timer.ops ∧ timer'.info = timer.info ∧ timer'.freq = timer.freq ∧ timer'.overflow = timer.overflow ∧
      (counter : ℚ) ≤ timer'.periodSec * timer'.freq := by
  have hpos : (0 : ℚ) < timer.freq := by exact_mod_cast hfreq
  by_cases hlittle : tvSeconds .exact tv < 1 / timer.freq
  · simp only [timeoutCalc, Rounding.exact_rnd, if_pos hlittle, Option.bind_eq_bind, Option.bind_some] at hsplit
    obtain ⟨counter', hcounter, hresult⟩ := Option.bind_eq_some_iff.mp hsplit
    obtain ⟨rfl, rfl⟩ := Prod.mk.inj (Option.some.inj hresult)
    exact ⟨rfl, rfl, rfl, rfl, toUint32_cast_le (mul_nonneg (div_pos one_pos hpos).le hpos.le) hcounter⟩
  · have hnot : ¬ tvSeconds .exact tv < Rounding.exact.rnd (1 / Rounding.exact.rnd timer.freq) := hlittle
    simp only [timeoutCalc, if_neg hnot] at hsplit
    obtain ⟨⟨i, timeout⟩, hloop, hsplit⟩ := Option.bind_eq_some_iff.mp hsplit
    obtain ⟨counter', hcounter, hresult⟩ := Option.bind_eq_some_iff.mp hsplit
    obtain ⟨rfl, rfl⟩ := Prod.mk.inj (Option.some.inj hresult)
    have hnonneg := searchLoop_nonneg ((div_pos one_pos hpos).le.trans (not_lt.mp hlittle)) hloop
    exact ⟨rfl, rfl, rfl, rfl, toUint32_cast_le (mul_nonneg hnonneg hpos.le) hcounter⟩

theorem rtHwtimerWrite_started {R : Rounding} {timer timer' : RtHwtimer} {tv : RtHwtimerval} {size n : Nat}
    {startOk : Bool} {start : StartCall}
    (hwrite : rtHwtimerWrite R timer tv size startOk = some (timer', n, some start)) :
    timeoutCalc R { timer with overflow := 0 } tv = some (timer', start.cnt) := by
  unfold rtHwtimerWrite at hwrite
  by_cases hops : timer.ops.start = false ∨ timer.ops.stop = false
  · rw [if_pos hops] at hwrite
    cases hwrite
  · rw [if_neg hops] at hwrite
    by_cases hsize : size ≠ 8
    · rw [if_pos hsize] at hwrite
      cases hwrite
    · rw [if_neg hsize] at hwrite
      obtain ⟨⟨timer'', t⟩, hcalc, hresult⟩ := Option.bind_eq_some_iff.mp hwrite
      cases hresult
      exact hcalc

/-! ## When the callback comes -/

/-- The callbacks of the next interrupts. -/
def callbacks : Nat → RtHwtimer → Nat
  | 0, _ => 0
  | n + 1, timer => callbacks n (rtDeviceHwtimerIsr timer).1 + if (rtDeviceHwtimerIsr timer).2.2 then 1 else 0

theorem callbacks_eq (n : Nat) {timer : RtHwtimer} (hcallback : timer.rxIndicate = true) (hn : 1 ≤ timer.cycles)
    (hle : n ≤ timer.cycles) : callbacks n timer = if (n : Int) = timer.cycles then 1 else 0 := by
  induction n generalizing timer with
  | zero =>
    rw [if_neg (by omega)]
    rfl
  | succ n ih =>
    by_cases hlast : timer.cycles = 1
    · obtain rfl : n = 0 := by omega
      simp [callbacks, rtDeviceHwtimerIsr, hlast, hcallback]
    · have hmore : rtDeviceHwtimerIsr timer =
          ({ timer with overflow := timer.overflow + 1, cycles := timer.cycles - 1 }, false, false) := by
        have hne : timer.cycles ≠ 0 := by omega
        have hne' : ¬ timer.cycles - 1 = 0 := by omega
        simp [rtDeviceHwtimerIsr, hne, hne']
      rw [callbacks, hmore]
      dsimp only
      rw [ih (by exact hcallback) (by dsimp only; omega) (by dsimp only; omega)]
      simp only [Bool.false_eq_true, if_false, Nat.add_zero]
      split_ifs <;> omega

/-- The timer and the counter of a split meet the request: the callback comes at the requested time, or early by less
than a tick for each cycle. -/
structure Meets (timer : RtHwtimer) (tv : RtHwtimerval) (split : RtHwtimer × Nat) : Prop where
  cycles : 1 ≤ split.1.cycles
  counter : 1 ≤ split.2 ∧ split.2 ≤ timer.info.maxcnt
  notLate : (0 : ℚ) ≤ tvSeconds .exact tv - split.1.cycles * split.2 / timer.freq
  notEarly : tvSeconds .exact tv - split.1.cycles * split.2 / timer.freq < split.1.cycles / timer.freq
  callback : timer.rxIndicate = true →
    ∀ n : Nat, n ≤ split.1.cycles → callbacks n split.1 = if (n : Int) = split.1.cycles then 1 else 0

/-- A request of at least one tick is split so that it is met exactly if its search has a result. -/
theorem timeoutCalc_iff {timer : RtHwtimer} {tv : RtHwtimerval} (hfreq : 0 < timer.freq)
    (hmax : timer.info.maxcnt < 2 ^ 32) (htv : 1 / (timer.freq : ℚ) ≤ tvSeconds .exact tv) :
    (∃ split, timeoutCalc .exact timer tv = some split ∧ Meets timer tv split) ↔
      Splits (tvSeconds .exact tv * timer.freq) timer.freq timer.info.maxcnt := by
  have hpos : (0 : ℚ) < timer.freq := by exact_mod_cast hfreq
  obtain ⟨ticks, hticks⟩ : ∃ ticks, tvSeconds .exact tv * timer.freq = ticks := ⟨_, rfl⟩
  have hone : 1 ≤ ticks := by
    rw [← hticks]
    exact (div_le_iff₀ hpos).mp htv
  have hseconds : tvSeconds .exact tv = ticks / timer.freq := by rw [← hticks, mul_div_cancel_right₀ _ hpos.ne']
  have hcalc := timeoutCalc_exact hfreq hmax hticks hone
  rw [hticks, ← cyclesFor_iff hfreq (by linarith)]
  constructor
  · rintro ⟨split, hsplit, -⟩
    rw [hcalc] at hsplit
    obtain ⟨k, hk, -⟩ := Option.map_eq_some_iff.mp hsplit
    exact ⟨k, Option.join_eq_some_iff.mp hk⟩
  · rintro ⟨k, hk⟩
    obtain ⟨hk1, hfits, hperiod⟩ := cyclesFor_result hfreq hone hk
    rw [hk] at hcalc
    have hfloor : 1 ≤ ⌊ticks / k⌋ := Int.le_floor.mpr (by exact_mod_cast hperiod)
    have hcast : ((⌊ticks / k⌋.toNat : Nat) : ℚ) = ⌊ticks / k⌋ := floor_toNat_cast (zero_le_one.trans hperiod)
    have hmaxcnt : ⌊ticks / k⌋ ≤ (timer.info.maxcnt : Int) := by exact_mod_cast Int.floor_le_floor hfits
    have hleft : tvSeconds .exact tv - k * ⌊ticks / k⌋ / timer.freq = leftOver ticks k / timer.freq := by
      rw [hseconds, leftOver, sub_div]
    have hcycles : 1 ≤ (k : Int) := by exact_mod_cast hk1
    refine ⟨_, hcalc, ⟨hcycles, ⟨by dsimp only; omega, by dsimp only; omega⟩, ?_, ?_, ?_⟩⟩
    · dsimp only
      rw [hcast, Int.cast_natCast, hleft]
      exact div_nonneg (leftOver_nonneg (by linarith) k) hpos.le
    · dsimp only
      rw [hcast, Int.cast_natCast, hleft]
      exact (div_lt_div_iff_of_pos_right hpos).mpr (leftOver_lt hk1)
    · intro hcallback n hn
      exact callbacks_eq n hcallback hcycles hn

/-- The timers of the board: `drv_hwtimer.c` with `TIM_DEV_INFO_CONFIG`, at a given frequency. -/
def boardTimer (freq : Int) : RtHwtimer where
  ops := ⟨true, true, true⟩
  info := ⟨1000000, 3000, 0xFFFF, .up⟩
  freq := freq
  overflow := 0
  periodSec := 0
  cycles := 0
  reload := 0
  mode := .oneshot
  rxIndicate := true

/-- Ten milliseconds at 1 MHz. -/
theorem timeoutCalc_iff_run : ∃ split, timeoutCalc .exact (boardTimer 1000000) ⟨0, 10000⟩ = some split ∧
    Meets (boardTimer 1000000) ⟨0, 10000⟩ split := by
  have hticks : tvSeconds .exact ⟨0, 10000⟩ * (boardTimer 1000000).freq = 10000 := by
    norm_num [tvSeconds, boardTimer]
  refine (timeoutCalc_iff (by decide) (by decide) ?_).mpr ?_
  · norm_num [tvSeconds, boardTimer]
  · rw [hticks]
    refine ⟨1, 1, by decide, ⟨?_, ?_⟩, fun k hk hk1 => absurd hk (by omega), .inl ?_⟩ <;>
      norm_num [Fits, leftOver, boardTimer]

/-- Two days at 3 kHz: 8000 cycles are the first that fit, and they leave more than a second, so that the loop divides
by the index 0. -/
theorem no_split : 1 / ((boardTimer 3000).freq : ℚ) ≤ tvSeconds .exact ⟨174759, 0⟩ ∧
    ¬ ∃ split, timeoutCalc .exact (boardTimer 3000) ⟨174759, 0⟩ = some split := by
  have hticks : tvSeconds .exact ⟨174759, 0⟩ * (boardTimer 3000).freq = 524277000 := by
    norm_num [tvSeconds, boardTimer]
  have hleft : leftOver 524277000 8000 = 5000 := by
    have hfloor : ⌊(524277000 : ℚ) / (8000 : Nat)⌋ = 65534 := by
      rw [Int.floor_eq_iff]
      norm_num
    rw [leftOver, hfloor]
    norm_num
  have hnone : ¬ Splits 524277000 (boardTimer 3000).freq (boardTimer 3000).info.maxcnt := by
    rintro ⟨i, j, ⟨hi, -⟩, ⟨hfits, hless⟩, hbefore, -⟩
    have hi0 : (0 : ℚ) < i := by exact_mod_cast hi
    have hmany : 7999 < i := by
      have hq : (7999 : ℚ) < i := by
        have := (div_le_iff₀ hi0).mp hfits
        norm_num [boardTimer] at this
        linarith
      exact_mod_cast hq
    rcases Nat.eq_or_lt_of_le hmany with h8000 | h8000
    · rw [← h8000, hleft] at hless
      norm_num [boardTimer] at hless
    · have hsame := hbefore 8000 (by decide) h8000 (by norm_num [Fits, boardTimer])
      rw [hleft] at hsame
      norm_num [boardTimer] at hsame
  rw [← cyclesFor_iff (by decide) (by norm_num)] at hnone
  refine ⟨by norm_num [tvSeconds, boardTimer], ?_⟩
  rintro ⟨split, hsplit⟩
  rw [timeoutCalc_exact (by decide) (by decide) hticks (by norm_num)] at hsplit
  obtain ⟨k, hk, -⟩ := Option.map_eq_some_iff.mp hsplit
  exact hnone ⟨k, Option.join_eq_some_iff.mp hk⟩

end ThyristorController.Hwtimers
