import Mathlib.Data.Int.CardIntervalMod
import ThyristorController.Lib.Rounding

/-!
# Pulse trains (`bsp/stm32/stm32f407-baozhuang/board/ports/pulse_generate.c`)

Two timers at 1 MHz make the train of an axis. One counts the periods of the pulses; the other one runs once, and gates
the first while it counts. `gen_x_pulse`, `gen_y_pulse` and `gen_z_pulse` differ in the gate timer: only the one of the
x axis has 32 bits. `mshGenPulse_iff` says which trains have the pulses that were asked for.
-/

namespace ThyristorController.PulseGenerate

open RatFloat

/-- An `int`; an overflow is undefined. -/
def toInt (n : Int) : Option Int := if -2 ^ 31 ≤ n ∧ n < 2 ^ 31 then some n else none

/-- A `float` stored in a `uint16_t`; a value out of range is undefined. -/
def toUint16 (x : ℚ) : Option Nat :=
  if 0 ≤ ratTrunc x ∧ ratTrunc x < 2 ^ 16 then some (ratTrunc x).toNat else none

/-- The registers of a train: `ARR` and `CCR1` of the timer that counts a period, and `ARR` of the one that gates it. -/
structure Train where
  arr : Nat
  ccr1 : Nat
  gateArr : Nat
deriving DecidableEq

/-- The limit on `pulse`. -/
def limitPulse (maxPulse pulse : Int) : Int :=
  if maxPulse < pulse then maxPulse else if pulse < -maxPulse then -maxPulse else pulse

/-- `1.0f/abs(pulse)*time`; a division by zero has no value that an integer could hold. -/
def perOf (R : Rounding) (time pulse : Int) : Option Nat :=
  if pulse = 0 then none else toUint16 (R.rnd (R.rnd (1 / R.rnd pulse.natAbs) * R.rnd time))

/-- What the registers keep of `per-1`, `per/2-1` and `abs(pulse)*per-1`. -/
def registers (gateBits per : Nat) (ticks : Int) : Train where
  arr := (((per : Int) - 1) % 2 ^ 16).toNat
  ccr1 := (((per / 2 : Nat) - 1 : Int) % 2 ^ 16).toNat
  gateArr := ((ticks - 1) % 2 ^ gateBits).toNat

/-- The function of an axis, with the width of its gate timer: the value returned, and the train that is started. -/
def genAxisPulse (R : Rounding) (gateBits : Nat) (time pulse : Int) : Option (Int × Option Train) :=
  if pulse = 0 then some (0, none)
  else do
    let double ← toInt (2 * time)
    let pulse := limitPulse (double.tdiv 10) pulse
    let per ← perOf R time pulse
    let ticks ← toInt (pulse.natAbs * per : Nat)
    some (pulse, some (registers gateBits per ticks))

/-- `gen_x_pulse`: TIM3, gated by TIM5. -/
def genXPulse (R : Rounding) : Int → Int → Option (Int × Option Train) := genAxisPulse R 32

/-- `gen_y_pulse`: TIM9, gated by TIM10. -/
def genYPulse (R : Rounding) : Int → Int → Option (Int × Option Train) := genAxisPulse R 16

/-- `gen_z_pulse`: TIM12, gated by TIM13. -/
def genZPulse (R : Rounding) : Int → Int → Option (Int × Option Train) := genAxisPulse R 16

/-- `gen_pulse`, which drops the value of the axis. -/
def genPulse (R : Rounding) (ch time pulse : Int) : Option (Int × Option Train) :=
  if ch = 0 then (genXPulse R time pulse).map fun r => (0, r.2)
  else if ch = 1 then (genYPulse R time pulse).map fun r => (0, r.2)
  else if ch = 2 then (genZPulse R time pulse).map fun r => (0, r.2)
  else some (0, none)

/-- `msh_gen_pulse`, with the values that `atoi` reads. -/
def mshGenPulse (R : Rounding) : List Int → Option (Int × Option Train)
  | [ch, time, pulses] =>
    if ch < 0 ∨ 2 < ch then some (-1, none)
    else if time < 0 then some (-1, none)
    else if pulses < 0 then some (-1, none)
    else genPulse R ch time pulses
  | _ => some (-1, none)

/-! ## The pulses of a train -/

/-- In PWM mode 2 the output is off below `CCR1` and on from it. The counter starts at 0 and runs while the gate is
open, for `gateArr` ticks; each time it comes to `CCR1` from below is a pulse. -/
def Train.pulses (t : Train) : Nat :=
  if 0 < t.ccr1 ∧ t.ccr1 ≤ t.arr then Nat.count (· ≡ t.ccr1 [MOD t.arr + 1]) (t.gateArr + 1) else 0

theorem pulses_eq {t : Train} {p : Nat} (hccr : 0 < t.ccr1 ∧ t.ccr1 ≤ t.arr)
    (hgate : t.gateArr + 1 = p * (t.arr + 1)) : t.pulses = p := by
  have hmod : ¬ t.ccr1 % (t.arr + 1) < p * (t.arr + 1) % (t.arr + 1) := by
    rw [Nat.mul_mod_left]
    exact Nat.not_lt_zero _
  rw [Train.pulses, if_pos hccr, hgate, Nat.count_modEq_card _ (Nat.succ_pos _), if_neg hmod,
    Nat.mul_div_cancel _ (Nat.succ_pos _), Nat.add_zero]

/-- The train of `p` pulses: a period is the time over `p`, rounded down, all periods fit into the time and into the
gate timer, and the gate is open for `p` pulses. -/
structure Exact (gateBits : Nat) (time p : Int) (t : Train) : Prop where
  divisor : p ≠ 0
  period : ((t.arr + 1 : Nat) : Int) = time / p
  range : 5 ≤ t.arr + 1 ∧ t.arr + 1 ≤ 65535
  time : p * (t.arr + 1 : Nat) ≤ time
  gate : p * (t.arr + 1 : Nat) ≤ 2 ^ gateBits ∧ ((t.gateArr + 1 : Nat) : Int) = p * (t.arr + 1 : Nat)
  pulses : (t.pulses : Int) = p

section train

variable {gateBits n q : Nat} {time pulse : Int}

theorem limitPulse_eq {maxPulse : Int} (hmax : 0 ≤ maxPulse) (hpulse : 0 ≤ pulse) :
    limitPulse maxPulse pulse = min pulse maxPulse := by
  unfold limitPulse
  split_ifs <;> omega

theorem perOf_exact (hn : 0 < n) (hq : time / n = q) :
    perOf .exact time n = if q < 65536 then some q else none := by
  have htime : 0 ≤ time := by
    by_contra hneg
    have hlt := Int.ediv_neg_of_neg_of_pos (not_le.mp hneg) (by exact_mod_cast hn : (0 : Int) < n)
    omega
  have hvalue : 1 / ((n : Int).natAbs : ℚ) * time = time / (n : Nat) := by
    rw [Int.natAbs_natCast, one_div_mul_eq_div]
  have hnonneg : (0 : ℚ) ≤ time / (n : Nat) := div_nonneg (by exact_mod_cast htime) (Nat.cast_nonneg _)
  have hfloor : ratTrunc ((time : ℚ) / (n : Nat)) = q := by
    rw [ratTrunc_of_nonneg hnonneg, Rat.floor_intCast_div_natCast, hq]
  have hne : ¬ (n : Int) = 0 := by omega
  simp only [perOf, if_neg hne, Rounding.exact_rnd, toUint16, hvalue, hfloor, Int.toNat_natCast]
  split_ifs <;> first | rfl | omega

theorem five_le (hpulse : 0 < pulse) (hn : min pulse (2 * time / 10) = n) (hq : time / n = q) (hfive : 5 ≤ time) :
    0 < n ∧ 5 ≤ q := by
  have hpos : 0 < n := by omega
  have hle : (5 : Int) ≤ time / n := (Int.le_ediv_iff_mul_le (by omega)).mpr (by omega)
  exact ⟨hpos, by omega⟩

/-- The train of `n` pulses of `q` ticks, as the registers take it. -/
def trainOf (gateBits n q : Nat) : Train := ⟨q - 1, q / 2 - 1, (n * q - 1) % 2 ^ gateBits⟩

theorem registers_eq (hmul : 1 ≤ n * q) (hfive : 5 ≤ q) (hlt : q < 65536) :
    registers gateBits q (n * q : Nat) = trainOf gateBits n q := by
  have hticks : ((n * q : Nat) : Int) - 1 = (n * q - 1 : Nat) := by omega
  have hgate : ((n * q - 1 : Nat) : Int) % 2 ^ gateBits = ((n * q - 1) % 2 ^ gateBits : Nat) := by push_cast; rfl
  simp only [registers, trainOf, Train.mk.injEq, hticks, hgate, Int.toNat_natCast, and_true]
  omega

theorem genAxisPulse_exact (htime : 0 ≤ time) (hpulse : 0 < pulse) (hn : min pulse (2 * time / 10) = n)
    (hq : time / n = q) :
    genAxisPulse .exact gateBits time pulse =
      if 5 ≤ time ∧ time < 2 ^ 30 ∧ q < 65536 then some ((n : Int), some (trainOf gateBits n q)) else none := by
  have hlimit : limitPulse ((2 * time).tdiv 10) pulse = n := by
    rw [Int.tdiv_eq_ediv_of_nonneg (by omega), limitPulse_eq (by omega) hpulse.le, hn]
  rw [genAxisPulse, if_neg hpulse.ne']
  by_cases hsmall : time < 2 ^ 30
  · have hdouble : toInt (2 * time) = some (2 * time) := if_pos ⟨by omega, by omega⟩
    rw [hdouble]
    simp only [Option.bind_eq_bind, Option.bind_some, hlimit]
    by_cases hfive : 5 ≤ time
    · obtain ⟨hpos, hfive'⟩ := five_le hpulse hn hq hfive
      rw [perOf_exact hpos hq]
      by_cases hlt : q < 65536
      · have hmul : (n : Int) * q ≤ time := by
          rw [← hq]
          exact Int.mul_ediv_self_le (by omega)
        have hticks : toInt ((n : Int).natAbs * q : Nat) = some ((n * q : Nat) : Int) := by
          rw [Int.natAbs_natCast]
          exact if_pos ⟨by omega, by push_cast; omega⟩
        have hone : 1 ≤ n * q := Nat.mul_pos hpos (by omega)
        rw [if_pos hlt, if_pos ⟨hfive, hsmall, hlt⟩]
        rw [Option.bind_some, hticks, Option.bind_some, registers_eq hone hfive' hlt]
      · rw [if_neg hlt, if_neg fun h => hlt h.2.2, Option.bind_none]
    · have hzero : n = 0 := by omega
      rw [if_neg fun h => hfive h.1, hzero]
      rfl
  · have hdouble : toInt (2 * time) = none := if_neg fun h => by omega
    rw [hdouble, if_neg fun h => hsmall h.2.1]
    rfl

theorem exact_trainOf (hn : 0 < n) (hq : time / n = q) (hfive : 5 ≤ q) (hlt : q < 65536) :
    Exact gateBits time n (trainOf gateBits n q) ↔ n * q ≤ 2 ^ gateBits := by
  have harr : (trainOf gateBits n q).arr + 1 = q := Nat.sub_add_cancel (by omega)
  have hone : 1 ≤ n * q := Nat.mul_pos hn (by omega)
  constructor
  · intro h
    have hgate := h.gate.1
    rw [harr] at hgate
    exact_mod_cast hgate
  · intro hle
    have hgate : (trainOf gateBits n q).gateArr + 1 = n * q := by
      rw [trainOf, Nat.mod_eq_of_lt (by omega)]
      exact Nat.sub_add_cancel hone
    refine ⟨by omega, by rw [harr, hq], by omega, ?_, ?_, ?_⟩
    · rw [harr, ← hq]
      exact Int.mul_ediv_self_le (by omega)
    · rw [harr, hgate]
      exact ⟨by exact_mod_cast hle, by push_cast; rfl⟩
    · have hccr : 0 < (trainOf gateBits n q).ccr1 ∧ (trainOf gateBits n q).ccr1 ≤ (trainOf gateBits n q).arr :=
        ⟨Nat.sub_pos_of_lt (by omega), Nat.sub_le_sub_right (Nat.div_le_self _ _) 1⟩
      rw [pulses_eq hccr (by rw [harr, hgate])]

end train

/-! ## The command -/

/-- The width of the gate timer of a channel. -/
def gateWidth (ch : Int) : Nat := if ch = 0 then 32 else 16

/-- With `p` pulses behind the limit: twice the time is an `int`, a period has 16 bits, and the time, without what is
left behind `p` periods, fits into the gate timer. -/
def Fits (gateBits : Nat) (time p : Int) : Prop :=
  5 ≤ time ∧ time < 2 ^ 30 ∧ time < 65536 * p ∧ time - time % p ≤ 2 ^ gateBits

theorem mshGenPulse_eq (R : Rounding) {ch time pulse : Int} (hch : 0 ≤ ch ∧ ch ≤ 2) (htime : 0 ≤ time)
    (hpulse : 0 ≤ pulse) :
    mshGenPulse R [ch, time, pulse] = (genAxisPulse R (gateWidth ch) time pulse).map fun r => (0, r.2) := by
  rw [mshGenPulse, if_neg (by omega), if_neg (by omega), if_neg (by omega)]
  obtain rfl | rfl | rfl : ch = 0 ∨ ch = 1 ∨ ch = 2 := by omega
  all_goals rfl

theorem genAxisPulse_iff {gateBits : Nat} {time pulse : Int} (htime : 0 ≤ time) (hpulse : 0 ≤ pulse) :
    (∃ r, genAxisPulse .exact gateBits time pulse = some r ∧
        ∀ t ∈ r.2, Exact gateBits time (min pulse (2 * time / 10)) t) ↔
      pulse = 0 ∨ Fits gateBits time (min pulse (2 * time / 10)) := by
  rcases hpulse.eq_or_lt with rfl | hpos
  · exact iff_of_true ⟨(0, none), if_pos rfl, fun t ht => by cases ht⟩ (.inl rfl)
  obtain ⟨n, hn⟩ : ∃ n : Nat, min pulse (2 * time / 10) = n := Int.eq_ofNat_of_zero_le (by omega)
  obtain ⟨q, hq⟩ : ∃ q : Nat, time / n = q :=
    Int.eq_ofNat_of_zero_le (Int.ediv_nonneg htime (Int.natCast_nonneg n))
  have hsplit : time - time % n = (n * q : Nat) := by
    have hdiv := Int.mul_ediv_add_emod time n
    rw [hq] at hdiv
    push_cast
    omega
  rw [genAxisPulse_exact htime hpos hn hq, hn, or_iff_right hpos.ne', Fits, hsplit]
  by_cases hfive : 5 ≤ time
  · obtain ⟨hn0, hq5⟩ := five_le hpos hn hq hfive
    have hlt : time < 65536 * n ↔ q < 65536 := by
      rw [← Int.ediv_lt_iff_lt_mul (by omega), hq]
      omega
    rw [hlt]
    constructor
    · rintro ⟨r, hr, hexact⟩
      obtain ⟨⟨-, hsmall, hlt'⟩, heq⟩ := Option.ite_none_right_eq_some.mp hr
      obtain rfl := Option.some.inj heq
      exact ⟨hfive, hsmall, hlt', by exact_mod_cast (exact_trainOf hn0 hq hq5 hlt').mp (hexact _ rfl)⟩
    · rintro ⟨-, hsmall, hlt', hgate⟩
      refine ⟨_, if_pos ⟨hfive, hsmall, hlt'⟩, fun t ht => ?_⟩
      obtain rfl := Option.some.inj ht
      exact (exact_trainOf hn0 hq hq5 hlt').mpr (by exact_mod_cast hgate)
  · refine iff_of_false ?_ fun h => hfive h.1
    rintro ⟨r, hr, -⟩
    exact hfive (Option.ite_none_right_eq_some.mp hr).1.1

/-- An accepted command starts the train that was asked for, or none for no pulses, exactly if the train fits. -/
theorem mshGenPulse_iff {ch time pulse : Int} (hch : 0 ≤ ch ∧ ch ≤ 2) (htime : 0 ≤ time) (hpulse : 0 ≤ pulse) :
    (∃ r, mshGenPulse .exact [ch, time, pulse] = some r ∧
        ∀ t ∈ r.2, Exact (gateWidth ch) time (min pulse (2 * time / 10)) t) ↔
      pulse = 0 ∨ Fits (gateWidth ch) time (min pulse (2 * time / 10)) := by
  rw [mshGenPulse_eq .exact hch htime hpulse, ← genAxisPulse_iff htime hpulse]
  constructor
  · rintro ⟨r, hr, hexact⟩
    obtain ⟨r', hr', rfl⟩ := Option.map_eq_some_iff.mp hr
    exact ⟨r', hr', hexact⟩
  · rintro ⟨r, hr, hexact⟩
    exact ⟨(0, r.2), by rw [hr, Option.map_some], hexact⟩

/-- A thousand pulses in a second on the x axis. -/
theorem mshGenPulse_iff_run : ∃ r, mshGenPulse .exact [0, 1000000, 1000] = some r ∧
    ∀ t ∈ r.2, Exact 32 1000000 1000 t :=
  (mshGenPulse_iff (by decide) (by decide) (by decide)).mpr (.inr (by decide : _ ∧ _ ∧ _ ∧ _))

/-- A thousand pulses in 100 ms on the y axis: the gate timer keeps 16 bits of 99999, and 345 of them come. -/
theorem short_train : ∃ t, mshGenPulse .exact [1, 100000, 1000] = some (0, some t) ∧ t.pulses = 345 ∧
    ¬ Exact 16 100000 1000 t := by
  have hgen : mshGenPulse .exact [1, 100000, 1000] = some (0, some (trainOf 16 1000 100)) := by
    rw [mshGenPulse_eq .exact (by decide) (by decide) (by decide), genAxisPulse_exact (by decide) (by decide)
      (by decide : _ = ((1000 : Nat) : Int)) (by decide : _ = ((100 : Nat) : Int))]
    rfl
  have hpulses : (trainOf 16 1000 100).pulses = 345 := by
    rw [Train.pulses, if_pos (by decide), Nat.count_modEq_card _ (by decide)]
    rfl
  refine ⟨_, hgen, hpulses, fun h => ?_⟩
  have hall := h.pulses
  rw [hpulses] at hall
  omega

end ThyristorController.PulseGenerate
