import Mathlib.Algebra.CharP.Two
import Mathlib.Algebra.Field.ZMod
import Mathlib.Algebra.Polynomial.Div
import Mathlib.RingTheory.Polynomial.Basic
import Mathlib.Tactic.Ring

/-!
# Cyclic redundancy checks

A register of `w` bits that is shifted towards its high end, and takes the generator `g` whenever a one falls out. Over
`ZMod 2` a word is a polynomial, the coefficient of its highest power first. One shift multiplies by `X` modulo
`X ^ w + poly g`, and so the register of a message ends with the remainder of the message times `X ^ w`
(`poly_register`).

A shift is linear. What `n` shifts make of a register is then read off a table of what they make of its high `n` bits
(`feed_table`).
-/

namespace Crc

open Polynomial

variable {w n : Nat}

/-! ## The register -/

/-- One shift of the register. -/
def shift (g crc : BitVec w) : BitVec w := if crc.msb then crc <<< 1 ^^^ g else crc <<< 1

def shifts (g crc : BitVec w) : Nat → BitVec w
  | 0 => crc
  | n + 1 => shifts g (shift g crc) n

/-- Take `n` bits of a message: they go to the high end, and the register is shifted past them. -/
def feed (g crc : BitVec w) (q : BitVec n) : BitVec w := shifts g (crc ^^^ q.setWidth w <<< (w - n)) n

/-- The register behind a message. -/
def register (g : BitVec w) (q : List (BitVec n)) : BitVec w := q.foldl (feed g) 0#w

/-! ## Shifts by a table -/

section table

variable {g a b : BitVec w}

theorem shift_xor : shift g (a ^^^ b) = shift g a ^^^ shift g b := by
  have hcancel (x y : BitVec w) : x ^^^ g ^^^ (y ^^^ g) = x ^^^ y := by
    rw [BitVec.xor_assoc, BitVec.xor_comm y, ← BitVec.xor_assoc g, BitVec.xor_self, BitVec.zero_xor]
  unfold shift
  rw [BitVec.msb_xor, BitVec.shiftLeft_xor_distrib]
  cases a.msb <;> cases b.msb
  · rfl
  · exact BitVec.xor_assoc ..
  · simp only [Bool.xor_false, if_true, Bool.false_eq_true, if_false]
    rw [BitVec.xor_assoc, BitVec.xor_comm (b <<< 1), ← BitVec.xor_assoc]
  · exact (hcancel _ _).symm

theorem shifts_xor (n : Nat) : shifts g (a ^^^ b) n = shifts g a n ^^^ shifts g b n := by
  induction n generalizing a b with
  | zero => rfl
  | succ n ih => rw [shifts, shift_xor, ih]; rfl

theorem shifts_low (ha : ∀ i, w - n ≤ i → a.getLsbD i = false) : shifts g a n = a <<< n := by
  induction n generalizing a with
  | zero => rw [BitVec.shiftLeft_zero]; rfl
  | succ n ih =>
    have hmsb : a.msb = false := by
      rw [BitVec.msb_eq_getLsbD_last]
      exact ha _ (by omega)
    have hshift : shift g a = a <<< 1 := by
      rw [shift, hmsb, if_neg Bool.false_ne_true]
    rw [shifts, hshift, ih, ← BitVec.shiftLeft_add, Nat.add_comm]
    intro i hi
    rw [BitVec.getLsbD_shiftLeft, ha (i - 1) (by omega), Bool.and_false]

/-- The register with the bits of the message is its high bits, with them, and its low bits. -/
theorem xor_high (h : n ≤ w) (crc : BitVec w) (q : BitVec n) :
    crc ^^^ q.setWidth w <<< (w - n) =
      ((crc >>> (w - n)).setWidth n ^^^ q).setWidth w <<< (w - n) ^^^ crc <<< n >>> n := by
  apply BitVec.eq_of_getLsbD_eq
  intro i hi
  simp only [BitVec.getLsbD_xor, BitVec.getLsbD_shiftLeft, BitVec.getLsbD_setWidth, BitVec.getLsbD_ushiftRight]
  by_cases hlow : i < w - n
  · have hn : n + i < w := by omega
    simp [hlow, hn, hi]
  · have hn : ¬ n + i < w := by omega
    have hhigh : w - n + (i - (w - n)) = i := by omega
    have hq : i - (w - n) < n := by omega
    have hw : i - (w - n) < w := by omega
    simp [hlow, hn, hi, hhigh, hq, hw]

/-- A table of what `n` shifts make of the high bits takes `n` bits of the message at once. -/
theorem feed_table (h : n ≤ w) (crc : BitVec w) (q : BitVec n) :
    feed g crc q = crc <<< n ^^^ feed g 0#w ((crc >>> (w - n)).setWidth n ^^^ q) := by
  have hlow : shifts g (crc <<< n >>> n) n = crc <<< n := by
    rw [shifts_low]
    · apply BitVec.eq_of_getLsbD_eq
      intro i hi
      simp only [BitVec.getLsbD_shiftLeft, BitVec.getLsbD_ushiftRight]
      by_cases hn : i < n
      · simp [hn]
      · have hi' : n + (i - n) = i := by omega
        simp [hn, hi, hi']
    · intro i hi
      rw [BitVec.getLsbD_ushiftRight, BitVec.getLsbD_of_ge _ _ (by omega)]
  rw [feed, xor_high h, shifts_xor, hlow, BitVec.xor_comm, feed, BitVec.zero_xor]

end table

/-! ## The polynomials -/

/-- The polynomial of a word. -/
noncomputable def poly (x : BitVec w) : (ZMod 2)[X] :=
  ∑ i ∈ Finset.range w, if x.getLsbD i then X ^ i else 0

/-- The generator, with the power that the register has no place for. -/
noncomputable def modulus (g : BitVec w) : (ZMod 2)[X] := X ^ w + poly g

/-- The polynomial of a message whose first word is the highest. -/
noncomputable def message (q : List (BitVec n)) : (ZMod 2)[X] := q.foldl (fun m a => m * X ^ n + poly a) 0

section poly

variable {g a b : BitVec w}

theorem coeff_poly (i : Nat) : (poly a).coeff i = if a.getLsbD i then 1 else 0 := by
  have hterm (j : Nat) : (if a.getLsbD j then (X : (ZMod 2)[X]) ^ j else 0).coeff i =
      if i = j then (if a.getLsbD j then 1 else 0) else 0 := by
    by_cases hj : a.getLsbD j <;> simp [hj, coeff_X_pow]
  rw [poly, finsetSum_coeff, Finset.sum_congr rfl fun j _ => hterm j, Finset.sum_ite_eq]
  by_cases hi : i < w
  · rw [if_pos (Finset.mem_range.2 hi)]
  · rw [if_neg (by simpa using hi), BitVec.getLsbD_of_ge _ _ (by omega), if_neg Bool.false_ne_true]

theorem degree_poly_lt : (poly a).degree < w := by
  rw [degree_lt_iff_coeff_zero]
  intro i hi
  rw [coeff_poly, BitVec.getLsbD_of_ge _ _ hi, if_neg Bool.false_ne_true]

@[simp] theorem poly_zero : poly 0#w = 0 := by
  ext i
  rw [coeff_poly, BitVec.getLsbD_zero, if_neg Bool.false_ne_true, coeff_zero]

theorem poly_xor : poly (a ^^^ b) = poly a + poly b := by
  ext i
  rw [coeff_add, coeff_poly, coeff_poly, coeff_poly, BitVec.getLsbD_xor]
  cases a.getLsbD i <;> cases b.getLsbD i <;> decide

theorem modulus_monic : (modulus g).Monic := monic_X_pow_add degree_poly_lt

theorem degree_modulus : (modulus g).degree = w := by
  rw [modulus, add_comm, degree_add_eq_right_of_degree_lt] <;> rw [degree_X_pow]
  exact degree_poly_lt

/-- What is shifted out at the high end is the power that the register has no place for. -/
theorem X_mul_poly : X * poly a = poly (a <<< 1) + if a.msb then X ^ w else 0 := by
  ext i
  rw [coeff_add, coeff_poly, BitVec.getLsbD_shiftLeft, BitVec.msb_eq_getLsbD_last]
  cases i with
  | zero =>
    have hlast : a.getLsbD (w - 1) = true → w ≠ 0 := by
      rintro h rfl
      rw [BitVec.getLsbD_of_ge _ _ (Nat.zero_le _)] at h
      exact Bool.false_ne_true h
    by_cases h : a.getLsbD (w - 1)
    · simp [h, coeff_X_pow, (hlast h).symm]
    · simp [h]
  | succ j =>
    rw [coeff_X_mul, coeff_poly]
    by_cases hj : j + 1 < w
    · have hw : j + 1 ≠ w := by omega
      by_cases h : a.getLsbD (w - 1) <;> simp [h, hj, hw, coeff_X_pow]
    · by_cases hw : j + 1 = w
      · subst hw
        by_cases h : a.getLsbD j <;> simp [h, -BitVec.getLsbD_eq_getElem]
      · rw [BitVec.getLsbD_of_ge a j (by omega)]
        by_cases h : a.getLsbD (w - 1) <;> simp [h, hj, hw, coeff_X_pow]

theorem X_mul_poly_eq_shift : X * poly a = poly (shift g a) + if a.msb then modulus g else 0 := by
  rw [X_mul_poly, shift]
  cases a.msb
  · rfl
  · rw [if_pos rfl, if_pos rfl, if_pos rfl, poly_xor, modulus]
    calc poly (a <<< 1) + X ^ w = poly (a <<< 1) + X ^ w + (poly g + poly g) := by
          rw [CharTwo.add_self_eq_zero, add_zero]
      _ = poly (a <<< 1) + poly g + (X ^ w + poly g) := by ring

theorem dvd_shift : modulus g ∣ X * poly a - poly (shift g a) := by
  rw [X_mul_poly_eq_shift (g := g), add_sub_cancel_left]
  split
  · exact dvd_rfl
  · exact dvd_zero _

theorem dvd_shifts (n : Nat) : modulus g ∣ X ^ n * poly a - poly (shifts g a n) := by
  induction n generalizing a with
  | zero => rw [pow_zero, one_mul, shifts, sub_self]; exact dvd_zero _
  | succ n ih =>
    have hsplit : X ^ (n + 1) * poly a - poly (shifts g a (n + 1)) =
        X ^ n * (X * poly a - poly (shift g a)) + (X ^ n * poly (shift g a) - poly (shifts g (shift g a) n)) := by
      rw [shifts]
      ring
    rw [hsplit]
    exact dvd_add (dvd_shift.mul_left _) ih

theorem poly_high (h : n ≤ w) (q : BitVec n) : poly (q.setWidth w <<< (w - n)) = poly q * X ^ (w - n) := by
  ext i
  rw [coeff_poly, BitVec.getLsbD_shiftLeft, BitVec.getLsbD_setWidth]
  by_cases hlow : i < w - n
  · rw [coeff_mul_X_pow', if_neg (Nat.not_le.2 hlow)]
    simp [hlow]
  · rw [coeff_mul_X_pow', if_pos (Nat.not_lt.1 hlow), coeff_poly]
    by_cases hi : i < w
    · have hw : i - (w - n) < w := by omega
      simp only [hlow, hi, hw, decide_true, decide_false, Bool.not_false, Bool.true_and]
    · rw [BitVec.getLsbD_of_ge q _ (by omega)]
      simp [hi]

theorem dvd_feed (h : n ≤ w) (m : (ZMod 2)[X]) (q : BitVec n) (hm : modulus g ∣ m * X ^ w - poly a) :
    modulus g ∣ (m * X ^ n + poly q) * X ^ w - poly (feed g a q) := by
  have hw : (X : (ZMod 2)[X]) ^ w = X ^ (w - n) * X ^ n := by rw [← pow_add, Nat.sub_add_cancel h]
  have hsplit : (m * X ^ n + poly q) * X ^ w - poly (feed g a q) =
      X ^ n * (m * X ^ w - poly a) +
        (X ^ n * poly (a ^^^ q.setWidth w <<< (w - n)) - poly (shifts g (a ^^^ q.setWidth w <<< (w - n)) n)) := by
    rw [poly_xor, poly_high h, feed, hw]
    ring
  rw [hsplit]
  exact dvd_add (hm.mul_left _) (dvd_shifts n)

theorem dvd_foldl (h : n ≤ w) (q : List (BitVec n)) (m : (ZMod 2)[X]) (hm : modulus g ∣ m * X ^ w - poly a) :
    modulus g ∣ q.foldl (fun m a => m * X ^ n + poly a) m * X ^ w - poly (q.foldl (feed g) a) := by
  induction q generalizing m a with
  | nil => exact hm
  | cons x q ih => exact ih _ (dvd_feed h m x hm)

/-- **The register is the remainder** of the message times `X ^ w`. -/
theorem poly_register (h : n ≤ w) (q : List (BitVec n)) :
    poly (register g q) = message q * X ^ w %ₘ modulus g := by
  have hdvd : modulus g ∣ message q * X ^ w - poly (register g q) :=
    dvd_foldl h q 0 (by rw [poly_zero, zero_mul, sub_zero]; exact dvd_zero _)
  have hself : poly (register g q) %ₘ modulus g = poly (register g q) :=
    (modByMonic_eq_self_iff modulus_monic).2 (degree_modulus ▸ degree_poly_lt)
  rw [modByMonic_eq_of_dvd_sub modulus_monic hdvd, hself]

end poly

end Crc
