import Mathlib.Data.Nat.Bitwise
import Mathlib.Tactic.Common

/-!
# Constants and alignment (`src/include/rtdef.h`)
-/

namespace ThyristorController

/-- `RT_TICK_MAX`. -/
def rtTickMax : Nat := 4294967295

/-- `RT_ALIGN`, on values of 32 bits. -/
def rtAlign (size align : BitVec 32) : BitVec 32 := (size + align - 1) &&& ~~~(align - 1)

/-- `RT_ALIGN_DOWN`. -/
def rtAlignDown (size align : BitVec 32) : BitVec 32 := size &&& ~~~(align - 1)

/-- `RT_ALIGN_SIZE`. -/
def rtAlignSize : BitVec 32 := 4

theorem and_not_three (x : BitVec 32) : (x &&& ~~~(3#32)).toNat = x.toNat / 4 * 4 := by
  have hmask : ∀ i : Fin 32, 2 ≤ i.val → (3#32)[i.val] = false := by decide
  have hshift : x &&& ~~~(3#32) = (x >>> 2) <<< 2 := by
    ext i hi
    rcases Nat.lt_or_ge i 2 with hlt | hge
    · obtain rfl | rfl : i = 0 ∨ i = 1 := by omega
      all_goals simp
    · rw [BitVec.getElem_and, BitVec.getElem_not, hmask ⟨i, hi⟩ hge, BitVec.getElem_shiftLeft,
        BitVec.getElem_ushiftRight, decide_eq_false (Nat.not_lt.mpr hge), Nat.add_sub_cancel' hge, Bool.not_false,
        Bool.and_true, Bool.true_and]
      exact (BitVec.getLsbD_eq_getElem hi).symm
  rw [hshift, BitVec.toNat_shiftLeft, BitVec.toNat_ushiftRight, Nat.shiftLeft_eq, Nat.shiftRight_eq_div_pow]
  exact Nat.mod_eq_of_lt (by have := x.isLt; omega)

theorem rtAlign_toNat (size : BitVec 32) :
    (rtAlign size rtAlignSize).toNat = (size.toNat + 3) % 2 ^ 32 / 4 * 4 := by
  have hadd : (size + rtAlignSize - 1).toNat = (size.toNat + 3) % 2 ^ 32 := by
    unfold rtAlignSize
    bv_omega
  rw [rtAlign, show rtAlignSize - 1 = 3#32 from rfl, and_not_three, hadd]

theorem rtAlignDown_toNat (size : BitVec 32) : (rtAlignDown size rtAlignSize).toNat = size.toNat / 4 * 4 :=
  and_not_three size

end ThyristorController
