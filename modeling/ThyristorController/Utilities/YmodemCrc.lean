import ThyristorController.Lib.Crc
import ThyristorController.Utilities.YmodemReceiver

/-!
# The two builds of `CRC16` (`components/utilities/ymodem/ymodem.c`)

With `YMODEM_USING_CRC_TABLE` the checksum is taken from a table, one byte at a time, and without it from a loop over
the bits. Both are the register of the generator `x^16 + x^12 + x^5 + 1`.
-/

namespace ThyristorController.Ymodem

open Polynomial

/-! ## The checksum without its table -/

/-- One round of the inner loop of `CRC16`. -/
def crc16Bit (crc : BitVec 16) : BitVec 16 :=
  -- what `int` has more than 16 bits is lost in the assignment
  if crc &&& 0x8000 ≠ 0 then crc <<< 1 ^^^ 0x1021 else crc <<< 1

/-- The inner loop, with so many rounds left. -/
def crc16Bits (crc : BitVec 16) : Nat → BitVec 16
  | 0 => crc
  | i + 1 => crc16Bits (crc16Bit crc) i

/-- One round of the outer loop. The shift binds more tightly than the exclusive or. -/
def crc16ByteLoop (crc : BitVec 16) (q : Byte) : BitVec 16 := crc16Bits (crc ^^^ q.setWidth 16 <<< 8) 8

/-- `CRC16` without `YMODEM_USING_CRC_TABLE`. -/
def crc16Loop (q : List Byte) : BitVec 16 := q.foldl crc16ByteLoop 0

/-! ## Both are the register -/

/-- The generator, without `x^16`. -/
def generator : BitVec 16 := 0x1021

theorem crc16Bit_eq_shift (crc : BitVec 16) : crc16Bit crc = Crc.shift generator crc := by
  have hbit : (0x8000 : BitVec 16) = BitVec.twoPow 16 15 := rfl
  have hmsb : crc &&& 0x8000 ≠ 0 ↔ crc.msb = true := by
    rw [hbit, BitVec.and_twoPow, BitVec.msb_eq_getLsbD_last]
    by_cases h : crc.getLsbD 15
    · simp [h, -BitVec.getLsbD_eq_getElem]
    · simp [h, -BitVec.getLsbD_eq_getElem]
  rw [crc16Bit, Crc.shift]
  simp only [hmsb]
  rfl

theorem crc16Bits_eq_shifts (crc : BitVec 16) (i : Nat) : crc16Bits crc i = Crc.shifts generator crc i := by
  induction i generalizing crc with
  | zero => rfl
  | succ i ih => rw [crc16Bits, crc16Bit_eq_shift, ih]; rfl

theorem crc16ByteLoop_eq_feed (crc : BitVec 16) (q : Byte) : crc16ByteLoop crc q = Crc.feed generator crc q :=
  crc16Bits_eq_shifts _ _

theorem ccittTable_getD (i : Byte) : ccittTable.getD i.toNat 0 = Crc.feed generator 0#16 i := by
  rw [← crc16ByteLoop_eq_feed]
  revert i
  decide +kernel

theorem crc16Byte_eq_feed (crc : BitVec 16) (q : Byte) : crc16Byte crc q = Crc.feed generator crc q := by
  have hlow : (crc >>> (16 - 8)).setWidth 8 ^^^ q = (crc >>> 8 ^^^ q.setWidth 16).setWidth 8 := by
    rw [BitVec.setWidth_xor, BitVec.setWidth_setWidth_of_le _ (by decide), BitVec.setWidth_eq]
  have hindex : ((crc >>> 8 ^^^ q.setWidth 16) &&& 0xff).toNat = ((crc >>> (16 - 8)).setWidth 8 ^^^ q).toNat := by
    rw [hlow, BitVec.toNat_and, BitVec.toNat_setWidth]
    exact Nat.and_two_pow_sub_one_eq_mod _ 8
  rw [crc16Byte, hindex, ccittTable_getD, ← Crc.feed_table (by decide)]

theorem crc16_eq_register (q : List Byte) : crc16 q = Crc.register generator q := by
  have hbyte : crc16Byte = Crc.feed generator := by
    funext crc q
    exact crc16Byte_eq_feed crc q
  rw [crc16, hbyte]
  rfl

theorem crc16Loop_eq_register (q : List Byte) : crc16Loop q = Crc.register generator q := by
  have hbyte : crc16ByteLoop = Crc.feed generator := by
    funext crc q
    exact crc16ByteLoop_eq_feed crc q
  rw [crc16Loop, hbyte]
  rfl

theorem modulus_generator : Crc.modulus generator = X ^ 16 + X ^ 12 + X ^ 5 + 1 := by
  have hpoly : Crc.poly generator = 1 + X ^ 5 + X ^ 12 := by
    simp [Crc.poly, Finset.sum_range_succ, generator]
  rw [Crc.modulus, hpoly]
  ring

/-- **Both builds of `CRC16` return the remainder** of the string times `x^16`. -/
theorem crc16_remainder (q : List Byte) :
    crc16 q = crc16Loop q ∧ Crc.poly (crc16 q) = Crc.message q * X ^ 16 %ₘ (X ^ 16 + X ^ 12 + X ^ 5 + 1) := by
  refine ⟨?_, ?_⟩
  · rw [crc16_eq_register, crc16Loop_eq_register]
  · rw [crc16_eq_register, Crc.poly_register (by decide), modulus_generator]

/-- The check value of the code, with either build. -/
example : crc16 [0x31, 0x32, 0x33, 0x34, 0x35, 0x36, 0x37, 0x38, 0x39] = 0x31c3 ∧
    crc16Loop [0x31, 0x32, 0x33, 0x34, 0x35, 0x36, 0x37, 0x38, 0x39] = 0x31c3 := by
  decide +kernel

end ThyristorController.Ymodem
