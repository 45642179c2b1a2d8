import Mathlib.Algebra.Group.Nat.Defs
import Mathlib.Logic.Function.Basic
import Mathlib.Tactic.Common

/-!
# Numbers of 12 bits, two in three bytes

The number `c` begins in the byte `addr c`. An even one has that byte and the low half of the next, an odd one the
high half of its byte and the next. `putLo` and `putHi` are the two bytes after a number was put into them. Neither
byte changes any other number, although two numbers share one.
-/

namespace Packed12

/-- The byte in which a number begins. -/
def addr (c : Nat) : Nat := c + c / 2

/-- The number in two bytes. -/
def get (odd : Bool) (lo hi : UInt8) : Nat :=
  let w := lo.toNat ||| hi.toNat <<< 8
  if odd then w >>> 4 else w &&& 0xfff

/-- The first byte, after a number was put into it. -/
def putLo (odd : Bool) (b : UInt8) (v : Nat) : UInt8 :=
  if odd then (b &&& (0x0f : UInt8)) ||| (UInt8.ofNat v <<< 4) else UInt8.ofNat v

/-- The second byte. -/
def putHi (odd : Bool) (b : UInt8) (v : Nat) : UInt8 :=
  if odd then UInt8.ofNat (v >>> 4) else (b &&& (0xf0 : UInt8)) ||| (UInt8.ofNat (v >>> 8) &&& (0x0f : UInt8))

variable {lo hi b : UInt8} {v c d : Nat}

theorem toNat_or (b b' : UInt8) (k m : Nat) (hb : b.toNat < 2 ^ k) (hb' : b'.toNat = m * 2 ^ k) :
    (b ||| b').toNat = b.toNat + b'.toNat := by
  rw [UInt8.toNat_or, Nat.or_comm, hb', ← Nat.shiftLeft_eq, ← Nat.shiftLeft_add_eq_or_of_lt hb, Nat.add_comm]

theorem get_odd : get true lo hi = lo.toNat / 16 + 16 * hi.toNat := by
  have hlo := lo.toNat_lt
  show (lo.toNat ||| hi.toNat <<< 8) >>> 4 = _
  rw [Nat.or_comm, ← Nat.shiftLeft_add_eq_or_of_lt (show lo.toNat < 2 ^ 8 from hlo), Nat.shiftRight_eq_div_pow,
    Nat.shiftLeft_eq]
  omega

theorem get_even : get false lo hi = lo.toNat + 256 * (hi.toNat % 16) := by
  have hlo := lo.toNat_lt
  show (lo.toNat ||| hi.toNat <<< 8) &&& 0xfff = _
  rw [Nat.or_comm, ← Nat.shiftLeft_add_eq_or_of_lt (show lo.toNat < 2 ^ 8 from hlo), Nat.shiftLeft_eq,
    show (0xfff : Nat) = 2 ^ 12 - 1 from rfl, Nat.and_two_pow_sub_one_eq_mod]
  omega

theorem and_low (b : UInt8) : (b &&& (0x0f : UInt8)).toNat = b.toNat % 16 := by
  rw [UInt8.toNat_and, show (0x0f : UInt8).toNat = 2 ^ 4 - 1 from rfl, Nat.and_two_pow_sub_one_eq_mod]

theorem and_high (b : UInt8) : (b &&& (0xf0 : UInt8)).toNat = 16 * (b.toNat / 16) := by
  have hall : ∀ i : Fin 256, i.val &&& 0xf0 = 16 * (i.val / 16) := by decide +kernel
  rw [UInt8.toNat_and]
  exact hall ⟨b.toNat, b.toNat_lt⟩

theorem putLo_odd : (putLo true b v).toNat = b.toNat % 16 + 16 * (v % 16) := by
  have hshift : (UInt8.ofNat v <<< 4).toNat = (v % 16) * 2 ^ 4 := by
    rw [UInt8.toNat_shiftLeft, UInt8.toNat_ofNat', Nat.shiftLeft_eq, show (4 : UInt8).toNat % 8 = 4 from rfl]
    omega
  have hlow := and_low b
  show ((b &&& (0x0f : UInt8)) ||| (UInt8.ofNat v <<< 4)).toNat = _
  rw [toNat_or _ _ 4 (v % 16) (by omega) hshift, hlow, hshift]
  omega

theorem putLo_even : (putLo false b v).toNat = v % 256 := UInt8.toNat_ofNat'

theorem putHi_odd : (putHi true b v).toNat = v / 16 % 256 := by
  show (UInt8.ofNat (v >>> 4)).toNat = _
  rw [UInt8.toNat_ofNat', Nat.shiftRight_eq_div_pow]

theorem putHi_even : (putHi false b v).toNat = 16 * (b.toNat / 16) + v / 256 % 16 := by
  have hhigh := and_high b
  have hlow : (UInt8.ofNat (v >>> 8) &&& 0x0f).toNat = v / 2 ^ 8 % 2 ^ 8 % 16 := by
    rw [and_low, UInt8.toNat_ofNat', Nat.shiftRight_eq_div_pow]
  show ((b &&& (0xf0 : UInt8)) ||| (UInt8.ofNat (v >>> 8) &&& (0x0f : UInt8))).toNat = _
  rw [UInt8.or_comm, toNat_or _ _ 4 (b.toNat / 16) (by omega) (by omega), hlow, hhigh]
  omega

theorem get_put (odd : Bool) (lo hi : UInt8) (v : Nat) : get odd (putLo odd lo v) (putHi odd hi v) = v % 4096 := by
  cases odd with
  | true =>
    rw [get_odd, putLo_odd, putHi_odd]
    omega
  | false =>
    rw [get_even, putLo_even, putHi_even]
    omega

/-- The even neighbour of an odd number does not see it in their common byte. -/
theorem get_putLo_odd : get false lo (putLo true b v) = get false lo b := by
  rw [get_even, get_even, putLo_odd]
  omega

theorem get_putHi_even : get true (putHi false b v) hi = get true b hi := by
  rw [get_odd, get_odd, putHi_even]
  omega

/-! ## In memory -/

/-- A number in memory. -/
def read (m : Nat → UInt8) (c : Nat) : Nat := get (c % 2 = 1) (m (addr c)) (m (addr c + 1))

/-- Write its first byte. -/
def writeLo (m : Nat → UInt8) (c v : Nat) : Nat → UInt8 :=
  Function.update m (addr c) (putLo (c % 2 = 1) (m (addr c)) v)

/-- Write its second byte. -/
def writeHi (m : Nat → UInt8) (c v : Nat) : Nat → UInt8 :=
  Function.update m (addr c + 1) (putHi (c % 2 = 1) (m (addr c + 1)) v)

variable {m : Nat → UInt8}

theorem addr_ne (h : d ≠ c) : addr d ≠ addr c := by
  unfold addr
  omega

theorem addr_eq_succ (h : addr d = addr c + 1) : c % 2 = 0 ∧ d % 2 = 1 := by
  unfold addr at h
  omega

theorem read_writeLo_of_ne (h : d ≠ c) : read (writeLo m c v) d = read m d := by
  unfold read writeLo
  rw [Function.update_of_ne (addr_ne h)]
  by_cases hd : addr d + 1 = addr c
  · obtain ⟨heven, hodd⟩ := addr_eq_succ hd.symm
    rw [hd, Function.update_self, decide_eq_true hodd, decide_eq_false (show ¬ d % 2 = 1 by omega), get_putLo_odd]
  · rw [Function.update_of_ne hd]

theorem read_writeHi_of_ne (h : d ≠ c) : read (writeHi m c v) d = read m d := by
  unfold read writeHi
  rw [Function.update_of_ne fun hd => addr_ne h (Nat.succ.inj hd)]
  by_cases hd : addr d = addr c + 1
  · obtain ⟨heven, hodd⟩ := addr_eq_succ hd
    rw [hd, Function.update_self, decide_eq_true hodd, decide_eq_false (show ¬ c % 2 = 1 by omega), get_putHi_even]
  · rw [Function.update_of_ne hd]

/-- The number is there when its two bytes were written, with anything between. -/
theorem read_writeHi_self (h : m (addr c) = putLo (c % 2 = 1) b v) : read (writeHi m c v) c = v % 4096 := by
  unfold read writeHi
  rw [Function.update_of_ne (Nat.ne_of_lt (Nat.lt_succ_self _)), h, Function.update_self, get_put]

end Packed12
