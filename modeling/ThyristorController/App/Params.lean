import Mathlib.Data.List.Basic
import Mathlib.Tactic.Common

/-!
# The stored set-points (`applications/main.c`)

`para_read` and `para_write` keep the pair `(voltage_set, current_set)` in the first four bytes of
`/params.dat`. The file system is what the two functions see of it through `open`, `read`, `write` and
`dfs_mkfs`: whether the volume is mounted, and the bytes of the file, if it exists. An open without
`O_TRUNC` keeps the bytes, an open without `O_CREAT` needs the file, and `dfs_elm_open` always adds
`FA_READ`, so a descriptor opened `O_WRONLY` reads.
-/

namespace ThyristorController

/-- The volume that holds `/params.dat`. -/
structure Volume where
  mounted : Bool
  params : Option (List UInt8)

namespace Volume

/-- `open("/params.dat", O_WRONLY)`, with `O_CREAT` added if `creat`: the volume after a successful open. -/
def openParams (vol : Volume) (creat : Bool) : Option Volume :=
  if vol.mounted then
    match vol.params with
    | some _ => some vol
    | none => if creat then some { vol with params := some [] } else none
  else none

/-- `read` of at most `n` bytes at position 0. -/
def read (vol : Volume) (n : Nat) : List UInt8 := (vol.params.getD []).take n

/-- `write` at position 0. -/
def write (vol : Volume) (bytes : List UInt8) : Volume :=
  { vol with params := some (bytes ++ (vol.params.getD []).drop bytes.length) }

/-- `dfs_mkfs("elm", "W25Q64")`: formatting removes the file, and mounts nothing. -/
def mkfs (vol : Volume) (ok : Bool) : Volume := if ok then { vol with params := none } else vol

end Volume

/-- The initial values in `main.c`. -/
def voltageSetInit : Int := 500
def currentSetInit : Int := 1500

/-- The four bytes `para_write` stores: both values narrowed to 16 bits, high byte first. -/
def paraBytes (voltageSetObay currentSetObay : Int) : List UInt8 :=
  let v := UInt16.ofInt voltageSetObay
  let c := UInt16.ofInt currentSetObay
  [((v &&& 0xff00) >>> 8).toUInt8, (v &&& 0x00ff).toUInt8,
    ((c &&& 0xff00) >>> 8).toUInt8, (c &&& 0x00ff).toUInt8]

/-- `para_write`. -/
def paraWrite (vol : Volume) (voltageSetObay currentSetObay : Int) : Volume :=
  match vol.openParams false with
  | some vol => vol.write (paraBytes voltageSetObay currentSetObay)
  | none => vol

/-- `para_read`: the volume, `voltage_set` and `current_set` after it. `mkfsOk` is whether a format,
if it comes to one, succeeds. -/
def paraRead (vol : Volume) (voltageSet currentSet : Int) (mkfsOk : Bool) : Volume × Int × Int :=
  match vol.openParams true with
  | some vol =>
    let bytes := vol.read 5
    let params (i : Nat) : Int := (bytes.getD i 0).toNat
    if params 0 > 0 ∨ params 1 > 0 ∨ params 2 > 0 ∨ params 3 > 0 then
      (vol, params 0 * 256 + params 1, params 2 * 256 + params 3)
    else (paraWrite vol voltageSet currentSet, voltageSet, currentSet)
  | none =>
    (paraWrite (vol.mkfs mkfsOk) voltageSet currentSet, voltageSet, currentSet)

/-- A set-point that `para_read` leaves is a 16-bit value, or the one that was in use. -/
theorem paraRead_voltageSet (vol : Volume) (v c : Int) (ok : Bool) :
    (paraRead vol v c ok).2.1 = v ∨
      (0 ≤ (paraRead vol v c ok).2.1 ∧ (paraRead vol v c ok).2.1 < 65536) := by
  unfold paraRead
  split
  · next vol' _ =>
    have h0 := ((vol'.read 5).getD 0 0).toNat_lt
    have h1 := ((vol'.read 5).getD 1 0).toNat_lt
    dsimp only
    split
    · right
      dsimp only
      omega
    · exact .inl rfl
  · exact .inl rfl

/-! ## What is stored is loaded -/

theorem high_toNat (x : UInt16) : ((x &&& 0xff00) >>> 8).toUInt8.toNat = x.toNat / 256 := by
  have hx := x.toNat_lt
  have hmask : (x.toNat &&& 65280) >>> 8 = x.toNat / 256 := by
    rw [Nat.shiftRight_and_distrib, Nat.shiftRight_eq_div_pow]
    show x.toNat / 2 ^ 8 &&& 2 ^ 8 - 1 = _
    rw [Nat.and_two_pow_sub_one_eq_mod]
    omega
  simp [hmask]
  omega

theorem low_toNat (x : UInt16) : (x &&& 0x00ff).toUInt8.toNat = x.toNat % 256 := by
  have hmask : x.toNat % 256 &&& 255 = x.toNat % 256 := by
    rw [show 255 = 2 ^ 8 - 1 from rfl, Nat.and_two_pow_sub_one_eq_mod]
    omega
  simp [hmask]

theorem ofInt_toNat {v : Int} (h0 : 0 ≤ v) (h1 : v < 65536) : ((UInt16.ofInt v).toNat : Int) = v := by
  have hmod : v % 2 ^ 16 = v := Int.emod_eq_of_lt h0 (by omega)
  rw [UInt16.ofInt, hmod, UInt16.toNat_ofNat']
  omega

theorem paraRead_file {vol : Volume} (hm : vol.mounted = true) {b0 b1 b2 b3 : UInt8} {rest : List UInt8}
    (hp : vol.params = some (b0 :: b1 :: b2 :: b3 :: rest))
    (hne : b0.toNat ≠ 0 ∨ b1.toNat ≠ 0 ∨ b2.toNat ≠ 0 ∨ b3.toNat ≠ 0) (v c : Int) (ok : Bool) :
    paraRead vol v c ok = (vol, (b0.toNat : Int) * 256 + b1.toNat, (b2.toNat : Int) * 256 + b3.toNat) := by
  have hopen : vol.openParams true = some vol := by simp [Volume.openParams, hm, hp]
  have hread : vol.read 5 = b0 :: b1 :: b2 :: b3 :: rest.take 1 := by simp [Volume.read, hp]
  unfold paraRead
  rw [hopen]
  dsimp only
  rw [hread, if_pos]
  · rfl
  · simpa [Nat.pos_iff_ne_zero] using hne

/-- A pair of 16-bit set-points, not both zero, survives `para_write` and `para_read`. -/
theorem paraRead_paraWrite {vol : Volume} (hm : vol.mounted = true) {bytes : List UInt8}
    (hp : vol.params = some bytes) {v c : Int} (hv : 0 ≤ v ∧ v < 65536) (hc : 0 ≤ c ∧ c < 65536)
    (hne : v ≠ 0 ∨ c ≠ 0) (v0 c0 : Int) (ok : Bool) :
    (paraRead (paraWrite vol v c) v0 c0 ok).2 = (v, c) := by
  have hv' := ofInt_toNat hv.1 hv.2
  have hc' := ofInt_toNat hc.1 hc.2
  have hfile : (paraWrite vol v c).mounted = true ∧
      (paraWrite vol v c).params = some (paraBytes v c ++ bytes.drop 4) := by
    simp [paraWrite, Volume.openParams, Volume.write, hm, hp, paraBytes]
  rw [paraRead_file hfile.1 hfile.2 ?_, high_toNat, low_toNat, high_toNat, low_toNat]
  · rw [Prod.mk.injEq]
    omega
  · rw [high_toNat, low_toNat, high_toNat, low_toNat]
    omega

end ThyristorController
