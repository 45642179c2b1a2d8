import Mathlib.Algebra.Group.Nat.Defs
import Mathlib.Logic.Function.Basic
import Mathlib.Tactic.Common

/-!
# Memory of bytes

`load` and `store` read and write the little-endian numbers of `n` bytes. What is stored is loaded again; a store
changes no byte outside of its range, and a load depends on no byte outside of its range. `copy` and `fill` write a
range of bytes at once.
-/

namespace Bytes

/-- A byte for every address. -/
abbrev Memory := Nat → UInt8

/-- The number in the `n` bytes from `a` on. -/
def load (m : Memory) (a : Nat) : Nat → Nat
  | 0 => 0
  | n + 1 => (m a).toNat + 256 * load m (a + 1) n

/-- Write a number to the `n` bytes from `a` on. -/
def store (m : Memory) (a : Nat) : Nat → Nat → Memory
  | 0, _ => m
  | n + 1, v => Function.update (store m (a + 1) n (v / 256)) a (UInt8.ofNat v)

/-- Copy `n` bytes from `src` to `dst`; the ranges do not overlap. -/
def copy (m : Memory) (dst src n : Nat) : Memory := fun x =>
  if dst ≤ x ∧ x < dst + n then m (src + (x - dst)) else m x

/-- Write the byte `v` to the `n` bytes from `dst` on. -/
def fill (m : Memory) (dst n : Nat) (v : UInt8) : Memory := fun x => if dst ≤ x ∧ x < dst + n then v else m x

variable {m m' : Memory} {a b n k v x : Nat}

theorem store_outside (hx : x < a ∨ a + n ≤ x) : store m a n v x = m x := by
  induction n generalizing a v with
  | zero => rfl
  | succ n ih =>
    rw [store, Function.update_of_ne (by omega)]
    exact ih (by omega)

theorem store_inside (hle : a ≤ x) (hlt : x < a + n) : store m a n v x = UInt8.ofNat (v / 256 ^ (x - a)) := by
  induction n generalizing a v with
  | zero => omega
  | succ n ih =>
    rw [store]
    by_cases hx : x = a
    · subst hx
      rw [Function.update_self, Nat.sub_self, Nat.pow_zero, Nat.div_one]
    · rw [Function.update_of_ne hx, ih (by omega) (by omega), Nat.div_div_eq_div_mul, ← Nat.pow_succ',
        show (x - (a + 1)).succ = x - a by omega]

theorem load_congr (hm : ∀ x, a ≤ x → x < a + n → m' x = m x) : load m' a n = load m a n := by
  induction n generalizing a with
  | zero => rfl
  | succ n ih =>
    rw [load, load, hm a (Nat.le_refl a) (by omega), ih fun x hle hlt => hm x (by omega) (by omega)]

theorem load_lt (m : Memory) (a n : Nat) : load m a n < 256 ^ n := by
  induction n generalizing a with
  | zero => exact Nat.one_pos
  | succ n ih =>
    have hfirst := (m a).toNat_lt
    have hrest := ih (a + 1)
    rw [load, Nat.pow_succ]
    omega

theorem load_shift (hm : ∀ i < n, m' (b + i) = m (a + i)) : load m' b n = load m a n := by
  induction n generalizing a b with
  | zero => rfl
  | succ n ih =>
    have hfirst := hm 0 (Nat.zero_lt_succ n)
    rw [Nat.add_zero, Nat.add_zero] at hfirst
    rw [load, load, hfirst, ih fun i hi => ?_]
    have hnext := hm (i + 1) (by omega)
    rwa [← Nat.add_assoc, ← Nat.add_assoc, Nat.add_right_comm b, Nat.add_right_comm a] at hnext

theorem load_store (m : Memory) (a n v : Nat) : load (store m a n v) a n = v % 256 ^ n := by
  induction n generalizing a v with
  | zero => rw [load, Nat.pow_zero, Nat.mod_one]
  | succ n ih =>
    have hrest : load (store m a (n + 1) v) (a + 1) n = load (store m (a + 1) n (v / 256)) (a + 1) n :=
      load_congr fun x hle _ => Function.update_of_ne (by omega) ..
    have hfirst : (store m a (n + 1) v a).toNat = v % 256 := by
      rw [store, Function.update_self]
      exact UInt8.toNat_ofNat ..
    rw [load, hfirst, hrest, ih, Nat.pow_succ', Nat.mod_mul]

theorem load_store_apart (h : a + n ≤ b ∨ b + k ≤ a) : load (store m b k v) a n = load m a n :=
  load_congr fun x hle hlt => store_outside (by omega)

theorem copy_outside {dst src : Nat} (hx : x < dst ∨ dst + n ≤ x) : copy m dst src n x = m x := if_neg (by omega)

theorem copy_inside {dst src : Nat} (hx : x < n) : copy m dst src n (dst + x) = m (src + x) := by
  rw [copy, if_pos (by omega), Nat.add_sub_cancel_left]

theorem fill_outside {dst : Nat} {c : UInt8} (hx : x < dst ∨ dst + n ≤ x) : fill m dst n c x = m x :=
  if_neg (by omega)

end Bytes
