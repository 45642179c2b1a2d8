import Mathlib.Algebra.Group.Nat.Defs
import Mathlib.Logic.Function.Basic
import Mathlib.Tactic.Common

/-!
# Text that is written to a bounded buffer

A writer has the address of the next character. `put` advances it by one, and stores the character only in front of
`stop`. As long as the address does not wrap, what is stored of a text is its beginning, up to `stop`, at the place of
the writer (`putAll_mem`), nothing else is stored (`putAll_stored`), and the address counts the whole text
(`putAll_str`). `wrote_putAll` puts this together for a writer that starts.
-/

namespace TextBuffer

variable {w : Nat}

/-- Memory, the address of the next character, and the addresses that were stored to, newest first. -/
structure Out (w : Nat) where
  mem : BitVec w → UInt8
  str : BitVec w
  stored : List (BitVec w)

namespace Out

/-- Store a character at an address. -/
def store (o : Out w) (a : BitVec w) (c : UInt8) : Out w :=
  { o with mem := Function.update o.mem a c, stored := a :: o.stored }

/-- Store the next character if it is in front of `stop`, and count it. -/
def put (stop : BitVec w) (o : Out w) (c : UInt8) : Out w :=
  let o' := if o.str < stop then o.store o.str c else o
  { o' with str := o.str + 1 }

/-- Put one character so many times. -/
def putN (stop : BitVec w) (o : Out w) (c : UInt8) : Nat → Out w
  | 0 => o
  | n + 1 => putN stop (o.put stop c) c n

/-- Put a text. -/
def putAll (stop : BitVec w) (o : Out w) (l : List UInt8) : Out w := l.foldl (put stop) o

end Out

variable {stop : BitVec w} {o : Out w} {c : UInt8} {l : List UInt8} {a : BitVec w} {n i : Nat}

@[simp] theorem putAll_nil : o.putAll stop [] = o := rfl

@[simp] theorem putAll_cons : o.putAll stop (c :: l) = (o.put stop c).putAll stop l := rfl

theorem putAll_append (l l' : List UInt8) : o.putAll stop (l ++ l') = (o.putAll stop l).putAll stop l' :=
  List.foldl_append

theorem putN_eq : o.putN stop c n = o.putAll stop (List.replicate n c) := by
  induction n generalizing o with
  | zero => rfl
  | succ n ih =>
    rw [Out.putN, ih, List.replicate_succ]
    rfl

theorem store_mem_self (o : Out w) (a : BitVec w) (c : UInt8) : (o.store a c).mem a = c := Function.update_self _ _ _

theorem store_mem_of_ne {b : BitVec w} (h : b ≠ a) : (o.store a c).mem b = o.mem b := Function.update_of_ne h _ _

theorem put_str : (o.put stop c).str = o.str + 1 := rfl

theorem mem_put_stored (ha : a ∈ (o.put stop c).stored) : a ∈ o.stored ∨ a = o.str ∧ a < stop := by
  unfold Out.put at ha
  by_cases hlt : o.str < stop
  · rw [if_pos hlt] at ha
    rcases List.mem_cons.mp ha with rfl | ha
    · exact .inr ⟨rfl, hlt⟩
    · exact .inl ha
  · rw [if_neg hlt] at ha
    exact .inl ha

theorem put_mem_of_ne (ha : a ≠ o.str) : (o.put stop c).mem a = o.mem a := by
  unfold Out.put
  by_cases hlt : o.str < stop
  · rw [if_pos hlt]
    exact Function.update_of_ne ha _ _
  · rw [if_neg hlt]

theorem put_mem_self (hlt : o.str < stop) : (o.put stop c).mem o.str = c := by
  unfold Out.put
  rw [if_pos hlt]
  exact Function.update_self _ _ _

theorem put_stored_of_mem (ha : a ∈ o.stored) : a ∈ (o.put stop c).stored := by
  unfold Out.put
  by_cases hlt : o.str < stop
  · rw [if_pos hlt]
    exact List.mem_cons_of_mem _ ha
  · rw [if_neg hlt]
    exact ha

theorem put_mem_unstored (ha : a ∉ (o.put stop c).stored) : (o.put stop c).mem a = o.mem a := by
  unfold Out.put at ha ⊢
  by_cases hlt : o.str < stop
  · rw [if_pos hlt] at ha ⊢
    exact Function.update_of_ne (List.ne_of_not_mem_cons ha) _ _
  · rw [if_neg hlt]

theorem putAll_stored_of_mem (ha : a ∈ o.stored) : a ∈ (o.putAll stop l).stored := by
  induction l generalizing o with
  | nil => exact ha
  | cons c l ih => exact ih (put_stored_of_mem ha)

theorem putAll_mem_unstored (ha : a ∉ (o.putAll stop l).stored) : (o.putAll stop l).mem a = o.mem a := by
  induction l generalizing o with
  | nil => rfl
  | cons c l ih =>
    rw [putAll_cons, ih ha]
    exact put_mem_unstored fun hm => ha (putAll_stored_of_mem (o := o.put stop c) hm)

theorem put_str_toNat (stop : BitVec w) (c : UInt8) (h : o.str.toNat + 1 < 2 ^ w) :
    (o.put stop c).str.toNat = o.str.toNat + 1 := by
  have hone : (1#w).toNat = 1 := by
    have hw : 1 < 2 ^ w := by omega
    rw [BitVec.toNat_ofNat, Nat.mod_eq_of_lt hw]
  rw [put_str, BitVec.toNat_add, show (1 : BitVec w).toNat = 1 from hone, Nat.mod_eq_of_lt h]

theorem putAll_str (stop : BitVec w) (h : o.str.toNat + l.length < 2 ^ w) :
    (o.putAll stop l).str.toNat = o.str.toNat + l.length := by
  induction l generalizing o with
  | nil => rfl
  | cons c l ih =>
    rw [List.length_cons] at h
    have hput := put_str_toNat stop c (show o.str.toNat + 1 < 2 ^ w by omega)
    rw [putAll_cons, ih (by omega), hput, List.length_cons]
    omega

/-- Only addresses from the writer's place on and in front of `stop` are stored to. -/
theorem putAll_stored (h : o.str.toNat + l.length < 2 ^ w) (ha : a ∈ (o.putAll stop l).stored) :
    a ∈ o.stored ∨ o.str.toNat ≤ a.toNat ∧ a < stop := by
  induction l generalizing o with
  | nil => exact .inl ha
  | cons c l ih =>
    rw [List.length_cons] at h
    have hput := put_str_toNat stop c (show o.str.toNat + 1 < 2 ^ w by omega)
    rcases ih (by omega) ha with ha | ⟨hle, hlt⟩
    · rcases mem_put_stored ha with ha | ⟨rfl, hlt⟩
      · exact .inl ha
      · exact .inr ⟨Nat.le_refl _, hlt⟩
    · exact .inr ⟨by omega, hlt⟩

theorem putAll_mem_of_lt (h : o.str.toNat + l.length < 2 ^ w) (ha : a.toNat < o.str.toNat) :
    (o.putAll stop l).mem a = o.mem a := by
  induction l generalizing o with
  | nil => rfl
  | cons c l ih =>
    rw [List.length_cons] at h
    have hput := put_str_toNat stop c (show o.str.toNat + 1 < 2 ^ w by omega)
    rw [putAll_cons, ih (by omega) (by omega)]
    exact put_mem_of_ne fun he => by
      rw [he] at ha
      omega

theorem putAll_mem (h : o.str.toNat + l.length < 2 ^ w) (hi : i < l.length) (hstop : o.str.toNat + i < stop.toNat) :
    (o.putAll stop l).mem (BitVec.ofNat w (o.str.toNat + i)) = l[i] := by
  induction l generalizing o i with
  | nil => cases hi
  | cons c l ih =>
    rw [List.length_cons] at h hi
    have hput := put_str_toNat stop c (show o.str.toNat + 1 < 2 ^ w by omega)
    rw [putAll_cons]
    cases i with
    | zero =>
      have haddr : BitVec.ofNat w (o.str.toNat + 0) = o.str := by simp
      rw [haddr, putAll_mem_of_lt (by omega) (by omega), List.getElem_cons_zero]
      exact put_mem_self (by rw [BitVec.lt_def]; omega)
    | succ i =>
      have hnext := ih (o := o.put stop c) (by omega) (by omega) (show (o.put stop c).str.toNat + i < _ by omega)
      rw [hput, show o.str.toNat + 1 + i = o.str.toNat + (i + 1) by omega] at hnext
      rw [hnext, List.getElem_cons_succ]

/-- What a writer that starts at `start` in the memory `m` is like behind a text. -/
structure Wrote (m : BitVec w → UInt8) (start stop : BitVec w) (l : List UInt8) (o : Out w) : Prop where
  str : o.str.toNat = start.toNat + l.length
  stored : ∀ a ∈ o.stored, start.toNat ≤ a.toNat ∧ a.toNat < stop.toNat
  kept : ∀ a ∉ o.stored, o.mem a = m a
  mem : ∀ i (hi : i < l.length), start.toNat + i < stop.toNat → o.mem (BitVec.ofNat w (start.toNat + i)) = l[i]

theorem wrote_putAll (m : BitVec w → UInt8) {start : BitVec w} (h : start.toNat + l.length < 2 ^ w) :
    Wrote m start stop l (Out.putAll stop { mem := m, str := start, stored := [] } l) where
  str := putAll_str stop h
  stored a ha := by
    rcases putAll_stored h ha with ha | ha
    · cases ha
    · exact ha
  kept _ ha := putAll_mem_unstored ha
  mem _ hi hlt := putAll_mem h hi hlt

end TextBuffer
