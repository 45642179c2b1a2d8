import Mathlib.Data.List.Basic
import Mathlib.Logic.Function.Basic
import Mathlib.Tactic.Common

/-!
# Sets of numbers in words of bits

A set of natural numbers as a sequence of words: the number `n` is the bit `n % w` of the word `n / w`. The operations
work on the word of a number with a mask, or clear the first words one after another; the lemmas say what they mean for
the members.
-/

namespace WordSets

/-- The words of a set. -/
abbrev Words (w : Nat) := Nat → BitVec w

variable {w : Nat}

/-- The word with the bit of a number. -/
def mask (w n : Nat) : BitVec w := 1#w <<< (n % w)

def mem (s : Words w) (n : Nat) : Bool := s (n / w) &&& mask w n ≠ 0#w

def insert (s : Words w) (n : Nat) : Words w := Function.update s (n / w) (s (n / w) ||| mask w n)

/-- The first words are cleared, one after another. -/
def clear (s : Words w) : Nat → Words w
  | 0 => s
  | k + 1 => Function.update (clear s k) k 0#w

section lemmas

variable {s : Words w} {n m k : Nat} {p : Nat → Bool} {l : List Nat}

theorem mem_eq (hw : 0 < w) : mem s n = (s (n / w)).getLsbD (n % w) := by
  have hlt : n % w < w := Nat.mod_lt n hw
  have hne : BitVec.twoPow w (n % w) ≠ 0#w := by
    intro hzero
    have hbit := congrArg (fun b => b.getLsbD (n % w)) hzero
    simp [hlt] at hbit
  rw [mem, mask, ← BitVec.twoPow_eq, BitVec.and_twoPow]
  cases (s (n / w)).getLsbD (n % w) <;> simp [hne]

theorem mem_insert (hw : 0 < w) : mem (insert s n) m = true ↔ m = n ∨ mem s m = true := by
  have hlt : m % w < w := Nat.mod_lt m hw
  rw [mem_eq hw, mem_eq hw, insert]
  by_cases hword : m / w = n / w
  · rw [hword, Function.update_self, BitVec.getLsbD_or, mask, ← BitVec.twoPow_eq, BitVec.getLsbD_twoPow]
    have hsame : m = n ↔ n % w = m % w := by
      constructor
      · intro h
        rw [h]
      · intro h
        rw [← Nat.div_add_mod m w, ← Nat.div_add_mod n w, hword, h]
    simp [hlt, Nat.mod_lt n hw, hsame, or_comm]
  · have hne : m ≠ n := fun h => hword (by rw [h])
    rw [Function.update_of_ne hword]
    simp [hne]

theorem clear_apply (s : Words w) (k i : Nat) : clear s k i = if i < k then 0#w else s i := by
  induction k with
  | zero => rfl
  | succ k ih =>
    rw [clear]
    by_cases hi : i = k
    · rw [hi, Function.update_self, if_pos (Nat.lt_succ_self k)]
    · rw [Function.update_of_ne hi, ih]
      have hlt : i < k + 1 ↔ i < k := by omega
      simp only [hlt]

theorem mem_clear : mem (clear s k) n = true ↔ k ≤ n / w ∧ mem s n = true := by
  rw [mem, mem, clear_apply]
  by_cases hk : n / w < k
  · simp [hk, Nat.not_le.mpr hk]
  · simp [hk, Nat.not_lt.mp hk]

/-- The numbers of a list that satisfy a condition are inserted one after another. -/
theorem mem_insertIf (hw : 0 < w) :
    mem (l.foldl (fun s n => if p n then insert s n else s) s) m = true ↔
      (m ∈ l ∧ p m = true) ∨ mem s m = true := by
  induction l generalizing s with
  | nil => simp
  | cons n l ih =>
    rw [List.foldl_cons, ih]
    by_cases hp : p n = true
    · rw [if_pos hp, mem_insert hw, List.mem_cons]
      constructor
      · rintro (⟨hm, hpm⟩ | rfl | hm)
        · exact .inl ⟨.inr hm, hpm⟩
        · exact .inl ⟨.inl rfl, hp⟩
        · exact .inr hm
      · rintro (⟨rfl | hm, hpm⟩ | hm)
        · exact .inr (.inl rfl)
        · exact .inl ⟨hm, hpm⟩
        · exact .inr (.inr hm)
    · rw [if_neg hp, List.mem_cons]
      constructor
      · rintro (⟨hm, hpm⟩ | hm)
        · exact .inl ⟨.inr hm, hpm⟩
        · exact .inr hm
      · rintro (⟨rfl | hm, hpm⟩ | hm)
        · exact absurd hpm hp
        · exact .inl ⟨hm, hpm⟩
        · exact .inr hm

end lemmas

end WordSets
