import Mathlib.Logic.Function.Basic
import Mathlib.Tactic.Common

/-!
# Loops over cells

A memory has a cell for each address, and addresses of `w` bits wrap. `fillCells` and `copyCells` are the loops that
write one cell after the other; a loop of `k + n` cells is one of `k` cells and one of `n` behind it. Nothing but the
written range changes, and the copy of a range that is apart from its source has the cells of the source.
-/

namespace CellLoops

variable {w : Nat} {β : Type*}

/-- Write `c` to the `n` cells from `a` on. -/
def fillCells (m : BitVec w → β) (a : BitVec w) (c : β) : Nat → BitVec w → β
  | 0 => m
  | n + 1 => fillCells (Function.update m a c) (a + 1) c n

/-- Write the `n` cells from `src` on to those from `dst` on. -/
def copyCells (m : BitVec w → β) (dst src : BitVec w) : Nat → BitVec w → β
  | 0 => m
  | n + 1 => copyCells (Function.update m dst (m src)) (dst + 1) (src + 1) n

/-- The address is one of `n` from `a` on. -/
def InRange (a : BitVec w) (n : Nat) (x : BitVec w) : Prop := ∃ i < n, x = a + BitVec.ofNat w i

variable {m : BitVec w → β} {a dst src x : BitVec w} {c : β} {n k i : Nat}

theorem add_ofNat_zero (a : BitVec w) : a + BitVec.ofNat w 0 = a := BitVec.add_zero a

theorem add_sub_self (a b : BitVec w) : a + b - a = b := by
  rw [BitVec.add_comm, BitVec.add_sub_cancel]

theorem add_succ (a : BitVec w) (k : Nat) : a + BitVec.ofNat w (k + 1) = a + 1 + BitVec.ofNat w k := by
  rw [Nat.add_comm, BitVec.ofNat_add, BitVec.add_assoc]
  rfl

theorem fillCells_add (m : BitVec w → β) (a : BitVec w) (c : β) (k n : Nat) :
    fillCells m a c (k + n) = fillCells (fillCells m a c k) (a + BitVec.ofNat w k) c n := by
  induction k generalizing m a with
  | zero =>
    rw [Nat.zero_add, add_ofNat_zero]
    rfl
  | succ k ih => rw [Nat.succ_add, fillCells, ih, fillCells, add_succ]

theorem copyCells_add (m : BitVec w → β) (dst src : BitVec w) (k n : Nat) : copyCells m dst src (k + n) =
    copyCells (copyCells m dst src k) (dst + BitVec.ofNat w k) (src + BitVec.ofNat w k) n := by
  induction k generalizing m dst src with
  | zero =>
    rw [Nat.zero_add, add_ofNat_zero, add_ofNat_zero]
    rfl
  | succ k ih => rw [Nat.succ_add, copyCells, ih, copyCells, add_succ, add_succ]

theorem not_inRange_succ (h : ¬ InRange a (n + 1) x) : x ≠ a ∧ ¬ InRange (a + 1) n x := by
  refine ⟨fun he => h ⟨0, Nat.succ_pos n, ?_⟩, fun ⟨i, hi, he⟩ => h ⟨i + 1, Nat.succ_lt_succ hi, ?_⟩⟩
  · rw [add_ofNat_zero]
    exact he
  · rw [add_succ]
    exact he

theorem fillCells_outside (h : ¬ InRange a n x) : fillCells m a c n x = m x := by
  induction n generalizing m a with
  | zero => rfl
  | succ n ih =>
    obtain ⟨hne, hrest⟩ := not_inRange_succ h
    rw [fillCells, ih hrest, Function.update_of_ne hne]

theorem copyCells_outside (h : ¬ InRange dst n x) : copyCells m dst src n x = m x := by
  induction n generalizing m dst src with
  | zero => rfl
  | succ n ih =>
    obtain ⟨hne, hrest⟩ := not_inRange_succ h
    rw [copyCells, ih hrest, Function.update_of_ne hne]

theorem fillCells_inside (h : InRange a n x) : fillCells m a c n x = c := by
  induction n generalizing m a with
  | zero =>
    obtain ⟨i, hi, -⟩ := h
    exact absurd hi (Nat.not_lt_zero i)
  | succ n ih =>
    rw [fillCells]
    by_cases hrest : InRange (a + 1) n x
    · exact ih hrest
    · obtain ⟨i, hi, rfl⟩ := h
      rw [fillCells_outside hrest]
      cases i with
      | zero => rw [add_ofNat_zero, Function.update_self]
      | succ i => exact absurd ⟨i, Nat.lt_of_succ_lt_succ hi, add_succ a i⟩ hrest

/-- The ranges have no cell in common. -/
def Apart (dst src : BitVec w) (n : Nat) : Prop :=
  ∀ i < n, ∀ j < n, dst + BitVec.ofNat w i ≠ src + BitVec.ofNat w j

theorem copyCells_inside (h : Apart dst src n) (hi : i < n) :
    copyCells m dst src n (dst + BitVec.ofNat w i) = m (src + BitVec.ofNat w i) := by
  -- the distance from `dst` says which cell is read, so that a cell may be written twice
  have hcell (m : BitVec w → β) (dst src : BitVec w) (n : Nat) (h : Apart dst src n) (x : BitVec w)
      (hx : InRange dst n x) : copyCells m dst src n x = m (src + (x - dst)) := by
    induction n generalizing m dst src with
    | zero =>
      obtain ⟨i, hi, -⟩ := hx
      exact absurd hi (Nat.not_lt_zero i)
    | succ n ih =>
      have happart : Apart (dst + 1) (src + 1) n := fun i hi j hj => by
        rw [← add_succ, ← add_succ]
        exact h (i + 1) (Nat.succ_lt_succ hi) (j + 1) (Nat.succ_lt_succ hj)
      rw [copyCells]
      by_cases hrest : InRange (dst + 1) n x
      · obtain ⟨i, hi, rfl⟩ := hrest
        have hfirst := h 0 (Nat.succ_pos n) (i + 1) (Nat.succ_lt_succ hi)
        rw [add_ofNat_zero] at hfirst
        rw [ih _ _ _ happart ⟨i, hi, rfl⟩, add_sub_self, ← add_succ, ← add_succ, add_sub_self,
          Function.update_of_ne hfirst.symm]
      · obtain ⟨i, hi, rfl⟩ := hx
        rw [copyCells_outside hrest]
        cases i with
        | zero => rw [add_ofNat_zero, Function.update_self, BitVec.sub_self, BitVec.add_zero]
        | succ i => exact absurd ⟨i, Nat.lt_of_succ_lt_succ hi, add_succ dst i⟩ hrest
  rw [hcell m dst src n h _ ⟨i, hi, rfl⟩, add_sub_self]

end CellLoops
