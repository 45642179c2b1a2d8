import Mathlib.Data.List.Basic
import Mathlib.Logic.Function.Basic
import Mathlib.Tactic.Common

/-!
# Singly linked lists

`next` is the successor of every cell, and `none` is the null pointer. `Linked next p l` says that the cells reached
from `p` are those of `l`, in this order, and that the last one has no successor.
-/

namespace Chain

variable {α : Type*}

def Linked (next : α → Option α) : Option α → List α → Prop
  | p, [] => p = none
  | p, i :: l => p = some i ∧ Linked next (next i) l

variable {next next' : α → Option α} {p : Option α} {i j : α} {l : List α}

theorem linked_none : Linked next none l ↔ l = [] := by
  cases l <;> simp [Linked]

theorem Linked.head (h : Linked next p l) : p = l.head? := by
  cases l with
  | nil => exact h
  | cons i l => exact h.1

/-- A pointer that is not null has a cell, and the list goes on behind it. -/
theorem linked_some : Linked next (some i) l ↔ ∃ rest, l = i :: rest ∧ Linked next (next i) rest := by
  cases l with
  | nil => simp [Linked]
  | cons j l =>
    constructor
    · rintro ⟨he, hl⟩
      obtain rfl := Option.some.inj he
      exact ⟨l, rfl, hl⟩
    · rintro ⟨rest, he, hl⟩
      obtain ⟨rfl, rfl⟩ := List.cons.inj he
      exact ⟨rfl, hl⟩

theorem Linked.unique {l' : List α} (h : Linked next p l) (h' : Linked next p l') : l = l' := by
  induction l generalizing p l' with
  | nil =>
    obtain rfl : p = none := h
    exact (linked_none.mp h').symm
  | cons i l ih =>
    obtain ⟨rfl, hl⟩ := h
    obtain ⟨rest, rfl, hrest⟩ := linked_some.mp h'
    rw [ih hl hrest]

theorem Linked.congr (h : Linked next p l) (hsame : ∀ i ∈ l, next' i = next i) : Linked next' p l := by
  induction l generalizing p with
  | nil => exact h
  | cons i l ih =>
    refine ⟨h.1, ?_⟩
    rw [hsame i (List.mem_cons_self ..)]
    exact ih h.2 fun j hj => hsame j (List.mem_cons_of_mem _ hj)

variable [DecidableEq α]

theorem Linked.update (h : Linked next p l) (hi : i ∉ l) (q : Option α) :
    Linked (Function.update next i q) p l :=
  h.congr fun _ hj => Function.update_of_ne (ne_of_mem_of_not_mem hj hi) _ _

theorem Linked.push (h : Linked next p l) (hi : i ∉ l) :
    Linked (Function.update next i p) (some i) (i :: l) := by
  refine ⟨rfl, ?_⟩
  rw [Function.update_self]
  exact h.update hi p

theorem Linked.append (h : Linked next p (l ++ [j])) (hnodup : (l ++ [j]).Nodup) (hi : i ∉ l ++ [j])
    (hnext : next i = none) : Linked (Function.update next j (some i)) p (l ++ [j] ++ [i]) := by
  induction l generalizing p with
  | nil =>
    have hij : i ≠ j := fun he => hi (by simp [he])
    refine ⟨h.1, ?_⟩
    rw [Function.update_self]
    exact ⟨rfl, (Function.update_of_ne hij _ _).trans hnext⟩
  | cons k l ih =>
    have hkj : k ≠ j := fun he => (List.nodup_cons.mp hnodup).1 (by simp [he])
    refine ⟨h.1, ?_⟩
    rw [Function.update_of_ne hkj]
    exact ih h.2 (List.nodup_cons.mp hnodup).2 fun hm => hi (List.mem_cons_of_mem _ hm)

end Chain
