import Mathlib.Data.List.Basic
import Mathlib.Data.List.Infix
import Mathlib.Data.List.TakeDrop
import Mathlib.Tactic.Common

/-!
# The common beginning of names

A text is completed to the longest common prefix of the names that begin with it, and stays as it is if there are none.
`prefix_complete_iff` is what that means, without a word about how it is found.
-/

namespace Completion

variable {α : Type*} [DecidableEq α]

/-- The longest common prefix of two lists. -/
def common : List α → List α → List α
  | a :: l, b :: l' => if a = b then a :: common l l' else []
  | _, _ => []

/-- The completion of a text by the names that begin with it. -/
def complete (names : List (List α)) (p : List α) : List α :=
  match names.filter fun n => p.isPrefixOf n with
  | [] => p
  | f :: ts => ts.foldl common f

variable {l l' d f p n : List α} {names ts : List (List α)} {m : Nat}

theorem prefix_common_iff : d <+: common l l' ↔ d <+: l ∧ d <+: l' := by
  induction l generalizing l' d with
  | nil => simp [common]; rintro rfl; exact List.nil_prefix
  | cons a l ih =>
    cases l' with
    | nil => simp [common]; rintro rfl; exact List.nil_prefix
    | cons b l' =>
      cases d with
      | nil => simp
      | cons x d =>
        by_cases hab : a = b
        · subst hab
          simp only [common, if_true, List.cons_prefix_cons, ih]
          tauto
        · simp only [common, hab, if_false, List.prefix_nil, List.cons_prefix_cons, reduceCtorEq, false_iff]
          rintro ⟨⟨rfl, -⟩, h, -⟩
          exact hab h

theorem common_prefix_left (l l' : List α) : common l l' <+: l := (prefix_common_iff.mp List.prefix_rfl).1

theorem common_take (l l' : List α) (m : Nat) : common (l.take m) l' = l.take (min m (common l l').length) := by
  induction l generalizing l' m with
  | nil => simp [common]
  | cons a l ih =>
    cases m with
    | zero => simp [common]
    | succ m =>
      cases l' with
      | nil => simp [common]
      | cons b l' =>
        by_cases hab : a = b
        · simp only [List.take_succ_cons, common, hab, if_true, ih, List.length_cons, Nat.succ_min_succ]
        · simp [common, hab]

theorem isPrefix_foldl_common (f : List α) (ts : List (List α)) : ts.foldl common f <+: f := by
  induction ts generalizing f with
  | nil => exact List.prefix_rfl
  | cons t ts ih => exact (ih _).trans (common_prefix_left f t)

theorem prefix_foldl_common_iff : d <+: ts.foldl common f ↔ d <+: f ∧ ∀ t ∈ ts, d <+: t := by
  induction ts generalizing f with
  | nil => simp
  | cons t ts ih =>
    rw [List.foldl_cons, ih, prefix_common_iff]
    simp only [List.forall_mem_cons]
    tauto

theorem complete_of_none (hnone : names.filter (fun n => p.isPrefixOf n) = []) : complete names p = p := by
  rw [complete, hnone]

/-- The completion is the longest text with which all names begin that begin with `p`. -/
theorem prefix_complete_iff (hsome : ∃ n ∈ names, p <+: n) :
    d <+: complete names p ↔ ∀ n ∈ names, p <+: n → d <+: n := by
  cases hf : names.filter fun n => p.isPrefixOf n with
  | nil =>
    obtain ⟨n, hn, hp⟩ := hsome
    exact absurd (List.filter_eq_nil_iff.mp hf n hn) (by simpa using hp)
  | cons f ts =>
    have hmem (n : List α) : n ∈ f :: ts ↔ n ∈ names ∧ p <+: n := by
      rw [← hf, List.mem_filter, List.isPrefixOf_iff_prefix]
    rw [complete, hf]
    dsimp only
    rw [prefix_foldl_common_iff, ← List.forall_mem_cons (p := fun t => d <+: t)]
    exact ⟨fun h n hn hp => h n ((hmem n).mpr ⟨hn, hp⟩), fun h n hn => h n ((hmem n).mp hn).1 ((hmem n).mp hn).2⟩

theorem prefix_complete (names : List (List α)) (p : List α) : p <+: complete names p := by
  by_cases hsome : ∃ n ∈ names, p <+: n
  · exact (prefix_complete_iff hsome).mpr fun _ _ hp => hp
  · rw [complete_of_none]
    refine List.filter_eq_nil_iff.mpr fun n hn hp => hsome ⟨n, hn, ?_⟩
    exact List.isPrefixOf_iff_prefix.mp hp

theorem mem_complete {x : α} (hx : x ∈ complete names p) : x ∈ p ∨ ∃ n ∈ names, x ∈ n := by
  cases hf : names.filter fun n => p.isPrefixOf n with
  | nil => exact .inl (by rwa [complete_of_none hf] at hx)
  | cons f ts =>
    rw [complete, hf] at hx
    have hmem : f ∈ names := (List.mem_filter.mp (hf ▸ List.mem_cons_self)).1
    exact .inr ⟨f, hmem, (isPrefix_foldl_common f ts).subset hx⟩

end Completion
