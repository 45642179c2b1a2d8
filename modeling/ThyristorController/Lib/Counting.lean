import Mathlib.Data.Finset.Card

/-!
# Counting the owners of a reference

`Counts own n` says that a reference count `n` is the number of its owners, of which there may be any in an infinite
type. An owner is added or leaves with the count.
-/

variable {α : Type*}

/-- So many values have the property. -/
def Counts (own : α → Prop) (n : Int) : Prop := ∃ F : Finset α, (∀ x, x ∈ F ↔ own x) ∧ n = F.card

namespace Counts

variable {own own' : α → Prop} {n : Int} {x : α}

theorem congr (h : Counts own n) (ho : ∀ x, own' x ↔ own x) : Counts own' n := by
  obtain ⟨F, hF, hn⟩ := h
  exact ⟨F, fun x => (hF x).trans (ho x).symm, hn⟩

theorem single (x : α) : Counts (· = x) 1 :=
  ⟨{x}, fun _ => Finset.mem_singleton, by rw [Finset.card_singleton]; rfl⟩

theorem add (h : Counts own n) (hx : ¬ own x) (ho : ∀ y, own' y ↔ own y ∨ y = x) : Counts own' (n + 1) := by
  classical
  obtain ⟨F, hF, hn⟩ := h
  refine ⟨insert x F, fun y => ?_, ?_⟩
  · rw [Finset.mem_insert, hF, ho, or_comm]
  · rw [Finset.card_insert_of_notMem (fun hmem => hx ((hF x).mp hmem))]
    omega

theorem remove (h : Counts own n) (hx : own x) (ho : ∀ y, own' y ↔ own y ∧ y ≠ x) : Counts own' (n - 1) := by
  classical
  obtain ⟨F, hF, hn⟩ := h
  have hmem : x ∈ F := (hF x).mpr hx
  refine ⟨F.erase x, fun y => ?_, ?_⟩
  · rw [Finset.mem_erase, hF, ho, and_comm]
  · have hpos : 0 < F.card := Finset.card_pos.mpr ⟨x, hmem⟩
    rw [Finset.card_erase_of_mem hmem]
    omega

theorem pos (h : Counts own n) (hx : own x) : 0 < n := by
  obtain ⟨F, hF, hn⟩ := h
  have hpos : 0 < F.card := Finset.card_pos.mpr ⟨x, (hF x).mpr hx⟩
  omega

theorem exists_own (h : Counts own n) (hpos : 0 < n) : ∃ x, own x := by
  obtain ⟨F, hF, hn⟩ := h
  obtain ⟨x, hx⟩ := Finset.card_pos.mp (show 0 < F.card by omega)
  exact ⟨x, (hF x).mp hx⟩

theorem not_own (h : Counts own 0) (x : α) : ¬ own x := fun hx => absurd (h.pos hx) (Int.lt_irrefl 0)

theorem nonneg (h : Counts own n) : 0 ≤ n := by
  obtain ⟨F, -, hn⟩ := h
  omega

theorem scan {P : Nat → Prop} {q : Prop} [Decidable q] {c k : Nat} (h : Counts (fun d => d < c ∧ P d) k)
    (hq : q ↔ P c) :
    Counts (fun d => d < c + 1 ∧ P d) (if q then k + 1 else k : Nat) := by
  split
  · rename_i hyes
    refine Int.natCast_add .. ▸ h.add (x := c) (fun hown => absurd hown.1 (Nat.lt_irrefl c)) fun d => ?_
    constructor
    · rintro ⟨hd, hp⟩
      rcases Nat.lt_succ_iff_lt_or_eq.mp hd with hd | hd
      · exact .inl ⟨hd, hp⟩
      · exact .inr hd
    · rintro (⟨hd, hp⟩ | rfl)
      · exact ⟨Nat.lt_succ_of_lt hd, hp⟩
      · exact ⟨Nat.lt_succ_self _, hq.mp hyes⟩
  · rename_i hno
    refine h.congr fun d => ⟨fun hd => ?_, fun hd => ⟨Nat.lt_succ_of_lt hd.1, hd.2⟩⟩
    rcases Nat.lt_succ_iff_lt_or_eq.mp hd.1 with hlt | rfl
    · exact ⟨hlt, hd.2⟩
    · exact absurd (hq.mpr hd.2) hno

end Counts
