import Mathlib.Algebra.Group.Nat.Defs
import Mathlib.Data.List.Pairwise
import Mathlib.Data.List.Perm.Basic
import Mathlib.Order.Basic
import Mathlib.Tactic.Common

/-!
# Wrapping clocks and queues of deadlines

`stamp base n` is what a counter of `w` bits shows after `n` ticks. Differences of stamps are compared instead of the
stamps; they tell the order of two times that are near each other.

`Ordered.insert` puts an element before the first one that a test stops at. If the test compares ranks, a list that is
sorted by rank stays sorted.
-/

namespace Clock

variable {w : Nat} {base : BitVec w} {m n : Nat}

def stamp (base : BitVec w) (n : Nat) : BitVec w := base + BitVec.ofNat w n

@[simp] theorem stamp_zero : stamp base 0 = base := BitVec.add_zero base

theorem stamp_add (base : BitVec w) (m n : Nat) : stamp base (m + n) = stamp base m + BitVec.ofNat w n := by
  rw [stamp, stamp, BitVec.ofNat_add, BitVec.add_assoc]

theorem stamp_succ (base : BitVec w) (n : Nat) : stamp base (n + 1) = stamp base n + 1 := stamp_add base n 1

theorem stamp_sub_add (base : BitVec w) (m k : Nat) : stamp base (m + k) - stamp base m = BitVec.ofNat w k := by
  rw [stamp_add, BitVec.add_comm, BitVec.add_sub_cancel]

theorem stamp_sub_of_le (hle : m ≤ n) (hlt : n - m < 2 ^ w) : (stamp base n - stamp base m).toNat = n - m := by
  obtain ⟨k, rfl⟩ := Nat.exists_eq_add_of_le hle
  rw [Nat.add_sub_cancel_left] at hlt ⊢
  rw [stamp_sub_add, BitVec.toNat_ofNat]
  exact Nat.mod_eq_of_lt hlt

theorem stamp_sub_of_lt (hlt : n < m) (hle : m - n < 2 ^ w) :
    (stamp base n - stamp base m).toNat = 2 ^ w - (m - n) := by
  obtain ⟨k, rfl⟩ := Nat.exists_eq_add_of_le (Nat.le_of_lt hlt)
  rw [Nat.add_sub_cancel_left] at hle ⊢
  have hneg : stamp base n - stamp base (n + k) = -BitVec.ofNat w k := by
    rw [← stamp_sub_add base n k, BitVec.neg_sub, BitVec.add_comm, ← BitVec.sub_eq_add_neg]
  rw [hneg, BitVec.toNat_neg, BitVec.toNat_ofNat, Nat.mod_eq_of_lt hle]
  exact Nat.mod_eq_of_lt (by omega)

variable {half : Nat}

theorem stamp_sub_eq_zero_iff (hpast : m - n < 2 ^ w) (hfuture : n - m < 2 ^ w) :
    stamp base n - stamp base m = 0#w ↔ n = m := by
  rcases Nat.lt_or_ge n m with hlt | hge
  · have hsub : (stamp base n - stamp base m).toNat = 2 ^ w - (m - n) := stamp_sub_of_lt hlt hpast
    constructor
    · intro he
      rw [he, BitVec.toNat_zero] at hsub
      omega
    · omega
  · have hsub : (stamp base n - stamp base m).toNat = n - m := stamp_sub_of_le hge hfuture
    constructor
    · intro he
      rw [he, BitVec.toNat_zero] at hsub
      omega
    · rintro rfl
      exact BitVec.sub_self _

theorem stamp_sub_lt_iff (hpast : m - n + half ≤ 2 ^ w) (hfuture : n - m < half) (hhalf : half < 2 ^ w) :
    (stamp base n - stamp base m).toNat < half ↔ m ≤ n := by
  rcases Nat.lt_or_ge n m with hlt | hge
  · rw [stamp_sub_of_lt hlt (by omega)]
    omega
  · rw [stamp_sub_of_le hge (by omega)]
    omega

end Clock

namespace Ordered

variable {α β : Type*}

/-- Put an element before the first one that `stop` holds of. -/
def insert (stop : α → Bool) (a : α) : List α → List α
  | [] => [a]
  | b :: l => if stop b then a :: b :: l else b :: insert stop a l

variable {stop : α → Bool} {a : α} {l : List α}

theorem insert_perm : (insert stop a l).Perm (a :: l) := by
  induction l with
  | nil => exact .rfl
  | cons b l ih =>
    unfold insert
    split
    · exact .rfl
    · exact (ih.cons b).trans (.swap a b l)

@[simp] theorem mem_insert {b : α} : b ∈ insert stop a l ↔ b = a ∨ b ∈ l :=
  insert_perm.mem_iff.trans List.mem_cons

theorem insertIdx_findIdx : l.insertIdx (l.findIdx stop) a = insert stop a l := by
  induction l with
  | nil => rfl
  | cons b l ih =>
    rw [List.findIdx_cons, insert]
    cases hs : stop b with
    | true => rfl
    | false => exact congrArg (b :: ·) ih

/-- A list that is sorted by rank stays sorted, if the test stops at the larger ranks. -/
theorem pairwise_insert [Preorder β] {rank : α → β} (hl : l.Pairwise fun b c => rank b < rank c)
    (hstop : ∀ b ∈ l, stop b = true → rank a < rank b) (hgo : ∀ b ∈ l, stop b = false → rank b < rank a) :
    (insert stop a l).Pairwise fun b c => rank b < rank c := by
  induction l with
  | nil => exact List.pairwise_singleton _ _
  | cons b l ih =>
    obtain ⟨hb, hrest⟩ := List.pairwise_cons.mp hl
    unfold insert
    split_ifs with hs
    · have hab := hstop b (List.mem_cons_self ..) hs
      refine List.pairwise_cons.mpr ⟨fun c hc => ?_, hl⟩
      rcases List.mem_cons.mp hc with rfl | hc
      · exact hab
      · exact hab.trans (hb c hc)
    · have hba := hgo b (List.mem_cons_self ..) (by simpa using hs)
      refine List.pairwise_cons.mpr ⟨fun c hc => ?_, ih hrest
        (fun c hc => hstop c (List.mem_cons_of_mem _ hc)) fun c hc => hgo c (List.mem_cons_of_mem _ hc)⟩
      rcases mem_insert.mp hc with rfl | hc
      · exact hba
      · exact hb c hc

end Ordered
