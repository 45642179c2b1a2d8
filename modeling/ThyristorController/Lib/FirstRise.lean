import Mathlib.Order.Lattice
import Mathlib.Algebra.Notation.Defs
import Mathlib.Tactic.Common

/-!
# A search that stops when the error rises

Candidates are tried one after the other. The search ends at a usable candidate without an error, and at the first one
whose error is above the least error so far; then the candidate with that least error is the result. It starts with a
bound in place of a least error and with no candidate, so it may end without a result (`some none`), and it may run out
of candidates (`none`). `search_iff` says when it has a result, `search_result` what a result is.
-/

namespace FirstRise

variable {α : Type*} [LinearOrder α] [Zero α]

section search

variable (usable : ℕ → Prop) [DecidablePred usable] (error : ℕ → α)

/-- Try `n` candidates from `i` on; `best` is the error of the candidate `index`, or the bound. -/
def search : ℕ → ℕ → α → Option ℕ → Option (Option ℕ)
  | 0, _, _, _ => none
  | n + 1, i, best, index =>
    if usable i then
      if best < error i then some index
      else if error i = 0 then some (some i)
      else if error i < best then search n (i + 1) (error i) (some i)
      else search n (i + 1) best index
    else search n (i + 1) best index

/-- A candidate at which the search stops, if it comes from `i` with the least error `best`. -/
def Stops (best : α) (i j : ℕ) : Prop :=
  usable j ∧ (error j = 0 ∨ best < error j ∨ ∃ k, i ≤ k ∧ k < j ∧ usable k ∧ error k < error j)

end search

variable {usable : ℕ → Prop} [DecidablePred usable] {error : ℕ → α} {n i j k k₀ : ℕ} {best : α} {index : Option ℕ}

/-! ## One candidate -/

section step

variable (n index)

theorem search_unusable (hi : ¬ usable i) :
    search usable error (n + 1) i best index = search usable error n (i + 1) best index := by
  rw [search, if_neg hi]

theorem search_rise (hi : usable i) (hrise : best < error i) :
    search usable error (n + 1) i best index = some index := by
  rw [search, if_pos hi, if_pos hrise]

theorem search_exact (hi : usable i) (hpos : 0 < best) (hzero : error i = 0) :
    search usable error (n + 1) i best index = some (some i) := by
  rw [search, if_pos hi, if_neg (by rw [hzero]; exact hpos.le.not_gt), if_pos hzero]

theorem search_less (hi : usable i) (hzero : error i ≠ 0) (hless : error i < best) :
    search usable error (n + 1) i best index = search usable error n (i + 1) (error i) (some i) := by
  rw [search, if_pos hi, if_neg hless.le.not_gt, if_neg hzero, if_pos hless]

theorem search_same (hi : usable i) (hpos : 0 < best) (hsame : error i = best) :
    search usable error (n + 1) i best index = search usable error n (i + 1) best index := by
  rw [search, if_pos hi, if_neg (by rw [hsame]; exact lt_irrefl _), if_neg (by rw [hsame]; exact hpos.ne'),
    if_neg (by rw [hsame]; exact lt_irrefl _)]

end step

/-! ## Stopping -/

section stops

omit [DecidablePred usable]

theorem exists_from_succ (hij : i < j) {p : ℕ → Prop} :
    (∃ k, i ≤ k ∧ k < j ∧ p k) ↔ p i ∨ ∃ k, i + 1 ≤ k ∧ k < j ∧ p k := by
  constructor
  · rintro ⟨k, hk, hkj, hp⟩
    rcases Nat.eq_or_lt_of_le hk with rfl | hlt
    · exact .inl hp
    · exact .inr ⟨k, hlt, hkj, hp⟩
  · rintro (hp | ⟨k, hk, hkj, hp⟩)
    · exact ⟨i, Nat.le_refl i, hij, hp⟩
    · exact ⟨k, Nat.le_of_succ_le hk, hkj, hp⟩

theorem stops_succ {best' : α} (hij : i < j)
    (hbest : best < error j ∨ (usable i ∧ error i < error j) ↔ best' < error j) :
    Stops usable error best i j ↔ Stops usable error best' (i + 1) j := by
  unfold Stops
  rw [exists_from_succ hij, ← hbest, or_assoc]

theorem exists_stops_succ {best' : α} (hnot : ¬ Stops usable error best i i)
    (hbest : ∀ e, best < e ∨ (usable i ∧ error i < e) ↔ best' < e) :
    (∃ j, i ≤ j ∧ j < i + (n + 1) ∧ Stops usable error best i j) ↔
      ∃ j, i + 1 ≤ j ∧ j < i + 1 + n ∧ Stops usable error best' (i + 1) j := by
  constructor
  · rintro ⟨j, hij, hjn, hstops⟩
    rcases Nat.eq_or_lt_of_le hij with rfl | hlt
    · exact absurd hstops hnot
    · exact ⟨j, hlt, by omega, (stops_succ hlt (hbest _)).mp hstops⟩
  · rintro ⟨j, hij, hjn, hstops⟩
    exact ⟨j, by omega, by omega, (stops_succ hij (hbest _)).mpr hstops⟩

theorem not_stops_self (hle : usable i → error i ≤ best) (hzero : error i ≠ 0) :
    ¬ Stops usable error best i i := by
  rintro ⟨hi, hz | hrise | ⟨k, hk, hki, -⟩⟩
  · exact hzero hz
  · exact (hle hi).not_gt hrise
  · omega

end stops

/-! ## The whole search -/

/-- With a candidate at hand the search has a result exactly if it stops. -/
theorem search_some_iff (hnonneg : ∀ k, 0 ≤ error k) (hpos : 0 < best) :
    (∃ k, search usable error n i best (some k₀) = some (some k)) ↔
      ∃ j, i ≤ j ∧ j < i + n ∧ Stops usable error best i j := by
  induction n generalizing i best k₀ with
  | zero =>
    simp only [search, reduceCtorEq, exists_false, false_iff]
    rintro ⟨j, hij, hji, -⟩
    omega
  | succ n ih =>
    by_cases hi : usable i
    · rcases lt_trichotomy best (error i) with hrise | hsame | hless
      · rw [search_rise n _ hi hrise]
        exact ⟨fun _ => ⟨i, Nat.le_refl i, by omega, hi, .inr (.inl hrise)⟩, fun _ => ⟨k₀, rfl⟩⟩
      · rw [search_same n _ hi hpos hsame.symm, ih hpos]
        refine (exists_stops_succ (not_stops_self (fun _ => hsame.ge) (hsame ▸ hpos.ne')) fun e => ?_).symm
        rw [← hsame]
        tauto
      · by_cases hzero : error i = 0
        · rw [search_exact n _ hi hpos hzero]
          exact ⟨fun _ => ⟨i, Nat.le_refl i, by omega, hi, .inl hzero⟩, fun _ => ⟨i, rfl⟩⟩
        · rw [search_less n _ hi hzero hless, ih (lt_of_le_of_ne (hnonneg i) (Ne.symm hzero))]
          refine (exists_stops_succ (not_stops_self (fun _ => hless.le) hzero) fun e => ?_).symm
          exact ⟨fun h => h.elim hless.trans (·.2), fun h => .inr ⟨hi, h⟩⟩
    · rw [search_unusable n _ hi, ih hpos]
      refine (exists_stops_succ (fun h => hi h.1) fun e => ?_).symm
      tauto

/-- The first candidate from `i` on that does not meet the bound lies below it, and the search stops from there before
candidate `m`. -/
def Finds (usable : ℕ → Prop) (error : ℕ → α) (best : α) (i m : ℕ) : Prop :=
  ∃ a, i ≤ a ∧ (usable a ∧ error a < best) ∧ (∀ k, i ≤ k → k < a → usable k → error k = best) ∧
    ∃ j, a ≤ j ∧ j < m ∧ Stops usable error best a j

section finds

variable {m : ℕ}

omit [DecidablePred usable] in
theorem finds_succ (hsame : usable i → error i = best) :
    Finds usable error best i m ↔ Finds usable error best (i + 1) m := by
  constructor
  · rintro ⟨a, hia, ha, hbefore, hstops⟩
    have hne : i ≠ a := by
      rintro rfl
      exact ha.2.ne (hsame ha.1)
    exact ⟨a, by omega, ha, fun k hk => hbefore k (by omega), hstops⟩
  · rintro ⟨a, hia, ha, hbefore, hstops⟩
    refine ⟨a, by omega, ha, fun k hk hka hku => ?_, hstops⟩
    rcases Nat.eq_or_lt_of_le hk with rfl | hlt
    · exact hsame hku
    · exact hbefore k hlt hka hku

omit [DecidablePred usable] in
theorem finds_less (hi : usable i) (hless : error i < best) :
    Finds usable error best i m ↔ ∃ j, i ≤ j ∧ j < m ∧ Stops usable error best i j := by
  constructor
  · rintro ⟨a, hia, -, hbefore, hstops⟩
    rcases Nat.eq_or_lt_of_le hia with rfl | hlt
    · exact hstops
    · exact absurd (hbefore i (Nat.le_refl i) hlt hi) hless.ne
  · exact fun hstops => ⟨i, Nat.le_refl i, ⟨hi, hless⟩, fun k hk hki => absurd hk (by omega), hstops⟩

omit [DecidablePred usable] in
theorem not_finds_rise (hi : usable i) (hrise : best < error i) : ¬ Finds usable error best i m := by
  rintro ⟨a, hia, ha, hbefore, -⟩
  rcases Nat.eq_or_lt_of_le hia with rfl | hlt
  · exact absurd ha.2 hrise.not_gt
  · exact absurd (hbefore i (Nat.le_refl i) hlt hi) hrise.ne'

end finds

/-- Without a candidate at hand the search has a result exactly if it finds one and stops. -/
theorem search_iff (hnonneg : ∀ k, 0 ≤ error k) (hpos : 0 < best) :
    (∃ k, search usable error n i best none = some (some k)) ↔ Finds usable error best i (i + n) := by
  induction n generalizing i with
  | zero =>
    simp only [search, reduceCtorEq, exists_false, false_iff]
    rintro ⟨a, hia, -, -, j, haj, hji, -⟩
    omega
  | succ n ih =>
    have ih' := @ih (i + 1)
    rw [show i + 1 + n = i + (n + 1) by omega] at ih'
    by_cases hi : usable i
    · rcases lt_trichotomy best (error i) with hrise | hsame | hless
      · rw [search_rise n _ hi hrise]
        exact iff_of_false (fun ⟨k, hk⟩ => by cases hk) (not_finds_rise hi hrise)
      · rw [search_same n _ hi hpos hsame.symm, ih', finds_succ fun _ => hsame.symm]
      · rw [finds_less hi hless]
        by_cases hzero : error i = 0
        · rw [search_exact n _ hi hpos hzero]
          exact ⟨fun _ => ⟨i, Nat.le_refl i, by omega, hi, .inl hzero⟩, fun _ => ⟨i, rfl⟩⟩
        · rw [search_less n _ hi hzero hless, search_some_iff hnonneg (lt_of_le_of_ne (hnonneg i) (Ne.symm hzero))]
          refine (exists_stops_succ (not_stops_self (fun _ => hless.le) hzero) fun e => ?_).symm
          exact ⟨fun h => h.elim hless.trans (·.2), fun h => .inr ⟨hi, h⟩⟩
    · rw [search_unusable n _ hi, ih', finds_succ fun h => absurd h hi]

/-- A result is usable; it has no error, or less than a later candidate. -/
theorem search_result (hpos : 0 < best) (hnonneg : ∀ k, 0 ≤ error k)
    (hresult : search usable error n i best index = some (some k)) :
    (index = some k ∧ ∃ j, i ≤ j ∧ best < error j) ∨
      (i ≤ k ∧ usable k ∧ (error k = 0 ∨ ∃ j, k < j ∧ error k < error j)) := by
  induction n generalizing i best index with
  | zero => cases hresult
  | succ n ih =>
    by_cases hi : usable i
    · rcases lt_trichotomy best (error i) with hrise | hsame | hless
      · rw [search_rise n _ hi hrise] at hresult
        exact .inl ⟨Option.some.inj hresult, i, Nat.le_refl i, hrise⟩
      · rw [search_same n _ hi hpos hsame.symm] at hresult
        exact (ih hpos hresult).imp (fun ⟨h, j, hj, hlt⟩ => ⟨h, j, by omega, hlt⟩) fun ⟨h, hk⟩ => ⟨by omega, hk⟩
      · by_cases hzero : error i = 0
        · rw [search_exact n _ hi hpos hzero] at hresult
          obtain rfl := Option.some.inj (Option.some.inj hresult)
          exact .inr ⟨Nat.le_refl i, hi, .inl hzero⟩
        · rw [search_less n _ hi hzero hless] at hresult
          rcases ih (lt_of_le_of_ne (hnonneg i) (Ne.symm hzero)) hresult with ⟨h, j, hj, hlt⟩ | ⟨h, hk⟩
          · obtain rfl := Option.some.inj h
            exact .inr ⟨Nat.le_refl i, hi, .inr ⟨j, hj, hlt⟩⟩
          · exact .inr ⟨by omega, hk⟩
    · rw [search_unusable n _ hi] at hresult
      exact (ih hpos hresult).imp (fun ⟨h, j, hj, hlt⟩ => ⟨h, j, by omega, hlt⟩) fun ⟨h, hk⟩ => ⟨by omega, hk⟩

end FirstRise
