import Mathlib.Data.List.Basic
import Mathlib.Tactic.Common

/-!
# Spans in a ring

A list of spans, each from `start i` up to `stop i`, is `Ascending` if each one ends before the next ones begin, and
`Arranged` if it ascends up to some place and goes on from below: the spans behind that place ascend, too, and lie below
all the ones before it. So are the spans in use of a ring, whose first one is the oldest. Whether the list has gone on
from below is seen at its first and last spans alone.
-/

namespace Spans

variable {ι : Type*} {start stop : ι → Nat} {l l' : List ι} {x : ι}

def Ascending (start stop : ι → Nat) (l : List ι) : Prop := l.Pairwise fun i j => stop i ≤ start j

def Arranged (start stop : ι → Nat) (l : List ι) : Prop :=
  ∃ front back, l = front ++ back ∧ Ascending start stop front ∧ Ascending start stop back ∧
    ∀ i ∈ front, ∀ j ∈ back, stop j ≤ start i ∧ start j < start i

theorem arranged_nil : Arranged start stop [] := ⟨[], [], rfl, .nil, .nil, fun _ hi => absurd hi List.not_mem_nil⟩

theorem Arranged.sublist (h : Arranged start stop l) (hl : l'.Sublist l) : Arranged start stop l' := by
  obtain ⟨front, back, rfl, hfront, hback, hbelow⟩ := h
  obtain ⟨front', back', rfl, hf, hb⟩ := List.sublist_append_iff.mp hl
  refine ⟨front', back', rfl, hfront.sublist hf, hback.sublist hb, ?_⟩
  intro i hi j hj
  exact hbelow i (hf.subset hi) j (hb.subset hj)

theorem Arranged.congr {start' stop' : ι → Nat} (h : Arranged start stop l)
    (hstart : ∀ i ∈ l, start' i = start i) (hstop : ∀ i ∈ l, stop' i = stop i) : Arranged start' stop' l := by
  obtain ⟨front, back, rfl, hfront, hback, hbelow⟩ := h
  refine ⟨front, back, rfl, ?_, ?_, ?_⟩
  · refine hfront.imp_of_mem fun {i j} hi hj hij => ?_
    rwa [hstart j (List.mem_append_left _ hj), hstop i (List.mem_append_left _ hi)]
  · refine hback.imp_of_mem fun {i j} hi hj hij => ?_
    rwa [hstart j (List.mem_append_right _ hj), hstop i (List.mem_append_right _ hi)]
  · intro i hi j hj
    rw [hstart i (List.mem_append_left _ hi), hstart j (List.mem_append_right _ hj),
      hstop j (List.mem_append_right _ hj)]
    exact hbelow i hi j hj

section ascending

variable (hle : ∀ i, start i ≤ stop i) (hne : l ≠ [])
include hle

theorem Ascending.head_le (h : Ascending start stop l) {i : ι} (hi : i ∈ l) : start (l.head hne) ≤ start i := by
  cases l with
  | nil => contradiction
  | cons x l =>
    rcases List.mem_cons.mp hi with rfl | hi
    · exact Nat.le_refl _
    · exact Nat.le_trans (hle x) (List.rel_of_pairwise_cons h hi)

theorem Ascending.le_getLast (h : Ascending start stop l) {i : ι} (hi : i ∈ l) :
    stop i ≤ stop (l.getLast hne) := by
  obtain ⟨rest, last, rfl⟩ := (List.eq_nil_or_concat' l).resolve_left hne
  rw [List.getLast_append_singleton]
  rcases List.mem_append.mp hi with hi | hi
  · exact Nat.le_trans ((List.pairwise_append.mp h).2.2 i hi last (List.mem_singleton_self last)) (hle last)
  · obtain rfl := List.mem_singleton.mp hi
    exact Nat.le_refl _

end ascending

theorem Ascending.concat (h : Ascending start stop l) (hx : ∀ i ∈ l, stop i ≤ start x) :
    Ascending start stop (l ++ [x]) := by
  refine List.pairwise_append.mpr ⟨h, List.pairwise_singleton _ x, ?_⟩
  intro i hi j hj
  rw [List.mem_singleton.mp hj]
  exact hx i hi

theorem Ascending.arranged (h : Ascending start stop l) : Arranged start stop l :=
  ⟨l, [], (List.append_nil l).symm, h, .nil, fun _ _ _ hj => absurd hj List.not_mem_nil⟩

/-- If the list begins below its last span, it has not gone on from below. -/
theorem Arranged.ascending (h : Arranged start stop l) (hne : l ≠ [])
    (hht : start (l.head hne) ≤ start (l.getLast hne)) : Ascending start stop l := by
  obtain ⟨front, back, rfl, hfront, hback, hbelow⟩ := h
  by_cases hf : front = []
  · subst hf
    exact hback
  by_cases hb : back = []
  · subst hb
    rwa [List.append_nil]
  · rw [List.head_append_of_ne_nil hf, List.getLast_append_of_ne_nil _ hb] at hht
    have := (hbelow _ (List.head_mem hf) _ (List.getLast_mem hb)).2
    omega

section append

variable (hle : ∀ i, start i ≤ stop i) (h : Arranged start stop l) (hne : l ≠ [])
include hle h

theorem Arranged.behind (hht : start (l.head hne) ≤ start (l.getLast hne)) (hx : stop (l.getLast hne) ≤ start x) :
    Arranged start stop (l ++ [x]) ∧ ∀ i ∈ l, stop i ≤ start x := by
  have hasc := h.ascending hne hht
  have hbelow : ∀ i ∈ l, stop i ≤ start x := fun i hi => Nat.le_trans (hasc.le_getLast hle hne hi) hx
  exact ⟨(hasc.concat hbelow).arranged, hbelow⟩

/-- A span below the first one, with which the list goes on from below. -/
theorem Arranged.below (hht : start (l.head hne) ≤ start (l.getLast hne)) (hx : stop x ≤ start (l.head hne))
    (hlt : start x < start (l.head hne)) : Arranged start stop (l ++ [x]) ∧ ∀ i ∈ l, stop x ≤ start i := by
  have hasc := h.ascending hne hht
  have hhead : ∀ i ∈ l, start (l.head hne) ≤ start i := fun i hi => hasc.head_le hle hne hi
  refine ⟨⟨l, [x], rfl, hasc, List.pairwise_singleton _ x, ?_⟩, fun i hi => Nat.le_trans hx (hhead i hi)⟩
  intro i hi j hj
  rw [List.mem_singleton.mp hj]
  exact ⟨Nat.le_trans hx (hhead i hi), Nat.lt_of_lt_of_le hlt (hhead i hi)⟩

theorem Arranged.split (hht : start (l.getLast hne) < start (l.head hne)) :
    ∃ front back, front ≠ [] ∧ back ≠ [] ∧ l = front ++ back ∧ Ascending start stop front ∧
      Ascending start stop back ∧ ∀ i ∈ front, ∀ j ∈ back, stop j ≤ start i ∧ start j < start i := by
  obtain ⟨front, back, rfl, hfront, hback, hbelow⟩ := h
  refine ⟨front, back, ?_, ?_, rfl, hfront, hback, hbelow⟩
  · rintro rfl
    have hmin := hback.head_le hle hne (List.getLast_mem hne)
    exact absurd hmin (Nat.not_le.mpr hht)
  · rintro rfl
    simp only [List.append_nil] at hne hht
    have hmin := hfront.head_le hle hne (List.getLast_mem hne)
    exact absurd hmin (Nat.not_le.mpr hht)

theorem Arranged.getLast_le (hht : start (l.getLast hne) < start (l.head hne)) :
    stop (l.getLast hne) ≤ start (l.head hne) := by
  obtain ⟨front, back, hf, hb, rfl, -, -, hbelow⟩ := h.split hle hne hht
  rw [List.head_append_of_ne_nil hf, List.getLast_append_of_ne_nil _ hb]
  exact (hbelow _ (List.head_mem hf) _ (List.getLast_mem hb)).1

/-- A span between the last one and the first one, of a list that has gone on from below. -/
theorem Arranged.between (hht : start (l.getLast hne) < start (l.head hne)) (hlast : stop (l.getLast hne) ≤ start x)
    (hx : stop x ≤ start (l.head hne)) (hlt : start x < start (l.head hne)) :
    Arranged start stop (l ++ [x]) ∧ ∀ i ∈ l, stop i ≤ start x ∨ stop x ≤ start i := by
  obtain ⟨front, back, hf, hb, rfl, hfront, hback, hbelow⟩ := h.split hle hne hht
  rw [List.head_append_of_ne_nil hf] at hx hlt
  rw [List.getLast_append_of_ne_nil _ hb] at hlast
  have hhead : ∀ i ∈ front, start (front.head hf) ≤ start i := fun i hi => hfront.head_le hle hf hi
  have htail : ∀ j ∈ back, stop j ≤ start x := fun j hj => Nat.le_trans (hback.le_getLast hle hb hj) hlast
  constructor
  · refine ⟨front, back ++ [x], List.append_assoc _ _ _, hfront, hback.concat htail, ?_⟩
    intro i hi j hj
    rcases List.mem_append.mp hj with hj | hj
    · exact hbelow i hi j hj
    · rw [List.mem_singleton.mp hj]
      exact ⟨Nat.le_trans hx (hhead i hi), Nat.lt_of_lt_of_le hlt (hhead i hi)⟩
  · intro i hi
    rcases List.mem_append.mp hi with hi | hi
    · exact .inr (Nat.le_trans hx (hhead i hi))
    · exact .inl (htail i hi)

end append

end Spans
