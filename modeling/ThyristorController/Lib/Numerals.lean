import Mathlib.Data.List.Induction
import Mathlib.Tactic.Common

/-!
# Numerals in a text

`parse` reads a list of digits in a base up to 36, most significant digit first. Zeros in front do not matter
(`parse_zeros`), and the digits of a text in which nothing else is a digit are found by a filter (`filter_field`).
-/

namespace Numerals

/-- The value of a digit or a letter. -/
def digitValue (c : UInt8) : Option Nat :=
  if 48 ≤ c.toNat ∧ c.toNat ≤ 57 then some (c.toNat - 48)
  else if 65 ≤ c.toNat ∧ c.toNat ≤ 90 then some (c.toNat - 55)
  else if 97 ≤ c.toNat ∧ c.toNat ≤ 122 then some (c.toNat - 87)
  else none

/-- One more digit behind a number. -/
def step (base : Nat) (n : Option Nat) (c : UInt8) : Option Nat :=
  n.bind fun n => (digitValue c).bind fun d => if d < base then some (n * base + d) else none

/-- The number that the digits stand for; `none` if one of them is none in the base. -/
def parse (base : Nat) (l : List UInt8) : Option Nat := l.foldl (step base) (some 0)

variable {base n : Nat} {c : UInt8} {l : List UInt8}

@[simp] theorem parse_nil : parse base [] = some 0 := rfl

@[simp] theorem parse_concat : parse base (l ++ [c]) = step base (parse base l) c := by
  rw [parse, List.foldl_append]
  rfl

theorem parse_zeros (hbase : 0 < base) (k : Nat) : parse base (List.replicate k 48 ++ l) = parse base l := by
  induction k with
  | zero => rfl
  | succ k ih =>
    have hzero : step base (some 0) 48 = some 0 := by
      show (if 0 < base then some (0 * base + 0) else none) = some 0
      rw [if_pos hbase, Nat.zero_mul]
    rw [← ih, List.replicate_succ, List.cons_append, parse, List.foldl_cons, hzero, parse]

theorem isSome_of_parse (h : parse base l = some n) : ∀ c ∈ l, (digitValue c).isSome = true := by
  induction l using List.reverseRecOn generalizing n with
  | nil => simp
  | append_singleton l c ih =>
    rw [parse_concat, step, Option.bind_eq_some_iff] at h
    obtain ⟨m, hm, h⟩ := h
    obtain ⟨d, hd, -⟩ := Option.bind_eq_some_iff.mp h
    intro b hb
    rcases List.mem_append.mp hb with hb | hb
    · exact ih hm b hb
    · rw [List.mem_singleton.mp hb, hd]
      rfl

theorem filter_field {before digits after : List UInt8} (hbefore : ∀ c ∈ before, digitValue c = none)
    (hdigits : ∀ c ∈ digits, (digitValue c).isSome = true) (hafter : ∀ c ∈ after, digitValue c = none) :
    (before ++ (digits ++ after)).filter (fun c => (digitValue c).isSome) = digits := by
  have hnone {l : List UInt8} (hl : ∀ c ∈ l, digitValue c = none) : l.filter (fun c => (digitValue c).isSome) = [] :=
    List.filter_eq_nil_iff.mpr fun c hc => by simp [hl c hc]
  rw [List.filter_append, List.filter_append, hnone hbefore, hnone hafter, List.filter_eq_self.mpr hdigits,
    List.nil_append, List.append_nil]

end Numerals
