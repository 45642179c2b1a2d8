import Mathlib.Data.List.TakeDrop
import Mathlib.Data.List.Forall2
import Mathlib.Logic.Function.Basic
import Mathlib.Tactic.Common

/-!
# Splitting a command line (`components/finsh/msh.c`)

`msh_split` cuts a line into its arguments in place: `argv` points into the line, and a null character takes the place
of the blank or the quotation mark behind an argument. The null character behind an argument without quotation marks is
written only when the blanks in front of the next one are stripped.
-/

namespace ThyristorController.Msh

/-! ## The code -/

/-- A blank or a tab. -/
def isBlank (c : UInt8) : Bool := c = 0x20 || c = 0x09

/-- A double quotation mark. -/
def quote : UInt8 := 0x22

def backslash : UInt8 := 0x5c

/-- The variables of `msh_split`, the memory and the addresses stored to. `argc` is the length of `argv`. -/
structure Split where
  mem : Nat → UInt8
  stored : List Nat
  ptr : Nat
  position : Nat
  argv : List Nat

namespace Split

/-- `*ptr`. -/
def char (s : Split) : UInt8 := s.mem s.ptr

/-- `ptr ++; position ++;`. -/
def next (s : Split) : Split := { s with ptr := s.ptr + 1, position := s.position + 1 }

/-- `*ptr = '\\0'; ptr ++; position ++;`. -/
def cut (s : Split) : Split :=
  { s with mem := Function.update s.mem s.ptr 0, stored := s.ptr :: s.stored, ptr := s.ptr + 1,
           position := s.position + 1 }

/-- `argv[argc] = ptr; argc ++;`. -/
def arg (s : Split) : Split := { s with argv := s.argv ++ [s.ptr] }

/-- "strip bank and tab". -/
def strip (length : Nat) (s : Split) : Split :=
  if isBlank s.char ∧ s.position < length then strip length s.cut else s
termination_by length - s.position
decreasing_by simp only [cut]; omega

/-- "skip this string". -/
def skipString (length : Nat) (s : Split) : Split :=
  if s.char ≠ quote ∧ s.position < length then
    if s.char = backslash ∧ s.mem (s.ptr + 1) = quote then skipString length s.next.next
    else skipString length s.next
  else s
termination_by length - s.position
decreasing_by all_goals simp only [next]; omega

/-- The loop over an argument without quotation marks. -/
def skipToken (length : Nat) (s : Split) : Split :=
  if isBlank s.char = false ∧ s.position < length then skipToken length s.next else s
termination_by length - s.position
decreasing_by simp only [next]; omega

theorem le_position_strip (length : Nat) (s : Split) : s.position ≤ (s.strip length).position := by
  fun_induction strip length s with
  | case1 s _ ih => exact Nat.le_trans (Nat.le_succ _) ih
  | case2 s _ => exact Nat.le_refl _

theorem le_position_skipString (length : Nat) (s : Split) : s.position ≤ (s.skipString length).position := by
  fun_induction skipString length s with
  | case1 s _ _ ih => exact Nat.le_trans (Nat.le_add_right _ 2) ih
  | case2 s _ _ ih => exact Nat.le_trans (Nat.le_succ _) ih
  | case3 s _ => exact Nat.le_refl _

theorem le_position_skipToken (length : Nat) (s : Split) : s.position ≤ (s.skipToken length).position := by
  fun_induction skipToken length s with
  | case1 s _ ih => exact Nat.le_trans (Nat.le_succ _) ih
  | case2 s _ => exact Nat.le_refl _

theorem isBlank_strip (length : Nat) (s : Split) (hlt : (s.strip length).position < length) :
    isBlank (s.strip length).char = false := by
  fun_induction strip length s with
  | case1 s _ ih => exact ih hlt
  | case2 s hstop =>
    rw [not_and_or, Bool.not_eq_true] at hstop
    exact hstop.resolve_right (not_not.mpr hlt)

theorem lt_position_skipToken {length : Nat} {s : Split} (hchar : isBlank s.char = false) (hlt : s.position < length) :
    s.position < (s.skipToken length).position := by
  rw [skipToken, if_pos ⟨hchar, hlt⟩]
  exact le_position_skipToken length s.next

/-- The loop of `msh_split`, where an array of `argMax` arguments is full when the next one begins. -/
def splitLoop (argMax length : Nat) (s : Split) : Split :=
  if s.position < length then
    let s₁ := s.strip length
    if argMax ≤ s₁.argv.length then s₁
    else if length ≤ s₁.position then s₁
    else if s₁.char = quote then
      let s₂ := s₁.next.arg.skipString length
      if length ≤ s₂.position then s₂ else splitLoop argMax length s₂.cut
    else
      let s₂ := s₁.arg.skipToken length
      if length ≤ s₂.position then s₂ else splitLoop argMax length s₂
  else s
termination_by length - s.position
decreasing_by
  · have hstrip := le_position_strip length s
    have hskip := le_position_skipString length (s.strip length).next.arg
    simp only [arg, next, cut] at hskip ⊢
    omega
  · have hstrip := le_position_strip length s
    have hlt : (s.strip length).position < length :=
      Nat.not_le.mp ‹¬ length ≤ (s.strip length).position›
    have hskip := lt_position_skipToken (s := (s.strip length).arg) (isBlank_strip length s hlt) hlt
    simp only [arg] at hskip ⊢
    omega

end Split

/-- `msh_split`, with `FINSH_ARG_MAX`. -/
def mshSplit (argMax : Nat) (mem : Nat → UInt8) (cmd length : Nat) : Split :=
  Split.splitLoop argMax length { mem := mem, stored := [], ptr := cmd, position := 0, argv := [] }

/-! ## The grammar -/

/-- How many characters are in front of the closing quotation mark, or of the end. `escaped` tells whether a backslash
is directly in front. -/
def quotedLength (escaped : Bool) : List UInt8 → Nat
  | [] => 0
  | c :: l => if c = quote ∧ escaped = false then 0 else quotedLength (c = backslash) l + 1

/-- The arguments of a line. -/
def tokens : List UInt8 → List (List UInt8)
  | [] => []
  | c :: l =>
    if isBlank c then tokens l
    else if c = quote then l.take (quotedLength false l) :: tokens (l.drop (quotedLength false l + 1))
    else (c :: l.takeWhile fun c => !isBlank c) :: tokens (l.dropWhile fun c => !isBlank c)
termination_by l => l.length
decreasing_by
  · exact Nat.lt_succ_self _
  · rw [List.length_drop, List.length_cons]
    omega
  · exact Nat.lt_succ_of_le (List.dropWhile_suffix _).length_le

/-- `a "b\""c`: a mark behind a backslash does not close, and an argument may follow a closing mark at once. -/
example : tokens [0x61, 0x20, 0x22, 0x62, 0x5c, 0x22, 0x22, 0x63, 0x09] =
    [[0x61], [0x62, 0x5c, 0x22], [0x63]] := by
  decide +kernel

section grammar

variable {c : UInt8} {l : List UInt8} {escaped : Bool}

theorem quotedLength_of_ne (hc : c ≠ quote) : quotedLength escaped (c :: l) = quotedLength (c = backslash) l + 1 := by
  rw [quotedLength, if_neg fun h => hc h.1]

/-- In front of another character than a quotation mark a backslash makes no difference. -/
theorem quotedLength_flag (hl : l.head? ≠ some quote) : quotedLength escaped l = quotedLength false l := by
  cases l with
  | nil => rfl
  | cons c l =>
    have hc : c ≠ quote := fun h => hl (congrArg some h)
    rw [quotedLength_of_ne hc, quotedLength_of_ne hc]

/-- Behind the characters of a quotation stands its closing mark, if there is one. -/
theorem drop_quotedLength (escaped : Bool) (l : List UInt8) :
    l.drop (quotedLength escaped l) = [] ∨ ∃ r, l.drop (quotedLength escaped l) = quote :: r := by
  induction l generalizing escaped with
  | nil => exact .inl rfl
  | cons c l ih =>
    rw [quotedLength]
    split
    · rename_i hc
      exact .inr ⟨l, by rw [List.drop_zero, hc.1]⟩
    · exact ih _

theorem tokens_quote (l : List UInt8) :
    tokens (quote :: l) = l.take (quotedLength false l) :: tokens (l.drop (quotedLength false l + 1)) := by
  have hblank : ¬ isBlank quote = true := by decide
  rw [tokens, if_neg hblank, if_pos rfl]

theorem tokens_token (hc : isBlank c = false) (hq : c ≠ quote) :
    tokens (c :: l) = (c :: l.takeWhile fun c => !isBlank c) :: tokens (l.dropWhile fun c => !isBlank c) := by
  have hblank : ¬ isBlank c = true := by
    rw [hc]
    decide
  rw [tokens, if_neg hblank, if_neg hq]

theorem tokens_dropWhile : tokens (l.dropWhile isBlank) = tokens l := by
  induction l with
  | nil => rfl
  | cons c l ih =>
    by_cases hc : isBlank c = true
    · rw [List.dropWhile_cons_of_pos hc, ih, tokens, if_pos hc]
    · rw [List.dropWhile_cons_of_neg hc]

end grammar

/-! ## Strings in memory -/

/-- A null-terminated string. -/
structure StringAt (mem : Nat → UInt8) (p : Nat) (t : List UInt8) : Prop where
  chars : ∀ i (hi : i < t.length), mem (p + i) = t[i]
  nul : mem (p + t.length) = 0
  noNul : 0 ∉ t

section strings

variable {mem : Nat → UInt8} {p n a limit : Nat} {c : UInt8} {t : List UInt8}

theorem StringAt.head (h : StringAt mem p (c :: t)) : mem p = c := by
  have hfirst := h.chars 0 (Nat.zero_lt_succ _)
  rwa [Nat.add_zero, List.getElem_cons_zero] at hfirst

theorem StringAt.tail (h : StringAt mem p (c :: t)) : StringAt mem (p + 1) t := by
  refine ⟨fun i hi => ?_, ?_, fun hmem => h.noNul (List.mem_cons_of_mem _ hmem)⟩
  · have hnext := h.chars (i + 1) (Nat.succ_lt_succ hi)
    rwa [List.getElem_cons_succ, Nat.add_comm i, ← Nat.add_assoc] at hnext
  · have hend := h.nul
    rwa [List.length_cons, Nat.add_comm t.length, ← Nat.add_assoc] at hend

theorem StringAt.drop (h : StringAt mem p t) (hn : n ≤ t.length) : StringAt mem (p + n) (t.drop n) := by
  induction n generalizing p t with
  | zero => exact h
  | succ n ih =>
    cases t with
    | nil => cases hn
    | cons c t =>
      have hdrop := ih h.tail (Nat.le_of_succ_le_succ hn)
      rwa [Nat.add_assoc, Nat.add_comm 1] at hdrop

theorem StringAt.take (h : StringAt mem p t) (hn : n ≤ t.length) :
    StringAt (Function.update mem (p + n) 0) p (t.take n) := by
  have hlen : (t.take n).length = n := List.length_take_of_le hn
  refine ⟨fun i hi => ?_, ?_, fun hmem => h.noNul (List.mem_of_mem_take hmem)⟩
  · rw [Function.update_of_ne (by omega), List.getElem_take]
    exact h.chars i (by omega)
  · rw [hlen]
    exact Function.update_self ..

theorem StringAt.store (h : StringAt mem p t) (ha : a < p ∨ p + t.length ≤ a) :
    StringAt (Function.update mem a 0) p t := by
  refine ⟨fun i hi => ?_, ?_, h.noNul⟩
  · rw [Function.update_of_ne (by omega)]
    exact h.chars i hi
  · by_cases he : p + t.length = a
    · rw [he]
      exact Function.update_self ..
    · rw [Function.update_of_ne he]
      exact h.nul

/-- The characters of an argument end at `limit` or before. It has its null character, or there is a blank at `limit`
that will become it. -/
structure Held (mem : Nat → UInt8) (limit p : Nat) (t : List UInt8) : Prop where
  chars : ∀ i (hi : i < t.length), mem (p + i) = t[i]
  noNul : 0 ∉ t
  le : p + t.length ≤ limit
  nul : mem (p + t.length) = 0 ∨ p + t.length = limit ∧ isBlank (mem limit) = true

theorem StringAt.held (h : StringAt mem p t) (hle : p + t.length ≤ limit) : Held mem limit p t :=
  ⟨h.chars, h.noNul, hle, .inl h.nul⟩

theorem Held.stringAt (h : Held mem limit p t) (hblank : isBlank (mem limit) = false) : StringAt mem p t := by
  refine ⟨h.chars, h.nul.resolve_right fun hpending => ?_, h.noNul⟩
  rw [hpending.2] at hblank
  cases hblank

theorem Held.store (h : Held mem limit p t) : StringAt (Function.update mem limit 0) p t := by
  have hle := h.le
  refine ⟨fun i hi => ?_, ?_, h.noNul⟩
  · rw [Function.update_of_ne (by omega)]
    exact h.chars i hi
  · by_cases he : p + t.length = limit
    · rw [he]
      exact Function.update_self ..
    · rw [Function.update_of_ne he]
      exact h.nul.resolve_right fun hpending => he hpending.1

end strings

/-! ## The loops over the characters -/

namespace Split

/-- Any number of steps. -/
def advance (s : Split) (n : Nat) : Split := { s with ptr := s.ptr + n, position := s.position + n }

section loops

variable {s : Split} {length : Nat} {rest : List UInt8}

theorem next_advance (s : Split) (n : Nat) : s.next.advance n = s.advance (n + 1) := by
  simp only [advance, next, Nat.add_assoc, Nat.add_comm 1]

/-- Something is left of the line as long as `position` is in front of `length`. -/
theorem exists_cons (hlen : s.position + rest.length = length) (hlt : s.position < length) :
    ∃ c r, rest = c :: r := by
  cases rest with
  | nil => exact absurd hlt (by simp at hlen; omega)
  | cons c r => exact ⟨c, r, rfl⟩

theorem rest_eq_nil (hlen : s.position + rest.length = length) (hle : length ≤ s.position) : rest = [] :=
  List.eq_nil_of_length_eq_zero (by omega)

theorem skipString_eq (hrest : StringAt s.mem s.ptr rest) (hlen : s.position + rest.length = length) :
    s.skipString length = s.advance (quotedLength false rest) := by
  fun_induction skipString length s generalizing rest with
  | case1 s hgo hescape ih =>
    obtain ⟨c, r, rfl⟩ := exists_cons hlen hgo.2
    obtain rfl : backslash = c := hescape.1.symm.trans hrest.head
    rw [List.length_cons] at hlen
    cases r with
    | nil =>
      have hnul := hrest.nul
      rw [List.length_singleton, hescape.2] at hnul
      exact absurd hnul (by decide)
    | cons c r =>
      obtain rfl : quote = c := hescape.2.symm.trans hrest.tail.head
      rw [ih hrest.tail.tail (by rw [List.length_cons] at hlen; simp only [next]; omega), next_advance, next_advance]
      rfl
  | case2 s hgo hescape ih =>
    obtain ⟨c, r, rfl⟩ := exists_cons hlen hgo.2
    have hchar : s.char = c := hrest.head
    rw [hchar] at hgo hescape
    rw [ih hrest.tail (by rw [List.length_cons] at hlen; simp only [next]; omega), next_advance,
      quotedLength_of_ne hgo.1]
    by_cases hc : c = backslash
    · -- what stands behind the backslash is not a quotation mark
      have hnext : r.head? ≠ some quote := by
        cases r with
        | nil => exact Option.some_ne_none _ |>.symm
        | cons c' r => exact fun hr => hescape ⟨hc, hrest.tail.head.trans (Option.some.inj hr)⟩
      have hflag : quotedLength (c = backslash) r = quotedLength false r := quotedLength_flag hnext
      rw [hflag]
    · rw [decide_eq_false hc]
  | case3 s hstop =>
    cases rest with
    | nil => rfl
    | cons c r =>
      rw [List.length_cons] at hlen
      have hc : c = quote := by
        by_contra hne
        exact hstop ⟨fun h => hne (hrest.head.symm.trans h), by omega⟩
      rw [quotedLength, if_pos ⟨hc, rfl⟩]
      rfl

theorem skipToken_eq (hrest : StringAt s.mem s.ptr rest) (hlen : s.position + rest.length = length) :
    s.skipToken length = s.advance (rest.takeWhile fun c => !isBlank c).length := by
  fun_induction skipToken length s generalizing rest with
  | case1 s hgo ih =>
    obtain ⟨c, r, rfl⟩ := exists_cons hlen hgo.2
    have hc : isBlank c = false := hrest.head ▸ hgo.1
    rw [ih hrest.tail (by rw [List.length_cons] at hlen; simp only [next]; omega), next_advance,
      List.takeWhile_cons_of_pos (by rw [hc]; rfl), List.length_cons]
  | case2 s hstop =>
    cases rest with
    | nil => rfl
    | cons c r =>
      rw [List.length_cons] at hlen
      have hc : isBlank c = true := by
        by_contra hne
        rw [Bool.not_eq_true, ← hrest.head] at hne
        exact hstop ⟨hne, by omega⟩
      rw [List.takeWhile_cons_of_neg (by rw [hc]; decide)]
      rfl

end loops

end Split

/-! ## The loop over the arguments -/

/-- The line is cut into the arguments `done`, up to `ptr`, and `rest` lies in front. -/
structure Cut (cmd length : Nat) (mem₀ : Nat → UInt8) (s : Split) (done : List (List UInt8)) (rest : List UInt8) :
    Prop where
  text : StringAt s.mem s.ptr rest
  len : s.position + rest.length = length
  place : s.ptr = cmd + s.position
  held : List.Forall₂ (Held s.mem s.ptr) s.argv done
  stored : ∀ a ∈ s.stored, cmd ≤ a ∧ a < s.ptr
  frame : ∀ a ∉ s.stored, s.mem a = mem₀ a

/-- What the caller finds: the arguments, null-terminated, and nothing else changed but inside of the line. -/
structure Parsed (cmd length : Nat) (mem₀ : Nat → UInt8) (s : Split) (args : List (List UInt8)) : Prop where
  argv : List.Forall₂ (StringAt s.mem) s.argv args
  stored : ∀ a ∈ s.stored, cmd ≤ a ∧ a < cmd + length
  frame : ∀ a ∉ s.stored, s.mem a = mem₀ a

section run

variable {cmd length argMax : Nat} {mem₀ : Nat → UInt8} {s : Split} {done : List (List UInt8)} {rest t : List UInt8}
  {c : UInt8}

theorem Cut.stored_line (h : Cut cmd length mem₀ s done rest) : ∀ a ∈ s.stored, cmd ≤ a ∧ a < cmd + length := by
  intro a ha
  have hrange := h.stored a ha
  have hlen := h.len
  have hplace := h.place
  omega

theorem Cut.parsed (h : Cut cmd length mem₀ s done rest) (hblank : isBlank s.char = false) :
    Parsed cmd length mem₀ s done :=
  ⟨h.held.imp fun _ _ ht => ht.stringAt hblank, h.stored_line, h.frame⟩

theorem Cut.char_nil (h : Cut cmd length mem₀ s done []) : isBlank s.char = false := by
  have hnul : s.mem s.ptr = 0 := h.text.nul
  rw [Split.char, hnul]
  decide

theorem Cut.char_quote (h : Cut cmd length mem₀ s done (quote :: rest)) : isBlank s.char = false := by
  rw [Split.char, h.text.head]
  decide

theorem Cut.parsed_end (h : Cut cmd length mem₀ s done rest) (hend : length ≤ s.position)
    (hargs : done.length ≤ argMax) : Parsed cmd length mem₀ s ((done ++ tokens rest).take argMax) := by
  obtain rfl := Split.rest_eq_nil h.len hend
  rw [tokens, List.append_nil, List.take_of_length_le hargs]
  exact h.parsed h.char_nil

/-- A full array takes no further argument, and where no blank stands in front its last one has its null character. -/
theorem Cut.parsed_full (h : Cut cmd length mem₀ s done rest) (hblank : s.position < length → isBlank s.char = false)
    (hargs : done.length = argMax) : Parsed cmd length mem₀ s ((done ++ tokens rest).take argMax) := by
  by_cases hlt : s.position < length
  · rw [List.take_append_of_le_length (Nat.le_of_eq hargs.symm), List.take_of_length_le (Nat.le_of_eq hargs)]
    exact h.parsed (hblank hlt)
  · exact h.parsed_end (Nat.not_lt.mp hlt) (Nat.le_of_eq hargs)

/-- A character is replaced by a null character, and what was open ends there at the latest. -/
theorem Cut.cut (h : Cut cmd length mem₀ s done (c :: rest)) : Cut cmd length mem₀ s.cut done rest := by
  refine ⟨h.text.tail.store (.inl (Nat.lt_succ_self _)), ?_, ?_, ?_, fun a ha => ?_, fun a ha => ?_⟩
  · have hlen := h.len
    rw [List.length_cons] at hlen
    simp only [Split.cut]
    omega
  · simp only [Split.cut, h.place, Nat.add_assoc]
  · exact h.held.imp fun _ _ ht => ht.store.held (Nat.le_succ_of_le ht.le)
  · rcases List.mem_cons.mp ha with rfl | ha
    · have hplace := h.place
      simp only [Split.cut]
      omega
    · have hrange := h.stored a ha
      simp only [Split.cut]
      omega
  · have hne : a ≠ s.ptr := List.ne_of_not_mem_cons ha
    exact (Function.update_of_ne hne ..).trans (h.frame a (List.not_mem_of_not_mem_cons ha))

theorem Cut.strip (h : Cut cmd length mem₀ s done rest) :
    Cut cmd length mem₀ (s.strip length) done (rest.dropWhile isBlank) := by
  induction rest generalizing s with
  | nil =>
    have hend : ¬ (isBlank s.char = true ∧ s.position < length) := by
      rw [h.char_nil]
      exact fun hgo => Bool.false_ne_true hgo.1
    rw [Split.strip, if_neg hend]
    exact h
  | cons c rest ih =>
    have hchar : s.char = c := h.text.head
    have hlen := h.len
    rw [List.length_cons] at hlen
    rw [Split.strip, hchar]
    by_cases hc : isBlank c = true
    · rw [if_pos ⟨hc, by omega⟩, List.dropWhile_cons_of_pos hc]
      exact ih h.cut
    · rw [if_neg fun hgo => hc hgo.1, List.dropWhile_cons_of_neg hc]
      exact h

/-- An argument without quotation marks. What ends it is not a null character yet. -/
theorem Cut.token (h : Cut cmd length mem₀ s done (c :: rest)) (hc : isBlank c = false) :
    Cut cmd length mem₀ (s.arg.skipToken length) (done ++ [c :: rest.takeWhile fun c => !isBlank c])
      (rest.dropWhile fun c => !isBlank c) := by
  have hskip : s.arg.skipToken length = s.arg.advance (c :: rest.takeWhile fun c => !isBlank c).length := by
    rw [Split.skipToken_eq (s := s.arg) h.text h.len, List.takeWhile_cons_of_pos (by rw [hc]; rfl)]
  have hsplit : c :: rest = (c :: rest.takeWhile fun c => !isBlank c) ++ rest.dropWhile fun c => !isBlank c := by
    rw [List.cons_append, List.takeWhile_append_dropWhile]
  have htext := h.text
  have hlen := h.len
  have hblank : isBlank s.char = false := by rw [Split.char, h.text.head, hc]
  have hstop : ∀ c' r, (rest.dropWhile fun c => !isBlank c) = c' :: r → isBlank c' = true := by
    intro c' r hr
    have hhead := List.head?_dropWhile_not (fun c => !isBlank c) rest
    rw [hr] at hhead
    simpa using hhead
  rw [hskip]
  rw [hsplit] at htext hlen
  generalize (c :: rest.takeWhile fun c => !isBlank c) = t at *
  generalize (rest.dropWhile fun c => !isBlank c) = rest' at *
  have hrest := htext.drop (n := t.length) (by simp)
  rw [List.drop_left] at hrest
  rw [List.length_append] at hlen
  refine ⟨hrest, ?_, ?_, ?_, fun a ha => ?_, h.frame⟩
  · simp only [Split.advance, Split.arg]
    omega
  · simp only [Split.advance, Split.arg, h.place, Nat.add_assoc]
  · have hnew : Held s.mem (s.ptr + t.length) s.ptr t := by
      refine ⟨fun i hi => ?_, fun hmem => htext.noNul (List.mem_append_left _ hmem), Nat.le_refl _, ?_⟩
      · rw [htext.chars i (by rw [List.length_append]; omega), List.getElem_append_left hi]
      · cases rest' with
        | nil => exact .inl hrest.nul
        | cons c' r => exact .inr ⟨rfl, (congrArg isBlank hrest.head).trans (hstop c' r rfl)⟩
    have hold : List.Forall₂ (Held s.mem (s.ptr + t.length)) s.argv done :=
      h.held.imp fun _ _ ht => (ht.stringAt hblank).held (Nat.le_trans ht.le (Nat.le_add_right ..))
    exact List.rel_append hold (.cons hnew .nil)
  · have hrange := h.stored a ha
    simp only [Split.advance, Split.arg]
    omega

theorem Cut.quoted (h : Cut cmd length mem₀ s done (quote :: rest)) {r : List UInt8}
    (hr : rest.drop (quotedLength false rest) = quote :: r) :
    (s.next.arg.skipString length).position < length ∧
      Cut cmd length mem₀ (s.next.arg.skipString length).cut (done ++ [rest.take (quotedLength false rest)]) r := by
  have hlen := h.len
  rw [List.length_cons] at hlen
  have hblank := h.char_quote
  rw [Split.skipString_eq (s := s.next.arg) h.text.tail (by simp only [Split.next, Split.arg]; omega)]
  have hrlen := congrArg List.length hr
  rw [List.length_drop, List.length_cons] at hrlen
  generalize quotedLength false rest = n at *
  have hn : n ≤ rest.length := by omega
  have hrest := h.text.tail.drop hn
  rw [hr] at hrest
  refine ⟨?_, hrest.tail.store (.inl (Nat.lt_succ_self _)), ?_, ?_, ?_, fun a ha => ?_, fun a ha => ?_⟩
  · simp only [Split.advance, Split.next, Split.arg]
    omega
  · simp only [Split.cut, Split.advance, Split.next, Split.arg]
    omega
  · simp only [Split.cut, Split.advance, Split.next, Split.arg, h.place]
    omega
  · have hnew : Held (Function.update s.mem (s.ptr + 1 + n) 0) (s.ptr + 1 + n + 1) (s.ptr + 1) (rest.take n) := by
      refine (h.text.tail.take hn).held ?_
      rw [List.length_take_of_le hn]
      exact Nat.le_succ _
    have hold : List.Forall₂ (Held (Function.update s.mem (s.ptr + 1 + n) 0) (s.ptr + 1 + n + 1)) s.argv done := by
      refine h.held.imp fun _ _ ht => ?_
      have hle := ht.le
      exact ((ht.stringAt hblank).store (.inr (by omega))).held (by omega)
    exact List.rel_append hold (.cons hnew .nil)
  · have hplace := h.place
    rcases List.mem_cons.mp ha with rfl | ha
    · simp only [Split.cut, Split.advance, Split.next, Split.arg]
      omega
    · have hrange := h.stored a ha
      simp only [Split.cut, Split.advance, Split.next, Split.arg]
      omega
  · exact (Function.update_of_ne (List.ne_of_not_mem_cons ha) ..).trans (h.frame a (List.not_mem_of_not_mem_cons ha))

/-- An argument in quotation marks that are not closed: the line ends with it. -/
theorem Cut.unclosed (h : Cut cmd length mem₀ s done (quote :: rest))
    (hr : rest.drop (quotedLength false rest) = []) :
    length ≤ (s.next.arg.skipString length).position ∧
      Parsed cmd length mem₀ (s.next.arg.skipString length) (done ++ [rest.take (quotedLength false rest)]) := by
  have hlen := h.len
  rw [List.length_cons] at hlen
  have hblank := h.char_quote
  rw [Split.skipString_eq (s := s.next.arg) h.text.tail (by simp only [Split.next, Split.arg]; omega)]
  rw [List.drop_eq_nil_iff] at hr
  rw [List.take_of_length_le hr]
  refine ⟨?_, ?_, h.stored_line, h.frame⟩
  · simp only [Split.advance, Split.next, Split.arg]
    omega
  · exact List.rel_append (h.held.imp fun _ _ ht => ht.stringAt hblank) (.cons h.text.tail .nil)

/-- The loop parses what is left of the line, as far as there is place for arguments. -/
theorem Cut.splitLoop (h : Cut cmd length mem₀ s done rest) (hargs : done.length ≤ argMax) :
    Parsed cmd length mem₀ (s.splitLoop argMax length) ((done ++ tokens rest).take argMax) := by
  induction hn : rest.length using Nat.strongRecOn generalizing s done rest with
  | ind n ih =>
    subst hn
    rw [Split.splitLoop]
    by_cases hlt : s.position < length
    swap
    · rw [if_neg hlt]
      exact h.parsed_end (Nat.not_lt.mp hlt) hargs
    rw [if_pos hlt, ← tokens_dropWhile]
    dsimp only
    have h₁ : Cut cmd length mem₀ (s.strip length) done (rest.dropWhile isBlank) := h.strip
    have hshort := (List.dropWhile_suffix isBlank (l := rest)).length_le
    have hstop := Split.isBlank_strip length s
    generalize rest.dropWhile isBlank = rest₁ at h₁ hshort ⊢
    generalize s.strip length = s₁ at h₁ hstop ⊢
    have hargv : s₁.argv.length = done.length := h₁.held.length_eq
    by_cases hfull : argMax ≤ s₁.argv.length
    · rw [if_pos hfull]
      exact h₁.parsed_full hstop (by omega)
    rw [if_neg hfull]
    by_cases hend : length ≤ s₁.position
    · rw [if_pos hend]
      exact h₁.parsed_end hend hargs
    rw [if_neg hend]
    obtain ⟨c, r, rfl⟩ := Split.exists_cons h₁.len (Nat.not_le.mp hend)
    have hchar : s₁.char = c := h₁.text.head
    have hc : isBlank c = false := hchar ▸ hstop (Nat.not_le.mp hend)
    -- one more argument has place, and less of the line is left behind it
    have hmore (t : List UInt8) : (done ++ [t]).length ≤ argMax := by
      rw [List.length_append, List.length_singleton]
      omega
    rw [List.length_cons] at hshort
    rw [hchar]
    by_cases hq : c = quote
    · subst hq
      rw [if_pos rfl, tokens_quote, ← List.drop_drop, List.append_cons]
      obtain hr | ⟨r', hr⟩ := drop_quotedLength false r
      · obtain ⟨hle, hparsed⟩ := h₁.unclosed hr
        rw [if_pos hle, hr, List.drop_nil, tokens, List.append_nil, List.take_of_length_le (hmore _)]
        exact hparsed
      · obtain ⟨hgo, hcut⟩ := h₁.quoted hr
        have hrlen := congrArg List.length hr
        rw [List.length_drop, List.length_cons] at hrlen
        rw [if_neg (Nat.not_le.mpr hgo), hr, List.drop_one, List.tail_cons]
        exact ih _ (by omega) hcut (hmore _) rfl
    · rw [if_neg hq, tokens_token hc hq, List.append_cons]
      have hcut := h₁.token hc
      have hrlen := (List.dropWhile_suffix (fun c => !isBlank c) (l := r)).length_le
      by_cases hend₂ : length ≤ (s₁.arg.skipToken length).position
      · rw [if_pos hend₂]
        exact hcut.parsed_end hend₂ (hmore _)
      · rw [if_neg hend₂]
        exact ih _ (by omega) hcut (hmore _) rfl

end run

/-- For every line and every limit: `argv` holds the first arguments of the line, each of them null-terminated, no more
than `FINSH_ARG_MAX`, and the memory changes only inside of the line. -/
theorem mshSplit_tokens (argMax : Nat) (mem : Nat → UInt8) (cmd : Nat) (line : List UInt8)
    (hline : StringAt mem cmd line) :
    (mshSplit argMax mem cmd line.length).argv.length ≤ argMax ∧
      List.Forall₂ (StringAt (mshSplit argMax mem cmd line.length).mem) (mshSplit argMax mem cmd line.length).argv
        ((tokens line).take argMax) ∧
      (∀ a ∈ (mshSplit argMax mem cmd line.length).stored, cmd ≤ a ∧ a < cmd + line.length) ∧
      ∀ a ∉ (mshSplit argMax mem cmd line.length).stored, (mshSplit argMax mem cmd line.length).mem a = mem a := by
  have hstart : Cut cmd line.length mem { mem := mem, stored := [], ptr := cmd, position := 0, argv := [] } [] line :=
    ⟨hline, Nat.zero_add _, rfl, .nil, fun a ha => absurd ha (List.not_mem_nil), fun a _ => rfl⟩
  have hparsed : Parsed cmd line.length mem (mshSplit argMax mem cmd line.length) ((tokens line).take argMax) :=
    hstart.splitLoop (Nat.zero_le _)
  have hlen := hparsed.argv.length_eq
  refine ⟨?_, hparsed.argv, hparsed.stored, hparsed.frame⟩
  rw [List.length_take] at hlen
  exact Nat.le_trans (Nat.le_of_eq hlen) (Nat.min_le_left ..)

theorem stringAt_getD {line : List UInt8} (hline : 0 ∉ line) : StringAt (fun a => line.getD a 0) 0 line := by
  refine ⟨fun i hi => ?_, ?_, hline⟩
  · simp [hi]
  · simp

/-- The line `ls "a b"c d`, with place for two arguments. -/
theorem mshSplit_tokens_run : ∃ mem, ∃ argv : List Nat, argv.length ≤ 2 ∧
    List.Forall₂ (StringAt mem) argv [[0x6c, 0x73], [0x61, 0x20, 0x62]] := by
  have hline : (0 : UInt8) ∉ [0x6c, 0x73, 0x20, 0x22, 0x61, 0x20, 0x62, 0x22, 0x63, 0x20, 0x64] := by decide
  obtain ⟨hlen, hargv, -, -⟩ := mshSplit_tokens 2 _ 0 _ (stringAt_getD hline)
  have htokens : (tokens [0x6c, 0x73, 0x20, 0x22, 0x61, 0x20, 0x62, 0x22, 0x63, 0x20, 0x64]).take 2 =
      [[0x6c, 0x73], [0x61, 0x20, 0x62]] := by
    decide +kernel
  rw [htokens] at hargv
  exact ⟨_, _, hlen, hargv⟩

end ThyristorController.Msh
