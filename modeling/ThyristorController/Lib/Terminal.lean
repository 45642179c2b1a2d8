import Mathlib.Data.List.GetD
import Mathlib.Data.List.TakeDrop
import Mathlib.Logic.Function.Basic
import Mathlib.Order.Nat
import Mathlib.Tactic.Common

/-!
# The row of a terminal

A terminal as far as a line editor uses it: characters go to the place of the cursor, a backspace only moves it, a
carriage return and the sequence that erases the row are known. Rows do not end, a line feed begins an empty one.

`Shows` says that the row holds a text from a column on, and blanks behind it, with the cursor somewhere in it. The
lemmas `Shows.print` to `Shows.plain` say what each output makes of that.
-/

namespace Terminal

def blank : UInt8 := 0x20

def backspace : UInt8 := 0x08

def lineFeed : UInt8 := 0x0a

def carriageReturn : UInt8 := 0x0d

def escape : UInt8 := 0x1b

def Printable (c : UInt8) : Prop := 0x20 ≤ c ∧ c ≤ 0x7e

instance (c : UInt8) : Decidable (Printable c) := inferInstanceAs (Decidable (_ ∧ _))

/-- What was read of a control sequence. -/
inductive Mode
  | normal
  | escaped
  | bracket
  | two
  deriving DecidableEq

/-- The row of the cursor. -/
structure Screen where
  cells : Nat → UInt8
  col : Nat
  mode : Mode

/-- The effect of one byte. -/
def Screen.put (s : Screen) (c : UInt8) : Screen :=
  match s.mode with
  | .escaped => { s with mode := if c = 0x5b then .bracket else .normal }
  | .bracket => { s with mode := if c = 0x32 then .two else .normal }
  | .two =>
    if c = 0x4b then { s with cells := fun _ => blank, mode := .normal } else { s with mode := .normal }
  | .normal =>
    if c = escape then { s with mode := .escaped }
    else if c = backspace then { s with col := s.col - 1 }
    else if c = carriageReturn then { s with col := 0 }
    else if c = lineFeed then { s with cells := fun _ => blank, col := 0 }
    else if Printable c then { s with cells := Function.update s.cells s.col c, col := s.col + 1 }
    else s

def Screen.feed (s : Screen) (l : List UInt8) : Screen := l.foldl Screen.put s

/-- `ESC [ 2 K` and a carriage return. -/
def eraseRow : List UInt8 := [escape, 0x5b, 0x32, 0x4b, carriageReturn]

/-- The row holds `t` from a column on, and nothing behind it, with the cursor at a place of `t` or behind it. -/
structure Shows (s : Screen) (base : Nat) (t : List UInt8) (cursor : Nat) : Prop where
  mode : s.mode = .normal
  col : s.col = base + cursor
  cells : ∀ i, s.cells (base + i) = t.getD i blank

/-- Characters, line feeds, and null characters, which do nothing. -/
def Plain (l : List UInt8) : Prop := ∀ c ∈ l, Printable c ∨ c = lineFeed ∨ c = 0

instance (l : List UInt8) : Decidable (Plain l) := List.decidableBAll _ l

variable {s : Screen} {base cursor k : Nat} {t u l l' : List UInt8} {c : UInt8}

@[simp] theorem feed_nil : s.feed [] = s := rfl

@[simp] theorem feed_cons : s.feed (c :: l) = (s.put c).feed l := rfl

theorem feed_append : s.feed (l ++ l') = (s.feed l).feed l' := List.foldl_append

theorem Printable.ne (hc : Printable c) : c ≠ escape ∧ c ≠ backspace ∧ c ≠ carriageReturn ∧ c ≠ lineFeed := by
  refine ⟨?_, ?_, ?_, ?_⟩ <;>
  · rintro rfl
    exact absurd hc (by decide)

theorem put_printable (hm : s.mode = .normal) (hc : Printable c) :
    s.put c = { s with cells := Function.update s.cells s.col c, col := s.col + 1 } := by
  obtain ⟨h1, h2, h3, h4⟩ := hc.ne
  simp only [Screen.put, hm, h1, h2, h3, h4, hc, if_false, if_true]

namespace Shows

theorem congr (h : Shows s base t cursor) (ht : ∀ i, t.getD i blank = u.getD i blank) : Shows s base u cursor :=
  ⟨h.mode, h.col, fun i => (h.cells i).trans (ht i)⟩

theorem trim (h : Shows s base (t ++ List.replicate k blank) cursor) : Shows s base t cursor := by
  refine h.congr fun i => ?_
  rcases Nat.lt_or_ge i t.length with hi | hi
  · rw [List.getD_append _ _ _ _ hi]
  · rw [List.getD_append_right _ _ _ _ hi, List.getD_eq_default _ _ hi]
    simp only [List.getD_eq_getElem?_getD, List.getElem?_replicate]
    split <;> rfl

theorem rebase (h : Shows s base t t.length) : Shows s (base + t.length) [] 0 := by
  refine ⟨h.mode, h.col, fun i => ?_⟩
  rw [Nat.add_assoc, h.cells, List.getD_eq_default _ _ (Nat.le_add_right _ _), List.getD_nil]

theorem put (h : Shows s base t cursor) (hcur : cursor ≤ t.length) (hc : Printable c) :
    Shows (s.put c) base (t.take cursor ++ c :: t.drop (cursor + 1)) (cursor + 1) := by
  rw [put_printable h.mode hc]
  refine ⟨h.mode, by rw [h.col]; rfl, fun i => ?_⟩
  have htake : (t.take cursor).length = cursor := List.length_take_of_le hcur
  dsimp only
  rw [h.col]
  rcases lt_trichotomy i cursor with hi | rfl | hi
  · rw [Function.update_of_ne (by omega), h.cells, List.getD_append _ _ _ _ (by omega)]
    simp only [List.getD_eq_getElem?_getD, List.getElem?_take, hi, if_true]
  · rw [Function.update_self, List.getD_append_right _ _ _ _ (by omega), htake, Nat.sub_self, List.getD_cons_zero]
  · obtain ⟨k, rfl⟩ := Nat.exists_eq_add_of_lt hi
    rw [Function.update_of_ne (by omega), h.cells, List.getD_append_right _ _ _ _ (by omega), htake]
    have hk : cursor + k + 1 - cursor = k + 1 := by omega
    rw [hk, List.getD_cons_succ]
    simp only [List.getD_eq_getElem?_getD, List.getElem?_drop]
    congr 2
    omega

theorem print (h : Shows s base t cursor) (hcur : cursor ≤ t.length) (hl : ∀ c ∈ l, Printable c) :
    Shows (s.feed l) base (t.take cursor ++ l ++ t.drop (cursor + l.length)) (cursor + l.length) := by
  induction l generalizing s t cursor with
  | nil => simpa using h
  | cons c l ih =>
    have hput := h.put hcur (hl c List.mem_cons_self)
    have htake : (t.take cursor).length = cursor := List.length_take_of_le hcur
    have hle : cursor + 1 ≤ (t.take cursor ++ c :: t.drop (cursor + 1)).length := by
      simp only [List.length_append, List.length_cons, htake]
      omega
    have hnext := ih hput hle fun x hx => hl x (List.mem_cons_of_mem _ hx)
    have hfirst : (t.take cursor ++ c :: t.drop (cursor + 1)).take (cursor + 1) = t.take cursor ++ [c] := by
      rw [List.append_cons, List.take_left' (by simp [htake])]
    have hlast : (t.take cursor ++ c :: t.drop (cursor + 1)).drop (cursor + 1 + l.length) =
        t.drop (cursor + (l.length + 1)) := by
      rw [List.append_cons, ← List.drop_drop, List.drop_left' (by simp [htake]), List.drop_drop]
      congr 1
      omega
    rw [hfirst, hlast] at hnext
    have hlen : cursor + 1 + l.length = cursor + (c :: l).length := by
      rw [List.length_cons]
      omega
    rw [hlen] at hnext
    simpa using hnext

theorem append (h : Shows s base t t.length) (hl : ∀ c ∈ l, Printable c) :
    Shows (s.feed l) base (t ++ l) (t ++ l).length := by
  have hprint := h.print (Nat.le_refl _) hl
  rw [List.take_length, List.drop_of_length_le (Nat.le_add_right _ _), List.append_nil] at hprint
  rw [List.length_append]
  exact hprint

theorem back (h : Shows s base t cursor) (hk : k ≤ cursor) :
    Shows (s.feed (List.replicate k backspace)) base t (cursor - k) := by
  induction k generalizing s cursor with
  | zero => exact h
  | succ k ih =>
    have hput : s.put backspace = { s with col := s.col - 1 } := by
      rw [Screen.put, h.mode]
      rfl
    have hshow : Shows (s.put backspace) base t (cursor - 1) := by
      rw [hput]
      refine ⟨h.mode, ?_, h.cells⟩
      dsimp only
      rw [h.col]
      omega
    rw [List.replicate_succ, feed_cons]
    have hnext := ih hshow (by omega)
    rwa [Nat.sub_sub, Nat.add_comm 1 k] at hnext

theorem newLine (h : Shows s base t cursor) : Shows (s.feed [lineFeed]) 0 [] 0 := by
  have hput : s.put lineFeed = { s with cells := fun _ => blank, col := 0 } := by
    rw [Screen.put, h.mode]
    rfl
  rw [feed_cons, feed_nil, hput]
  exact ⟨h.mode, rfl, fun _ => rfl⟩

theorem erase (h : Shows s base t cursor) : Shows (s.feed eraseRow) 0 [] 0 := by
  have hfeed : s.feed eraseRow = { s with cells := fun _ => blank, col := 0, mode := .normal } := by
    simp only [eraseRow, feed_cons, feed_nil, Screen.put, h.mode]
    rfl
  rw [hfeed]
  exact ⟨rfl, rfl, fun _ => rfl⟩

/-- Plain text behind the cursor of a row that is blank from there on. -/
theorem plain (h : Shows s base [] 0) (hl : Plain l) : ∃ base', Shows (s.feed l) base' [] 0 := by
  induction l generalizing s base with
  | nil => exact ⟨base, h⟩
  | cons c l ih =>
    have hrest : Plain l := fun x hx => hl x (List.mem_cons_of_mem _ hx)
    rcases hl c List.mem_cons_self with hc | rfl | rfl
    · have hone := (h.append (l := [c]) (by simpa using hc)).rebase
      exact ih hone hrest
    · exact ih h.newLine hrest
    · have hput : s.put 0 = s := by
        rw [Screen.put, h.mode]
        rfl
      rw [feed_cons, hput]
      exact ih h hrest

end Shows

theorem Plain.append (hl : Plain l) (hl' : Plain l') : Plain (l ++ l') := by
  intro c hc
  exact (List.mem_append.mp hc).elim (hl c) (hl' c)

end Terminal
