import ThyristorController.Finsh.Shell

/-!
# What the shell edits

The abstract shell is an editor of one line with a history: keys instead of bytes, a text with a cursor in it instead
of a buffer with two positions, and the lines of the history as a list. `Refines` connects the two, and each key has a
lemma: the turn of the loop has a result, it refines what the key does to the editor, and it prints the echo of the key.

The lines stay shorter than `FINSH_CMD_SIZE` characters: that is `KeyFits`, for the keys that add to a line.
-/

namespace ThyristorController.Shell

open LineEdit Transition
open Kservice (ch)

/-! ## The editor -/

/-- What the bytes mean. -/
inductive Key
  | char (c : UInt8)
  | tab
  | backspace
  | enter
  | up
  | down
  | left
  | right
  deriving DecidableEq

/-- The key of a byte that is no part of an escape sequence. -/
def plainKeyOf (c : UInt8) : Option Key :=
  if c = 0 ∨ c = 0xff then none
  else if c = 0x09 then some .tab
  else if c = 0x7f ∨ c = 0x08 then some .backspace
  else if c = 0x0d ∨ c = 0x0a then some .enter
  else some (.char c)

/-- The key that a byte completes, and what is awaited behind it. -/
def decodeKey (stat : InputStat) (c : UInt8) : InputStat × Option Key :=
  if c = 0x1b then (.waitSpecKey, none)
  else
    match stat with
    | .waitSpecKey => if c = 0x5b then (.waitFuncKey, none) else (.waitNormal, plainKeyOf c)
    | .waitFuncKey =>
      if c = 0x41 then (.waitNormal, some .up)
      else if c = 0x42 then (.waitNormal, some .down)
      else if c = 0x44 then (.waitNormal, some .left)
      else if c = 0x43 then (.waitNormal, some .right)
      else (.waitNormal, plainKeyOf c)
    | .waitNormal => (.waitNormal, plainKeyOf c)

/-- The line that is edited, the lines of the history, the oldest one first, the place of the arrow keys in it, and the
lines that were entered. -/
structure Editor where
  line : Line UInt8
  lines : List (List UInt8)
  place : Nat
  entered : List (List UInt8)

namespace Editor

/-- The line becomes one of the history. -/
def fetch (e : Editor) (k : Nat) : Editor := { e with line := .ofText (e.lines.getD k []), place := k }

/-- What the end of the line makes of the history. -/
def pushed (z : Sizes) (e : Editor) : List (List UInt8) :=
  if e.line.text = [] then e.lines else remember z.historyLines e.lines e.line.text

/-- The effect of a key. -/
def press (z : Sizes) (table : List FinshSyscall) (files : Files) (e : Editor) : Key → Editor
  | .char c => { e with line := e.line.type c }
  | .tab => { e with line := .ofText (completeLine table files e.line.text) }
  | .backspace => { e with line := e.line.rubOut }
  | .enter =>
    { line := .ofText [], lines := e.pushed z, place := (e.pushed z).length, entered := e.entered ++ [e.line.text] }
  | .up => if 0 < e.place then e.fetch (e.place - 1) else e
  | .down => if e.lines = [] then e else e.fetch (min (e.place + 1) (e.lines.length - 1))
  | .left => { e with line := e.line.left }
  | .right => { e with line := e.line.right }

def empty : Editor := ⟨.ofText [], [], 0, []⟩

end Editor

/-- The row of the history that holds a text. -/
def rowOf (z : Sizes) (t : List UInt8) : List UInt8 := t ++ List.replicate (z.cmdSize - t.length) 0

/-- A line that the shell keeps: it is shorter than `FINSH_CMD_SIZE`, and a string. -/
def Keepable (z : Sizes) (t : List UInt8) : Prop := t.length < z.cmdSize ∧ 0 ∉ t

/-- The state of the shell is that of an editor. -/
structure Refines (z : Sizes) (s : FinshShell) (e : Editor) : Prop where
  line : Holds (z.cmdSize + 1) s.line e.line.text
  short : e.line.text.length < z.cmdSize
  position : s.linePosition = e.line.text.length
  curpos : s.lineCurpos = e.line.before.length
  history : s.cmdHistory = e.lines.map (rowOf z) ++ List.replicate (z.historyLines - e.lines.length) (rowOf z [])
  count : s.historyCount = e.lines.length
  few : e.lines.length ≤ z.historyLines
  keepable : ∀ t ∈ e.lines, Keepable z t
  place : s.currentHistory = e.place
  place_le : e.place ≤ e.lines.length
  executed : s.executed = e.entered.map fun t => (t ++ List.replicate (z.cmdSize + 1 - t.length) 0, t.length)

/-- A key that adds to the line leaves it shorter than `FINSH_CMD_SIZE`. -/
def KeyFits (z : Sizes) (table : List FinshSyscall) (files : Files) (t : List UInt8) : Key → Prop
  | .char _ => t.length + 1 < z.cmdSize
  | .tab => PathFits files t ∧ (completeLine table files t).length < z.cmdSize
  | _ => True

instance (z : Sizes) (table : List FinshSyscall) (files : Files) (t : List UInt8) :
    (k : Key) → Decidable (KeyFits z table files t k)
  | .char _ => inferInstanceAs (Decidable (_ < _))
  | .tab => inferInstanceAs (Decidable (_ ∧ _ < _))
  | .backspace | .enter | .up | .down | .left | .right => isTrue trivial

/-- What a key prints. -/
def Echo (z : Sizes) (table : List FinshSyscall) (echoMode : Bool) (i : Input) (e : Editor) :
    Key → List UInt8 → Prop
  | .char c, out =>
    out = (if echoMode then shown z (c :: e.line.after) else []) ++
      (List.replicate e.line.after.length (shown z [0x08])).flatten
  | .tab, out => ∃ texts, Lists table i.files texts ∧
      out = (List.replicate e.line.before.length (shown z [0x08])).flatten ++ shown z [0x0a] ++
        (texts.map (shown z)).flatten ++ shown z (i.prompt ++ completeLine table i.files e.line.text)
  | .backspace, out =>
    out = if e.line.before = [] then []
      else if e.line.after = [] then shown z [0x08, ch ' ', 0x08]
      else shown z ([0x08] ++ e.line.after ++ [ch ' ', ch ' ', 0x08]) ++
        (List.replicate (e.line.after.length + 1) (shown z [0x08])).flatten
  | .enter, out => out = (if echoMode then shown z [0x0a] else []) ++ i.printed ++ shown z i.prompt
  | .up, out =>
    out = if 0 < e.place then
        shown z [0x1b, ch '[', ch '2', ch 'K', 0x0d] ++ shown z (i.prompt ++ (e.lines.getD (e.place - 1) []))
      else []
  | .down, out =>
    out = if e.lines = [] then []
      else shown z [0x1b, ch '[', ch '2', ch 'K', 0x0d] ++
        shown z (i.prompt ++ (e.lines.getD (min (e.place + 1) (e.lines.length - 1)) []))
  | .left, out => out = if e.line.before = [] then [] else shown z [0x08]
  | .right, out => out = (e.line.after.head?.map fun c => shown z [c]).getD []

/-- The turn of a key: it has a result, which refines what the key does, and prints its echo. -/
def Turns (z : Sizes) (table : List FinshSyscall) (i : Input) (s : FinshShell) (e : Editor) (k : Key)
    (r : Option FinshShell) : Prop :=
  ∃ s' out, r = some s' ∧ Refines z s' (e.press z table i.files k) ∧ s'.stat = s.stat ∧ s'.echoMode = s.echoMode ∧
    s'.console = s.console ++ out ∧ Echo z table s.echoMode i e k out

variable {z : Sizes} {table : List FinshSyscall} {i : Input} {s : FinshShell} {e : Editor} {t text : List UInt8}
  {c : UInt8} {k n : Nat}

/-! ## The output -/

theorem FinshShell.backspaces_eq (z : Sizes) (n : Nat) (s : FinshShell) :
    s.backspaces z n = { s with console := s.console ++ (List.replicate n (shown z [0x08])).flatten } := by
  induction n generalizing s with
  | zero => simp [backspaces]
  | succ n ih => simp [backspaces, ih, kprintf, List.replicate_succ]

theorem FinshShell.kprintfs_eq (z : Sizes) (texts : List (List UInt8)) (s : FinshShell) :
    s.kprintfs z texts = { s with console := s.console ++ (texts.map (shown z)).flatten } := by
  unfold kprintfs
  induction texts generalizing s with
  | nil => simp
  | cons text texts ih =>
    rw [List.foldl_cons, ih]
    simp [kprintf]

/-! ## The cells of the line -/

theorem Holds.of_eq {size r : Nat} {line : List UInt8} (hline : line = t ++ List.replicate r 0)
    (hsize : t.length + r = size) (hlt : t.length < size) (ht : 0 ∉ t) : Holds size line t :=
  ⟨by rw [hline, ← hsize, Nat.add_sub_cancel_left], hlt, ht⟩

namespace Refines

/-- The characters behind the text are null characters, at least one of them. -/
theorem cells (h : Refines z s e) : ∃ r, s.line = e.line.before ++ e.line.after ++ 0 :: List.replicate r 0 ∧
    e.line.before.length + e.line.after.length + r = z.cmdSize := by
  have hlt := h.short
  have hlen := e.line.length_text
  refine ⟨z.cmdSize - e.line.text.length, ?_, by omega⟩
  have hr : z.cmdSize + 1 - e.line.text.length = z.cmdSize - e.line.text.length + 1 := by omega
  rw [h.line.eq, hr, List.replicate_succ]
  rfl

theorem change {s' : FinshShell} {l : Line UInt8} (h : Refines z s e) (hline : Holds (z.cmdSize + 1) s'.line l.text)
    (hshort : l.text.length < z.cmdSize) (hposition : s'.linePosition = l.text.length)
    (hcurpos : s'.lineCurpos = l.before.length) (hhistory : s'.cmdHistory = s.cmdHistory)
    (hcount : s'.historyCount = s.historyCount) (hplace : s'.currentHistory = s.currentHistory)
    (hexecuted : s'.executed = s.executed) : Refines z s' { e with line := l } where
  line := hline
  short := hshort
  position := hposition
  curpos := hcurpos
  history := hhistory.trans h.history
  count := hcount.trans h.count
  few := h.few
  keepable := h.keepable
  place := hplace.trans h.place
  place_le := h.place_le
  executed := hexecuted.trans h.executed

theorem setStat (h : Refines z s e) (stat : InputStat) : Refines z { s with stat := stat } e :=
  ⟨h.line, h.short, h.position, h.curpos, h.history, h.count, h.few, h.keepable, h.place, h.place_le, h.executed⟩

end Refines

/-! ## The keys that edit the line -/

/-- The cells behind a store at the cursor, whether or not something was moved for it. -/
theorem Refines.typed (h : Refines z s e) {r : Nat} (hr : e.line.before.length + e.line.after.length + r = z.cmdSize)
    (hroom : e.line.text.length + 1 < z.cmdSize) (hc : c ≠ 0) :
    Holds (z.cmdSize + 1) (e.line.before ++ c :: (e.line.after ++ List.replicate r 0)) (e.line.type c).text := by
  have hlen := e.line.length_text
  refine Holds.of_eq (r := r) (by simp [Line.text]) ?_ ?_ ?_
  · rw [Line.length_text_type]
    omega
  · rw [Line.length_text_type]
    omega
  · rw [Line.mem_type]
    rintro (h0 | hmem)
    · exact hc h0.symm
    · exact h.line.noNul hmem

theorem insert_spec (h : Refines z s e) (hroom : e.line.text.length + 1 < z.cmdSize) (hc : c ≠ 0) :
    ∃ line out, (if s.lineCurpos < s.linePosition then s.insertMiddle z c else s.insertEnd z c) =
        some { s with line := line, console := s.console ++ out } ∧
      Holds (z.cmdSize + 1) line (e.line.type c).text ∧ Echo z table s.echoMode i e (.char c) out := by
  obtain ⟨r, hcells, hr⟩ := h.cells
  have hlen := e.line.length_text
  have hpos := h.position
  have hcur := h.curpos
  have hholds := h.typed hr hroom hc
  by_cases hafter : e.line.after = []
  · have hplace : s.linePosition = e.line.before.length := by
      rw [hpos, hlen, hafter]
      rfl
    have hstore : store s.line s.linePosition c =
        some (e.line.before ++ c :: (e.line.after ++ List.replicate r 0)) := by
      rw [hcells, hplace, hafter, List.append_nil, List.nil_append, store_append]
    refine ⟨_, if s.echoMode then shown z [c] else [], ?_, hholds, by simp [Echo, hafter]⟩
    rw [if_neg (by omega), FinshShell.insertEnd, hstore]
    cases s.echoMode <;> simp [FinshShell.kprintf]
  · have hmid := List.length_pos_of_ne_nil hafter
    have hdiff : s.linePosition - e.line.before.length = e.line.after.length := by omega
    obtain ⟨x, hmove⟩ := insert_move e.line.before e.line.after (List.replicate r 0) 0
    have hle : e.line.before.length ≤ (e.line.type c).text.length := by
      rw [Line.length_text_type]
      omega
    have hupTo : upTo 0 (e.line.before ++ c :: (e.line.after ++ List.replicate r 0)) e.line.before.length =
        some (c :: e.line.after) := by
      rw [hholds.upTo hle]
      simp [Line.text]
    refine ⟨_, (if s.echoMode then shown z (c :: e.line.after) else []) ++
      (List.replicate e.line.after.length (shown z [0x08])).flatten, ?_, hholds, by simp [Echo]⟩
    rw [if_pos (by omega), FinshShell.insertMiddle, hcur, hdiff, hcells, hmove]
    simp only [Option.bind_eq_bind, Option.bind_some, store_append]
    cases s.echoMode <;> simp [FinshShell.kprintf, FinshShell.backspaces_eq, hupTo, hdiff]

theorem normalKey_turns (h : Refines z s e) (hroom : KeyFits z table i.files e.line.text (.char c)) (hc : c ≠ 0) :
    Turns z table i s e (.char c) (s.normalKey z c) := by
  obtain ⟨line, out, hinsert, hholds, hecho⟩ := insert_spec h hroom hc
  have hlt := z.cmdSize_lt
  have hlen := e.line.length_text
  have hpos := h.position
  have hcur := h.curpos
  replace hroom : e.line.text.length + 1 < z.cmdSize := hroom
  have hkeep : s.discardLarge z = s := if_neg (by omega)
  have hadvance : FinshShell.advance z { s with line := line, console := s.console ++ out } =
      { s with line := line, console := s.console ++ out, linePosition := s.linePosition + 1,
               lineCurpos := s.lineCurpos + 1 } := by
    simp only [FinshShell.advance]
    rw [Nat.mod_eq_of_lt (by omega), Nat.mod_eq_of_lt (by omega), if_neg (by omega)]
  refine ⟨{ s with line := line, console := s.console ++ out, linePosition := s.linePosition + 1,
                   lineCurpos := s.lineCurpos + 1 }, out, ?_, ?_, rfl, rfl, rfl, hecho⟩
  · rw [FinshShell.normalKey, hkeep, hinsert, Option.map_some, hadvance]
  · refine h.change hholds ?_ ?_ ?_ rfl rfl rfl rfl
    · rw [Line.length_text_type]
      exact hroom
    · rw [Line.length_text_type, ← hpos]
    · rw [Line.before_type, List.length_append, List.length_singleton, ← hcur]

theorem rubOut_spec (table : List FinshSyscall) (i : Input) {before after : List UInt8} {x : UInt8}
    (h : Refines z s e) (hl : e.line = ⟨before ++ [x], after⟩) :
    ∃ line out, (if before.length < before.length + after.length
          then FinshShell.rubOutMiddle z
            { s with linePosition := before.length + after.length, lineCurpos := before.length }
          else FinshShell.rubOutEnd z
            { s with linePosition := before.length + after.length, lineCurpos := before.length }) =
        some { s with linePosition := before.length + after.length, lineCurpos := before.length, line := line,
                      console := s.console ++ out } ∧
      Holds (z.cmdSize + 1) line e.line.rubOut.text ∧ Echo z table s.echoMode i e .backspace out := by
  obtain ⟨r, hcells, hr⟩ := h.cells
  have hrub : e.line.rubOut = ⟨before, after⟩ := by simp [hl, Line.rubOut]
  rw [hl] at hcells hr
  simp only [List.length_append, List.length_singleton] at hr
  have hcells' : s.line = before ++ x :: (after ++ 0 :: List.replicate r 0) := by simp [hcells]
  have hnul : 0 ∉ before ++ after := fun hmem => h.line.noNul (by
    rw [hl, Line.text]
    rcases List.mem_append.mp hmem with hmem | hmem <;> simp [hmem])
  have hholds : Holds (z.cmdSize + 1) (before ++ after ++ 0 :: 0 :: List.replicate r 0) e.line.rubOut.text := by
    rw [hrub]
    refine Holds.of_eq (r := r + 2) ?_ ?_ ?_ hnul
    · simp [Line.text, List.replicate_succ]
    · simp only [Line.length_text]
      omega
    · simp only [Line.length_text]
      omega
  refine ⟨_, if after = [] then shown z [0x08, ch ' ', 0x08]
      else shown z ([0x08] ++ after ++ [ch ' ', ch ' ', 0x08]) ++
        (List.replicate (after.length + 1) (shown z [0x08])).flatten, ?_, hholds, by simp [Echo, hl]⟩
  by_cases hafter : after = []
  · subst hafter
    have hstore : store s.line before.length 0 = some (before ++ [] ++ 0 :: 0 :: List.replicate r 0) := by
      rw [hcells', store_append]
      simp
    rw [if_neg (by simp), FinshShell.rubOutEnd, if_pos rfl]
    dsimp only [List.length_nil, Nat.add_zero]
    rw [hstore]
    rfl
  · have hpos := List.length_pos_of_ne_nil hafter
    obtain ⟨y, hmove⟩ := erase_move before after (0 :: List.replicate r 0) x
    have hupTo : upTo 0 (before ++ after ++ 0 :: 0 :: List.replicate r 0) before.length = some after := by
      have hle : before.length ≤ e.line.rubOut.text.length := by
        rw [hrub, Line.length_text]
        exact Nat.le_add_right _ _
      rw [hholds.upTo hle, hrub]
      simp [Line.text]
    have hstore : store (before ++ after ++ y :: 0 :: List.replicate r 0) (before.length + after.length) 0 =
        some (before ++ after ++ 0 :: 0 :: List.replicate r 0) := by
      rw [← List.length_append, store_append]
    have hcount : before.length + after.length + 1 - before.length = after.length + 1 := by omega
    rw [if_pos (by omega), FinshShell.rubOutMiddle, if_neg hafter]
    simp only [Nat.add_sub_cancel_left, hcells', hmove, Option.bind_eq_bind, Option.bind_some, hstore, hupTo,
      FinshShell.backspaces_eq, FinshShell.kprintf, hcount]
    rw [List.append_assoc s.console]

theorem backspaceKey_turns (h : Refines z s e) : Turns z table i s e .backspace (s.backspaceKey z) := by
  have hcur := h.curpos
  have hpos := h.position
  have hlen := e.line.length_text
  have hlt := h.short
  have hsize := z.cmdSize_lt
  rcases List.eq_nil_or_concat' e.line.before with hnil | ⟨before, x, hbefore⟩
  · have hsame : e.press z table i.files .backspace = e := by
      have hrub : e.line.rubOut = e.line := by
        rw [Line.rubOut, hnil]
        exact congrArg (fun b => Line.mk b e.line.after) hnil.symm
      rw [Editor.press, hrub]
    refine ⟨s, [], ?_, by rwa [hsame], rfl, rfl, (List.append_nil _).symm, by simp [Echo, hnil]⟩
    rw [FinshShell.backspaceKey, if_pos (by rw [hcur, hnil]; rfl)]
  · have hl : e.line = ⟨before ++ [x], e.line.after⟩ := by rw [← hbefore]
    have hblen : e.line.before.length = before.length + 1 := by rw [hbefore, List.length_append, List.length_singleton]
    obtain ⟨line, out, hrub, hholds, hecho⟩ := rubOut_spec table i h hl
    have hposition : (s.linePosition + 65535) % 65536 = before.length + e.line.after.length := by
      rw [hpos]
      omega
    have hcurpos : s.lineCurpos - 1 = before.length := by
      rw [hcur]
      omega
    have htext : e.line.rubOut.text.length = before.length + e.line.after.length := by
      rw [hl, Line.rubOut, Line.length_text, List.dropLast_concat]
    refine ⟨{ s with
        linePosition := before.length + e.line.after.length, lineCurpos := before.length, line := line,
        console := s.console ++ out }, out, ?_, h.change hholds ?_ ?_ ?_ rfl rfl rfl rfl, rfl, rfl, rfl, hecho⟩
    · rw [FinshShell.backspaceKey, if_neg (by omega)]
      dsimp only
      rw [hposition, hcurpos]
      exact hrub
    · rw [htext]
      omega
    · exact htext.symm
    · rw [hl, Line.rubOut, List.dropLast_concat]

theorem leftKey_turns (h : Refines z s e) : Turns z table i s e .left (some (s.leftKey z)) := by
  have hcur := h.curpos
  rcases List.eq_nil_or_concat' e.line.before with hnil | ⟨before, x, hbefore⟩
  · have hsame : e.press z table i.files .left = e := by simp [Editor.press, Line.left, hnil]
    refine ⟨s, [], ?_, by rwa [hsame], rfl, rfl, (List.append_nil _).symm, by simp [Echo, hnil]⟩
    rw [FinshShell.leftKey, if_neg (by simp [hcur, hnil])]
  · have hleft : e.line.left = ⟨before, x :: e.line.after⟩ := by simp [Line.left, hbefore]
    refine ⟨{ s.kprintf z [0x08] with lineCurpos := s.lineCurpos - 1 }, shown z [0x08], ?_, ?_, rfl, rfl, rfl,
      by simp [Echo, hbefore]⟩
    · rw [FinshShell.leftKey, if_pos (by simp [hcur, hbefore])]
    · refine h.change (l := e.line.left) ?_ ?_ ?_ ?_ rfl rfl rfl rfl
      · rw [Line.text_left]
        exact h.line
      · rw [Line.text_left]
        exact h.short
      · rw [Line.text_left]
        exact h.position
      · dsimp only
        rw [hleft, hcur, hbefore, List.length_append, List.length_singleton, Nat.add_sub_cancel]

theorem rightKey_turns (h : Refines z s e) : Turns z table i s e .right (s.rightKey z) := by
  have hcur := h.curpos
  have hpos := h.position
  have hlen := e.line.length_text
  cases hafter : e.line.after with
  | nil =>
    have hsame : e.press z table i.files .right = e := by simp [Editor.press, Line.right, hafter]
    refine ⟨s, [], ?_, by rwa [hsame], rfl, rfl, (List.append_nil _).symm, by simp [Echo, hafter]⟩
    rw [FinshShell.rightKey, if_neg]
    rw [hafter, List.length_nil] at hlen
    omega
  | cons x after =>
    have hright : e.line.right = ⟨e.line.before ++ [x], after⟩ := by simp [Line.right, hafter]
    obtain ⟨r, hcells, -⟩ := h.cells
    have hget : s.line[s.lineCurpos]? = some x := by
      rw [hcells, hcur, hafter, List.append_assoc, List.getElem?_append_right (Nat.le_refl _), Nat.sub_self]
      rfl
    refine ⟨{ s.kprintf z [x] with lineCurpos := s.lineCurpos + 1 }, shown z [x], ?_, ?_, rfl, rfl, rfl,
      by simp [Echo, hafter]⟩
    · rw [hafter, List.length_cons] at hlen
      rw [FinshShell.rightKey, if_pos (by omega), hget]
      rfl
    · refine h.change (l := e.line.right) ?_ ?_ ?_ ?_ rfl rfl rfl rfl
      · rw [Line.text_right]
        exact h.line
      · rw [Line.text_right]
        exact h.short
      · rw [Line.text_right]
        exact h.position
      · dsimp only
        rw [hright, hcur, List.length_append, List.length_singleton]

theorem tabKey_turns (h : Refines z s e) (htable : TableOk table) (hfits : KeyFits z table i.files e.line.text .tab) :
    Turns z table i s e .tab (s.tabKey z table i) := by
  obtain ⟨line, texts, hcomplete, hholds, hlists⟩ :=
    mshAutoComplete_spec h.line hfits.1 htable (Nat.lt_succ_of_lt hfits.2)
  refine ⟨{ s with
      line := line, lineCurpos := (completeLine table i.files e.line.text).length,
      linePosition := (completeLine table i.files e.line.text).length,
      console := s.console ++ ((List.replicate e.line.before.length (shown z [0x08])).flatten ++ shown z [0x0a] ++
        (texts.map (shown z)).flatten ++ shown z (i.prompt ++ completeLine table i.files e.line.text)) }, _, ?_, ?_,
    rfl, rfl, rfl, texts, hlists, rfl⟩
  · rw [FinshShell.tabKey]
    simp only [FinshShell.backspaces_eq, FinshShell.kprintfs_eq, FinshShell.kprintf, hcomplete, Option.bind_eq_bind,
      Option.bind_some, hholds.upTo (Nat.zero_le _), List.drop_zero, h.curpos, List.append_assoc]
  · refine h.change (l := .ofText (completeLine table i.files e.line.text)) ?_ ?_ ?_ rfl rfl rfl rfl rfl
    · rw [Line.text_ofText]
      exact hholds
    · rw [Line.text_ofText]
      exact hfits.2
    · rw [Line.text_ofText]

/-! ## The history -/

theorem length_rowOf (ht : t.length < z.cmdSize) : (rowOf z t).length = z.cmdSize := by
  rw [rowOf, List.length_append, List.length_replicate]
  omega

/-- The text of a row is what is in front of its first null character. -/
theorem rowOf_inj {t' : List UInt8} (ht : Keepable z t) (ht' : Keepable z t') : rowOf z t = rowOf z t' ↔ t = t' := by
  have hcut {u : List UInt8} (hu : Keepable z u) : (rowOf z u).takeWhile (· ≠ 0) = u := by
    have hall : ∀ x ∈ u, x ≠ 0 := fun x hx h0 => hu.2 (h0 ▸ hx)
    obtain ⟨r, hr⟩ : ∃ r, z.cmdSize - u.length = r + 1 := ⟨z.cmdSize - u.length - 1, by have := hu.1; omega⟩
    rw [rowOf, hr, List.replicate_succ, List.takeWhile_append_of_pos (by simpa using hall)]
    simp
  refine ⟨fun h => ?_, fun h => h ▸ rfl⟩
  rw [← hcut ht, h, hcut ht']

namespace Refines

theorem keepable_text (h : Refines z s e) : Keepable z e.line.text := ⟨h.short, h.line.noNul⟩

theorem row_eq (h : Refines z s e) (hk : k < e.lines.length) : s.cmdHistory[k]? = some (rowOf z
    (e.lines.getD k [])) := by
  rw [h.history, List.getElem?_append_left (by rwa [List.length_map]), List.getElem?_map, List.getD_eq_getElem?_getD,
    List.getElem?_eq_getElem hk]
  rfl

theorem take_line (h : Refines z s e) : s.line.take z.cmdSize = rowOf z e.line.text := by
  have hlt := h.short
  rw [h.line.eq, rowOf, List.take_append, List.take_of_length_le (Nat.le_of_lt hlt), List.take_replicate]
  congr 2
  omega

theorem historyRow_eq (h : Refines z s e) : s.historyRow z = some (rowOf z e.line.text) := by
  have hlt := h.short
  have htake : s.line.take e.line.text.length = e.line.text := by rw [h.line.eq, List.take_left]
  rw [FinshShell.historyRow, h.position, if_pos (Nat.le_of_lt hlt), htake, rowOf]

/-- The last row is compared with the whole line, which is to compare the texts. -/
theorem last_row (h : Refines z s e) (hne : e.lines ≠ []) :
    s.cmdHistory[e.lines.length - 1]? ≠ some (s.line.take z.cmdSize) ↔ e.lines.getLast? ≠ some e.line.text := by
  have hpos := List.length_pos_of_ne_nil hne
  have hlast : e.lines.getLast? = some (e.lines.getD (e.lines.length - 1) []) := by
    rw [List.getLast?_eq_getElem?, List.getD_eq_getElem?_getD, List.getElem?_eq_getElem (by omega)]
    rfl
  have hmem : e.lines.getD (e.lines.length - 1) [] ∈ e.lines := List.mem_of_getLast? hlast
  rw [h.row_eq (by omega), h.take_line, hlast, ne_eq, ne_eq, Option.some.injEq, Option.some.injEq,
    rowOf_inj (h.keepable _ hmem) h.keepable_text]

end Refines

theorem rows_set {lines : List (List UInt8)} (hlt : lines.length < n) :
    (lines.map (rowOf z) ++ List.replicate (n - lines.length) (rowOf z [])).set lines.length (rowOf z t) =
      (lines ++ [t]).map (rowOf z) ++ List.replicate (n - (lines ++ [t]).length) (rowOf z []) := by
  obtain ⟨r, hr⟩ : ∃ r, n - lines.length = r + 1 := ⟨n - lines.length - 1, by omega⟩
  have hlen : (lines.map (rowOf z)).length = lines.length := List.length_map _
  have hr' : n - (lines ++ [t]).length = r := by
    rw [List.length_append, List.length_singleton]
    omega
  rw [hr, List.replicate_succ, hr', List.set_append_right _ _ (Nat.le_of_eq hlen), hlen, Nat.sub_self,
    List.set_cons_zero, List.map_append, List.append_assoc]
  rfl

theorem length_pushed (h : Refines z s e) : (e.pushed z).length ≤ z.historyLines := by
  unfold Editor.pushed
  split
  · exact h.few
  · exact length_remember h.few

theorem mem_pushed (h : Refines z s e) (ht : t ∈ e.pushed z) : Keepable z t := by
  unfold Editor.pushed at ht
  split at ht
  · exact h.keepable t ht
  · unfold remember at ht
    split at ht
    · exact h.keepable t ht
    · rcases List.mem_append.mp (List.mem_of_mem_drop ht) with hmem | hmem
      · exact h.keepable t hmem
      · rw [List.mem_singleton.mp hmem]
        exact h.keepable_text

theorem storeHistory_spec (h : Refines z s e) (htext : e.line.text ≠ []) : s.storeHistory z = some { s with
    cmdHistory := (e.pushed z).map (rowOf z) ++ List.replicate (z.historyLines - (e.pushed z).length) (rowOf z []),
    historyCount := (e.pushed z).length } := by
  have hcount := h.count
  have hfew := h.few
  have hposLines := z.historyLines_pos
  have hltLines := z.historyLines_lt
  have hhistory := h.history
  have hpushed : e.pushed z = remember z.historyLines e.lines e.line.text := if_neg htext
  unfold FinshShell.storeHistory
  by_cases hsame : e.lines.getLast? = some e.line.text
  · have hne : e.lines ≠ [] := by
      intro hnil
      rw [hnil] at hsame
      exact absurd hsame (by simp)
    have hlen := List.length_pos_of_ne_nil hne
    have hkeep : e.pushed z = e.lines := by rw [hpushed, remember, if_pos hsame]
    have hrow : ¬ s.cmdHistory[s.historyCount - 1]? ≠ some (s.line.take z.cmdSize) := by
      rw [hcount, h.last_row hne]
      exact not_not.mpr hsame
    rw [hkeep, ← hhistory, ← hcount]
    by_cases hfull : z.historyLines ≤ s.historyCount
    · have hlines : z.historyLines = s.historyCount := by omega
      rw [if_pos hfull, hlines, if_neg hrow]
    · rw [if_neg hfull, if_neg (not_or.mpr ⟨by omega, hrow⟩)]
  · have hadd : e.pushed z = (e.lines ++ [e.line.text]).drop (e.lines.length + 1 - z.historyLines) := by
      rw [hpushed, remember, if_neg hsame]
    by_cases hfull : z.historyLines ≤ s.historyCount
    · -- "move history"
      have hlen : e.lines.length = z.historyLines := by omega
      have hdiffer := (h.last_row (List.ne_nil_of_length_pos (by omega))).mpr hsame
      rw [hlen] at hdiffer
      have hone : e.lines.length + 1 - z.historyLines = 1 := by omega
      have hmoved : e.pushed z = e.lines.tail ++ [e.line.text] := by
        rw [hadd, hone, List.drop_append_of_le_length (by omega), List.drop_one]
      have hlen' : (e.pushed z).length = z.historyLines := by
        rw [hmoved, List.length_append, List.length_tail, List.length_singleton]
        omega
      rw [if_pos hfull, if_pos hdiffer, h.historyRow_eq, hlen', Nat.sub_self, List.replicate_zero, List.append_nil,
        hmoved, List.map_append, hhistory, hlen, Nat.sub_self, List.replicate_zero, List.append_nil, List.map_tail]
      rfl
    · have hnone : e.lines.length + 1 - z.historyLines = 0 := by omega
      have happended : e.pushed z = e.lines ++ [e.line.text] := by rw [hadd, hnone, List.drop_zero]
      have hnew : s.historyCount = 0 ∨ s.cmdHistory[s.historyCount - 1]? ≠ some (s.line.take z.cmdSize) := by
        by_cases hne : e.lines = []
        · exact .inl (by rw [hcount, hne]; rfl)
        · right
          rw [hcount]
          exact (h.last_row hne).mpr hsame
      have hlen' : (s.historyCount + 1) % 65536 = (e.lines ++ [e.line.text]).length := by
        rw [List.length_append, List.length_singleton, ← hcount]
        exact Nat.mod_eq_of_lt (by omega)
      rw [if_neg hfull, if_pos hnew, h.historyRow_eq, Option.map_some, hlen', happended, hhistory, hcount,
        rows_set (by omega)]

theorem shellPushHistory_spec (h : Refines z s e) : s.shellPushHistory z = some { s with
    cmdHistory := (e.pushed z).map (rowOf z) ++ List.replicate (z.historyLines - (e.pushed z).length) (rowOf z []),
    historyCount := (e.pushed z).length, currentHistory := (e.pushed z).length } := by
  unfold FinshShell.shellPushHistory
  by_cases htext : e.line.text = []
  · have hzero : ¬ s.linePosition ≠ 0 := by
      rw [h.position, htext]
      exact not_not.mpr rfl
    have hpushed : e.pushed z = e.lines := if_pos htext
    rw [if_neg hzero, hpushed, ← h.history, ← h.count]
    rfl
  · have hpos : s.linePosition ≠ 0 := by
      rw [h.position]
      exact fun h0 => htext (List.length_eq_zero_iff.mp h0)
    rw [if_pos hpos, storeHistory_spec h htext]
    rfl

theorem enterKey_turns (h : Refines z s e) : Turns z table i s e .enter (s.enterKey z i) := by
  have hsize := z.cmdSize_pos
  refine ⟨{ s with
      cmdHistory := (e.pushed z).map (rowOf z) ++ List.replicate (z.historyLines - (e.pushed z).length) (rowOf z []),
      historyCount := (e.pushed z).length, currentHistory := (e.pushed z).length,
      executed := s.executed ++ [(s.line, s.linePosition)],
      console := s.console ++ ((if s.echoMode then shown z [0x0a] else []) ++ i.printed ++ shown z i.prompt),
      line := List.replicate (z.cmdSize + 1) 0, lineCurpos := 0, linePosition := 0 }, _, ?_, ?_, rfl, rfl, rfl, rfl⟩
  · rw [FinshShell.enterKey, shellPushHistory_spec h]
    cases s.echoMode <;> simp [FinshShell.kprintf]
  · exact
    { line := Holds.of_eq (r := z.cmdSize + 1) (by simp [Editor.press]) (by simp [Editor.press])
        (by simp [Editor.press]) (by simp [Editor.press])
      short := by simpa [Editor.press] using hsize
      position := rfl
      curpos := rfl
      history := rfl
      count := rfl
      few := length_pushed h
      keepable := fun t ht => mem_pushed h ht
      place := rfl
      place_le := Nat.le_refl _
      executed := by
        simp only [Editor.press, List.map_append, List.map_cons, List.map_nil, h.executed, h.position]
        rw [h.line.eq] }

theorem shellHandleHistory_spec (h : Refines z s e) (hk : k < e.lines.length) :
    ∃ s', FinshShell.shellHandleHistory z i { s with currentHistory := k } = some s' ∧ Refines z s' (e.fetch k) ∧
      s'.stat = s.stat ∧ s'.echoMode = s.echoMode ∧
      s'.console = s.console ++ (shown z [0x1b, ch '[', ch '2', ch 'K', 0x0d] ++
        shown z (i.prompt ++ e.lines.getD k [])) := by
  have hmem : e.lines.getD k [] ∈ e.lines := by
    rw [List.getD_eq_getElem?_getD, List.getElem?_eq_getElem hk]
    exact List.getElem_mem hk
  generalize hrow : e.lines.getD k [] = t at hmem ⊢
  have hkeep := h.keepable t hmem
  have hlen := length_rowOf hkeep.1
  have hline := h.line.length_line
  have hdrop : s.line.drop z.cmdSize = [0] := by
    have hlt := h.short
    rw [h.line.eq, List.drop_append, List.drop_of_length_le (Nat.le_of_lt hlt), List.nil_append, List.drop_replicate]
    have hone : z.cmdSize + 1 - e.line.text.length - (z.cmdSize - e.line.text.length) = 1 := by omega
    rw [hone, List.replicate_one]
  have hwrite : write s.line 0 (rowOf z t) = some (t ++ List.replicate (z.cmdSize + 1 - t.length) 0) := by
    have hsucc : z.cmdSize + 1 - t.length = z.cmdSize - t.length + 1 := by have := hkeep.1; omega
    rw [write, if_pos (by omega), List.take_zero, List.nil_append, hlen, Nat.zero_add, hdrop, hsucc,
      List.replicate_succ', rowOf, List.append_assoc]
  have hholds : Holds (z.cmdSize + 1) (t ++ List.replicate (z.cmdSize + 1 - t.length) 0) t :=
    ⟨rfl, Nat.lt_succ_of_lt hkeep.1, hkeep.2⟩
  refine ⟨{ s with
      currentHistory := k, line := t ++ List.replicate (z.cmdSize + 1 - t.length) 0, lineCurpos := t.length,
      linePosition := t.length,
      console := s.console ++ (shown z [0x1b, ch '[', ch '2', ch 'K', 0x0d] ++ shown z (i.prompt ++ t)) },
    ?_, ?_, rfl, rfl, rfl⟩
  · rw [FinshShell.shellHandleHistory]
    simp only [h.row_eq hk, hrow, hwrite, hholds.upTo (Nat.zero_le _), List.drop_zero, Option.bind_eq_bind,
      Option.bind_some, FinshShell.kprintf, List.append_assoc]
  · have hchange : Refines z { s with
        line := t ++ List.replicate (z.cmdSize + 1 - t.length) 0, lineCurpos := t.length, linePosition := t.length,
        console := s.console ++ (shown z [0x1b, ch '[', ch '2', ch 'K', 0x0d] ++ shown z (i.prompt ++ t)) }
        { e with line := .ofText t } :=
      h.change (by rwa [Line.text_ofText]) (by rw [Line.text_ofText]; exact hkeep.1) (by rw [Line.text_ofText]) rfl rfl
        rfl rfl rfl
    rw [Editor.fetch, hrow]
    exact ⟨hchange.line, hchange.short, hchange.position, hchange.curpos, hchange.history, hchange.count, hchange.few,
      hchange.keepable, rfl, Nat.le_of_lt hk, hchange.executed⟩

theorem upKey_turns (h : Refines z s e) : Turns z table i s e .up (s.upKey z i) := by
  have hplace := h.place
  have hle := h.place_le
  by_cases hpos : 0 < e.place
  · obtain ⟨s', hfetch, href, hstat, hecho, hconsole⟩ :=
      shellHandleHistory_spec (i := i) h (k := e.place - 1) (by omega)
    refine ⟨s', _, ?_, ?_, hstat, hecho, hconsole, by simp [Echo, hpos]⟩
    · rw [FinshShell.upKey, if_pos (by omega), hplace]
      exact hfetch
    · rwa [Editor.press, if_pos hpos]
  · refine ⟨s, [], ?_, ?_, rfl, rfl, (List.append_nil _).symm, by simp [Echo, hpos]⟩
    · rw [FinshShell.upKey, if_neg (by omega)]
    · rwa [Editor.press, if_neg hpos]

theorem downKey_turns (h : Refines z s e) : Turns z table i s e .down (s.downKey z i) := by
  have hplace := h.place
  have hcount := h.count
  have hle := h.place_le
  by_cases hnil : e.lines = []
  · have hzero : s.historyCount = 0 := by rw [hcount, hnil]; rfl
    refine ⟨s, [], ?_, ?_, rfl, rfl, (List.append_nil _).symm, by simp [Echo, hnil]⟩
    · rw [FinshShell.downKey, if_neg (by omega), if_neg (not_not.mpr hzero)]
    · rwa [Editor.press, if_pos hnil]
  · have hpos := List.length_pos_of_ne_nil hnil
    obtain ⟨s', hfetch, href, hstat, hecho, hconsole⟩ :=
      shellHandleHistory_spec (i := i) h (k := min (e.place + 1) (e.lines.length - 1)) (by omega)
    refine ⟨s', _, ?_, ?_, hstat, hecho, hconsole, by simp [Echo, hnil]⟩
    · rw [FinshShell.downKey, hplace]
      by_cases hlt : e.place + 1 < e.lines.length
      · rw [if_pos (by omega)]
        rwa [Nat.min_eq_left (by omega)] at hfetch
      · rw [if_neg (by omega), if_pos (by omega)]
        rwa [Nat.min_eq_right (by omega), ← hcount] at hfetch
    · rwa [Editor.press, if_neg hnil]

end ThyristorController.Shell
