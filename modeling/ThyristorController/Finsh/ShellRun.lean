import ThyristorController.Finsh.ShellLine

/-!
# The shell, byte after byte

`edit_run`: as long as no line grows to `FINSH_CMD_SIZE` characters, the shell is the editor of the keys that were
typed, and no byte makes it leave its buffers. From that, `history_run` says what is in the history.
-/

namespace ThyristorController.Shell

open LineEdit Transition
open Kservice (ch)

variable {z : Sizes} {table : List FinshSyscall} {i : Input} {s : FinshShell} {e : Editor}
  {h : History FinshShell Input} {echoMode : Bool} {prompt : List UInt8}

/-! ## One turn -/

theorem plainKey_spec (href : Refines z s e) (htable : TableOk table)
    (hfits : ∀ k, plainKeyOf i.ch = some k → KeyFits z table i.files e.line.text k) :
    (plainKeyOf i.ch = none ∧ s.plainKey z table i = some s) ∨
      ∃ k, plainKeyOf i.ch = some k ∧ Turns z table i s e k (s.plainKey z table i) := by
  unfold FinshShell.plainKey
  unfold plainKeyOf at hfits ⊢
  by_cases h1 : i.ch = 0 ∨ i.ch = 0xff
  · rw [if_pos h1, if_pos h1]
    exact .inl ⟨rfl, rfl⟩
  · rw [if_neg h1] at hfits ⊢
    rw [if_neg h1]
    right
    by_cases h2 : i.ch = 0x09
    · rw [if_pos h2] at hfits ⊢
      rw [if_pos h2]
      exact ⟨_, rfl, tabKey_turns href htable (hfits _ rfl)⟩
    · rw [if_neg h2] at hfits ⊢
      rw [if_neg h2]
      by_cases h3 : i.ch = 0x7f ∨ i.ch = 0x08
      · rw [if_pos h3, if_pos h3]
        exact ⟨_, rfl, backspaceKey_turns href⟩
      · rw [if_neg h3] at hfits ⊢
        rw [if_neg h3]
        by_cases h4 : i.ch = 0x0d ∨ i.ch = 0x0a
        · rw [if_pos h4, if_pos h4]
          exact ⟨_, rfl, enterKey_turns href⟩
        · rw [if_neg h4] at hfits ⊢
          rw [if_neg h4]
          exact ⟨_, rfl, normalKey_turns href (hfits _ rfl) fun h0 => h1 (.inl h0)⟩

/-- What a byte does: it completes a key or none, and something else is awaited behind it. -/
inductive Step (z : Sizes) (table : List FinshSyscall) (i : Input) (s : FinshShell) (e : Editor) (s' : FinshShell) :
    Prop
  | quiet : (decodeKey s.stat i.ch).2 = none → s' = { s with stat := (decodeKey s.stat i.ch).1 } → Step z table i s e s'
  | key (k : Key) (out : List UInt8) : (decodeKey s.stat i.ch).2 = some k →
      Refines z s' (e.press z table i.files k) → s'.stat = (decodeKey s.stat i.ch).1 → s'.echoMode = s.echoMode →
      s'.console = s.console ++ out → Echo z table s.echoMode i e k out → Step z table i s e s'

theorem Turns.step {k : Key} {r : Option FinshShell} {stat : InputStat}
    (ht : Turns z table i { s with stat := stat } e k r) (hk : decodeKey s.stat i.ch = (stat, some k)) :
    ∃ s', r = some s' ∧ Step z table i s e s' := by
  obtain ⟨s', out, hr, href, hstat, hecho, hconsole, hout⟩ := ht
  refine ⟨s', hr, .key k out (by rw [hk]) href ?_ hecho hconsole hout⟩
  rw [hstat, hk]

theorem turn_plain {stat : InputStat} (href : Refines z s e) (htable : TableOk table)
    (hk : decodeKey s.stat i.ch = (stat, plainKeyOf i.ch))
    (hfits : ∀ k, (decodeKey s.stat i.ch).2 = some k → KeyFits z table i.files e.line.text k) :
    ∃ s', FinshShell.plainKey z table i { s with stat := stat } = some s' ∧ Step z table i s e s' := by
  rw [hk] at hfits
  rcases plainKey_spec (href.setStat stat) htable hfits with ⟨hnone, heq⟩ | ⟨k, hsome, ht⟩
  · exact ⟨_, heq, .quiet (by rw [hk, hnone]) (by rw [hk])⟩
  · exact ht.step (by rw [hk, hsome])

section decode

variable {stat : InputStat} {c : UInt8}

theorem decodeKey_escape (hc : c = 0x1b) : decodeKey stat c = (.waitSpecKey, none) := if_pos hc

theorem decodeKey_normal (hc : c ≠ 0x1b) : decodeKey .waitNormal c = (.waitNormal, plainKeyOf c) := if_neg hc

theorem decodeKey_spec (hc : c ≠ 0x1b) :
    decodeKey .waitSpecKey c = if c = 0x5b then (.waitFuncKey, none) else (.waitNormal, plainKeyOf c) := if_neg hc

theorem decodeKey_func (hc : c ≠ 0x1b) : decodeKey .waitFuncKey c =
    if c = 0x41 then (.waitNormal, some .up) else if c = 0x42 then (.waitNormal, some .down)
    else if c = 0x44 then (.waitNormal, some .left) else if c = 0x43 then (.waitNormal, some .right)
    else (.waitNormal, plainKeyOf c) := if_neg hc

theorem decodeKey_plain {k : Key} (hk : (decodeKey stat c).2 = some k) (harrow : k ∉ [Key.up, .down, .left, .right]) :
    c ≠ 0x1b ∧ plainKeyOf c = some k := by
  by_cases hesc : c = 0x1b
  · rw [decodeKey_escape hesc] at hk
    exact absurd hk (by simp)
  · refine ⟨hesc, ?_⟩
    cases stat with
    | waitNormal => rwa [decodeKey_normal hesc] at hk
    | waitSpecKey =>
      rw [decodeKey_spec hesc] at hk
      split at hk
      · exact absurd hk (by simp)
      · exact hk
    | waitFuncKey =>
      rw [decodeKey_func hesc] at hk
      have hnot {k' : Key} (hmem : k' ∈ [Key.up, .down, .left, .right]) : some k' ≠ some k := by
        intro heq
        exact harrow (Option.some.inj heq ▸ hmem)
      split_ifs at hk
      · exact absurd hk (hnot (by simp))
      · exact absurd hk (hnot (by simp))
      · exact absurd hk (hnot (by simp))
      · exact absurd hk (hnot (by simp))
      · exact hk

end decode

/-- One turn of the loop has a result, if what it adds to the line fits. -/
theorem turn_spec (href : Refines z s e) (htable : TableOk table)
    (hfits : ∀ k, (decodeKey s.stat i.ch).2 = some k → KeyFits z table i.files e.line.text k) :
    ∃ s', s.turn z table i = some s' ∧ Step z table i s e s' := by
  unfold FinshShell.turn
  by_cases hesc : i.ch = 0x1b
  · have hk : decodeKey s.stat i.ch = (.waitSpecKey, none) := decodeKey_escape hesc
    rw [if_pos hesc]
    exact ⟨_, rfl, .quiet (by rw [hk]) (by rw [hk])⟩
  · rw [if_neg hesc]
    cases hstat : s.stat with
    | waitNormal =>
      have hk : decodeKey s.stat i.ch = (.waitNormal, plainKeyOf i.ch) := by rw [hstat, decodeKey_normal hesc]
      have hsame : { s with stat := .waitNormal } = s := by rw [← hstat]
      obtain ⟨s', hturn, hstep⟩ := turn_plain href htable hk hfits
      rw [hsame] at hturn
      exact ⟨s', hturn, hstep⟩
    | waitSpecKey =>
      have hk := decodeKey_spec hesc
      rw [← hstat] at hk
      dsimp only
      by_cases hb : i.ch = 0x5b
      · rw [if_pos hb] at hk ⊢
        exact ⟨_, rfl, .quiet (by rw [hk]) (by rw [hk])⟩
      · rw [if_neg hb] at hk ⊢
        exact turn_plain href htable hk hfits
    | waitFuncKey =>
      have href' := href.setStat .waitNormal
      have hk := decodeKey_func hesc
      rw [← hstat] at hk
      dsimp only
      by_cases hu : i.ch = 0x41
      · rw [if_pos hu] at hk ⊢
        exact (upKey_turns href').step hk
      · rw [if_neg hu] at hk ⊢
        by_cases hd : i.ch = 0x42
        · rw [if_pos hd] at hk ⊢
          exact (downKey_turns href').step hk
        · rw [if_neg hd] at hk ⊢
          by_cases hl : i.ch = 0x44
          · rw [if_pos hl] at hk ⊢
            exact (leftKey_turns href').step hk
          · rw [if_neg hl] at hk ⊢
            by_cases hr : i.ch = 0x43
            · rw [if_pos hr] at hk ⊢
              exact (rightKey_turns href').step hk
            · rw [if_neg hr] at hk ⊢
              exact turn_plain href htable hk hfits

/-! ## Runs -/

/-- What is awaited behind the bytes of a history. -/
def awaited : History FinshShell Input → InputStat
  | [] => .waitNormal
  | (_, i) :: h => (decodeKey (awaited h) i.ch).1

/-- The editor behind the keys of a history. -/
def edited (z : Sizes) (table : List FinshSyscall) : History FinshShell Input → Editor
  | [] => Editor.empty
  | (_, i) :: h =>
    ((decodeKey (awaited h) i.ch).2.map ((edited z table h).press z table i.files)).getD (edited z table h)

/-- The line of the shell. -/
def FinshShell.text (s : FinshShell) : List UInt8 := s.line.take s.linePosition

/-- The lines that `msh_exec` was given. -/
def FinshShell.commands (s : FinshShell) : List (List UInt8) := s.executed.map fun c => c.1.take c.2

/-- The byte completes no key that makes the line too long. -/
def Fits (z : Sizes) (table : List FinshSyscall) (s : FinshShell) (i : Input) : Prop :=
  ∀ k ∈ (decodeKey s.stat i.ch).2, KeyFits z table i.files s.text k

instance (z : Sizes) (table : List FinshSyscall) (s : FinshShell) (i : Input) : Decidable (Fits z table s i) :=
  inferInstanceAs (Decidable (∀ k ∈ (decodeKey s.stat i.ch).2, _))

theorem Refines.text_eq (href : Refines z s e) : s.text = e.line.text := by
  rw [FinshShell.text, href.line.eq, href.position, List.take_left]

theorem start_refines (z : Sizes) (echoMode : Bool) (prompt : List UInt8) :
    Refines z (FinshShell.start z echoMode prompt) Editor.empty where
  line := Holds.of_eq (r := z.cmdSize + 1) rfl (Nat.zero_add _) (Nat.succ_pos _) List.not_mem_nil
  short := z.cmdSize_pos
  position := rfl
  curpos := rfl
  history := rfl
  count := rfl
  few := Nat.zero_le _
  keepable := fun _ ht => absurd ht List.not_mem_nil
  place := rfl
  place_le := Nat.le_refl _
  executed := rfl

/-- What holds behind every run whose bytes fit. -/
structure Follows (z : Sizes) (table : List FinshSyscall) (echoMode : Bool) (h : History FinshShell Input)
    (s : FinshShell) : Prop where
  refines : Refines z s (edited z table h)
  stat : s.stat = awaited h
  echo : s.echoMode = echoMode

theorem follows_step {s' : FinshShell} (hI : Follows z table echoMode h s)
    (hstep : Step z table i s (edited z table h) s') :
    Follows z table echoMode ((s, i) :: h) s' := by
  have hstat := hI.stat
  cases hstep with
  | quiet hnone hs' =>
    subst hs'
    rw [hstat] at hnone
    have hsame : edited z table ((s, i) :: h) = edited z table h := by rw [edited, hnone]; rfl
    refine ⟨?_, by rw [hstat]; rfl, hI.echo⟩
    rw [hsame]
    exact hI.refines.setStat _
  | key k out hsome href hs hecho _ _ =>
    rw [hstat] at hsome hs
    have hpress : edited z table ((s, i) :: h) = (edited z table h).press z table i.files k := by
      rw [edited, hsome]
      rfl
    exact ⟨hpress ▸ href, hs, hecho.trans hI.echo⟩

theorem follows_run (htable : TableOk table) (hrun : (shell z table echoMode prompt).Run h s)
    (hfits : Throughout (fun _ s i => Fits z table s i) h) : Follows z table echoMode h s := by
  refine hrun.invariant (I := Follows z table echoMode) ?_ ?_ hfits
  · rintro s rfl
    exact ⟨start_refines z echoMode prompt, rfl, rfl⟩
  · intro h s i s' _ hI hG hs
    have hG' : ∀ k, (decodeKey s.stat i.ch).2 = some k → KeyFits z table i.files (edited z table h).line.text k := by
      intro k hk
      rw [← hI.refines.text_eq]
      exact hG k hk
    obtain ⟨t, hturn, hstep⟩ := turn_spec hI.refines htable hG'
    obtain rfl : t = s' := Option.some.inj (hturn.symm.trans hs)
    exact follows_step hI hstep

/-- As long as no key makes a line as long as `FINSH_CMD_SIZE`, the shell is the editor of the typed keys, what
`msh_exec` gets are the edited lines, and every byte that fits has a next state. -/
theorem edit_run (htable : TableOk table) (hrun : (shell z table echoMode prompt).Run h s)
    (hfits : Throughout (fun _ s i => Fits z table s i) h) :
    Refines z s (edited z table h) ∧
      ∀ i, Fits z table s i → ∃ s', (shell z table echoMode prompt).step s i = some s' := by
  have hI := follows_run htable hrun hfits
  refine ⟨hI.refines, fun i hi => ?_⟩
  obtain ⟨s', hturn, -⟩ := turn_spec hI.refines htable fun k hk => by
    rw [← hI.refines.text_eq]
    exact hi k hk
  exact ⟨s', hturn⟩

/-- The sizes of the board's `rtconfig.h`. -/
def boardSizes : Sizes where
  cmdSize := 80
  historyLines := 5
  consoleBufSize := 512
  cmdSize_pos := by decide
  cmdSize_lt := by decide
  historyLines_pos := by decide
  historyLines_lt := by decide

def rootPrompt : List UInt8 := "msh />".toList.map ch

/-- A byte, and commands that print nothing. -/
def typed (c : UInt8) : Input := ⟨c, rootPrompt, [], rootFiles⟩

/-- A character typed in front of others, the completion of a name and the end of the line. -/
theorem edit_run_typed : ∃ h s, (shell boardSizes someCommands true rootPrompt).Run h s ∧
    Throughout (fun _ s i => Fits boardSizes someCommands s i) h ∧ s.commands = ["cat params.bak".toList.map ch] ∧
    Refines boardSizes s (edited boardSizes someCommands h) := by
  obtain ⟨h, s, hrun, hfits, hcommands⟩ := System.exists_run (S := shell boardSizes someCommands true rootPrompt) rfl
    (("ct p".toList.map ch ++ [0x1b, ch '[', ch 'D', 0x1b, ch '[', ch 'D', 0x1b, ch '[', ch 'D', ch 'a', 0x09, ch 'b',
      0x09, 0x0d]).map typed)
    (fun h s => Throughout (fun _ s i => Fits boardSizes someCommands s i) h ∧
      s.commands = ["cat params.bak".toList.map ch]) (by decide +kernel)
  exact ⟨h, s, hrun, hfits, hcommands, (edit_run someCommands_ok hrun hfits).1⟩

/-! ## The history -/

theorem Refines.commands_eq (href : Refines z s e) : s.commands = e.entered := by
  rw [FinshShell.commands, href.executed, List.map_map]
  refine (List.map_congr_left fun t _ => ?_).trans (List.map_id _)
  exact List.take_left

/-- The history is what is remembered of the lines that are not empty. -/
def Remembers (z : Sizes) (e : Editor) : Prop :=
  e.lines = (e.entered.filter (· ≠ [])).foldl (remember z.historyLines) []

theorem Remembers.press (hr : Remembers z e) (files : Files) (k : Key) : Remembers z (e.press z table files k) := by
  cases k with
  | char c => exact hr
  | tab => exact hr
  | backspace => exact hr
  | left => exact hr
  | right => exact hr
  | up =>
    unfold Editor.press
    dsimp only
    split <;> exact hr
  | down =>
    unfold Editor.press
    dsimp only
    split <;> exact hr
  | enter =>
    unfold Remembers at hr ⊢
    unfold Editor.press Editor.pushed
    dsimp only
    rw [List.filter_append]
    by_cases htext : e.line.text = []
    · rw [if_pos htext, htext]
      simpa using hr
    · rw [if_neg htext, List.filter_cons_of_pos (by simpa using htext), List.filter_nil, List.foldl_append, ← hr]
      rfl

theorem remembers_edited (z : Sizes) (table : List FinshSyscall) (h : History FinshShell Input) :
    Remembers z (edited z table h) := by
  induction h with
  | nil => rfl
  | cons p h ih =>
    obtain ⟨s, i⟩ := p
    cases hk : (decodeKey (awaited h) i.ch).2 with
    | none =>
      rw [edited, hk]
      exact ih
    | some k =>
      rw [edited, hk]
      exact ih.press i.files k

/-- The last of the lines that `msh_exec` was given, without the empty ones and the repeated ones. -/
def lastLines (z : Sizes) (s : FinshShell) : List (List UInt8) :=
  let lines := (s.commands.filter (· ≠ [])).destutter (· ≠ ·)
  lines.drop (lines.length - z.historyLines)

/-- As long as the lines fit, the rows of the history are the last lines that `msh_exec` was given: no empty ones, none
twice in a row, and at most `FINSH_HISTORY_LINES` of them. -/
theorem history_run (htable : TableOk table) (hrun : (shell z table echoMode prompt).Run h s)
    (hfits : Throughout (fun _ s i => Fits z table s i) h) :
    s.historyCount = (lastLines z s).length ∧ s.cmdHistory.take s.historyCount = (lastLines z s).map (rowOf z) := by
  have href := (follows_run htable hrun hfits).refines
  have hlines : (edited z table h).lines = lastLines z s := by
    rw [remembers_edited z table h, lastLines, href.commands_eq]
    exact remember_foldl z.historyLines_pos _
  rw [← hlines]
  refine ⟨href.count, ?_⟩
  rw [href.history, href.count]
  exact List.take_left' (List.length_map _)

/-- Seven lines, of which one is empty, one is repeated, and the oldest one is not remembered any more. -/
theorem history_run_typed : ∃ h s, (shell boardSizes someCommands true rootPrompt).Run h s ∧
    Throughout (fun _ s i => Fits boardSizes someCommands s i) h ∧ s.historyCount = 5 ∧
    s.cmdHistory.take s.historyCount = (["2", "3", "4", "5", "6"].map fun t => rowOf boardSizes (t.toList.map ch)) := by
  obtain ⟨h, s, hrun, hfits, hlast⟩ := System.exists_run (S := shell boardSizes someCommands true rootPrompt) rfl
    (("1 2 2  3 4 5 6 ".toList.map fun c => if c = ' ' then 0x0d else ch c).map typed)
    (fun h s => Throughout (fun _ s i => Fits boardSizes someCommands s i) h ∧
      lastLines boardSizes s = ["2", "3", "4", "5", "6"].map fun t => t.toList.map ch) (by decide +kernel)
  obtain ⟨hcount, hrows⟩ := history_run someCommands_ok hrun hfits
  rw [hlast] at hcount hrows
  exact ⟨h, s, hrun, hfits, hcount, hrows⟩

end ThyristorController.Shell
