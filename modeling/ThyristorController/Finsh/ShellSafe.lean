import ThyristorController.Finsh.ShellRun

/-!
# Lines that grow too long (`components/finsh/shell.c`)

A line of `FINSH_CMD_SIZE` characters is given up: both positions are set to 0, and its characters stay in the buffer. A
tab then counts them again. `safe_run` says that this is the only way out: the positions and the buffers of a run are
sound exactly if no tab counts as many as `FINSH_CMD_SIZE` characters, and a sound shell takes every other byte.
-/

namespace ThyristorController.Shell

open LineEdit Transition
open Kservice (ch)

variable {z : Sizes} {table : List FinshSyscall} {i : Input} {s : FinshShell} {h : History FinshShell Input}
  {echoMode : Bool} {prompt : List UInt8} {c : UInt8}

/-- The positions are inside of the line, a null character is behind it, and each row of the history is a string. -/
structure Safe (z : Sizes) (s : FinshShell) : Prop where
  line : s.line.length = z.cmdSize + 1
  last : s.line[z.cmdSize]? = some 0
  curpos : s.lineCurpos ≤ s.linePosition
  position : s.linePosition < z.cmdSize
  rows : s.cmdHistory.length = z.historyLines
  row : ∀ row ∈ s.cmdHistory, row.length = z.cmdSize ∧ row[z.cmdSize - 1]? = some 0
  count : s.historyCount ≤ z.historyLines
  place : s.currentHistory ≤ s.historyCount

/-- A tab leaves a string in the line that is shorter than `FINSH_CMD_SIZE`. -/
def TabShort (z : Sizes) (table : List FinshSyscall) (s : FinshShell) (i : Input) : Prop :=
  (decodeKey s.stat i.ch).2 = some .tab → ∃ line texts text,
    mshAutoComplete table i.files s.line = some (line, texts) ∧ upTo 0 line 0 = some text ∧ text.length < z.cmdSize

/-- A turn has a result, which is safe. -/
def Stays (z : Sizes) (r : Option FinshShell) : Prop := ∃ s', r = some s' ∧ Safe z s'

namespace Safe

theorem change {s' : FinshShell} (hs : Safe z s) (hline : s'.line.length = z.cmdSize + 1)
    (hlast : s'.line[z.cmdSize]? = some 0) (hcurpos : s'.lineCurpos ≤ s'.linePosition)
    (hposition : s'.linePosition < z.cmdSize) (hhistory : s'.cmdHistory = s.cmdHistory)
    (hcount : s'.historyCount = s.historyCount) (hplace : s'.currentHistory = s.currentHistory) : Safe z s' where
  line := hline
  last := hlast
  curpos := hcurpos
  position := hposition
  rows := by rw [hhistory, hs.rows]
  row := by rw [hhistory]; exact hs.row
  count := by rw [hcount]; exact hs.count
  place := by rw [hplace, hcount]; exact hs.place

theorem setStat (hs : Safe z s) (stat : InputStat) : Safe z { s with stat := stat } :=
  hs.change hs.line hs.last hs.curpos hs.position rfl rfl rfl

end Safe

theorem exists_store {b : List UInt8} {n k : Nat} (hk : k < b.length) (hkn : k < n) :
    ∃ b', store b k c = some b' ∧ b'.length = b.length ∧ b'[n]? = b[n]? :=
  ⟨_, store_eq hk, List.length_set, List.getElem?_set_ne (by omega)⟩

theorem insert_stays (hs : Safe z s) :
    ∃ cells out, (if s.lineCurpos < s.linePosition then s.insertMiddle z c else s.insertEnd z c) =
        some { s with line := cells, console := s.console ++ out } ∧
      cells.length = z.cmdSize + 1 ∧ cells[z.cmdSize]? = some 0 := by
  have hline := hs.line
  have hcur := hs.curpos
  have hpos := hs.position
  by_cases hmid : s.lineCurpos < s.linePosition
  · obtain ⟨cells₁, hmove, hlen₁, hlast₁⟩ := exists_move (b := s.line) (n := s.linePosition - s.lineCurpos)
      (s.lineCurpos + 1) s.lineCurpos (by omega) (by omega)
    obtain ⟨cells, hstore, hlen, hlast⟩ :=
      exists_store (c := c) (b := cells₁) (k := s.lineCurpos) (n := z.cmdSize) (by omega) (by omega)
    have hnul : cells[z.cmdSize]? = some 0 := by rw [hlast, hlast₁ _ (by omega), hs.last]
    obtain ⟨text, htext, -⟩ := exists_upTo hnul (i := s.lineCurpos) (by omega)
    refine ⟨cells, (if s.echoMode then shown z text else []) ++
      (List.replicate (s.linePosition - s.lineCurpos) (shown z [0x08])).flatten, ?_, by omega, hnul⟩
    rw [if_pos hmid, FinshShell.insertMiddle, hmove]
    simp only [Option.bind_eq_bind, Option.bind_some, hstore]
    cases s.echoMode <;> simp [FinshShell.kprintf, FinshShell.backspaces_eq, htext]
  · obtain ⟨cells, hstore, hlen, hlast⟩ :=
      exists_store (c := c) (b := s.line) (k := s.linePosition) (n := z.cmdSize) (by omega) hpos
    refine ⟨cells, if s.echoMode then shown z [c] else [], ?_, by omega, by rw [hlast, hs.last]⟩
    rw [if_neg hmid, FinshShell.insertEnd, hstore]
    cases s.echoMode <;> simp [FinshShell.kprintf]

theorem normalKey_stays (hs : Safe z s) : Stays z (s.normalKey z c) := by
  obtain ⟨line, out, hinsert, hlen, hlast⟩ := insert_stays (c := c) hs
  have hcur := hs.curpos
  have hpos := hs.position
  have hsize := z.cmdSize_lt
  have hkeep : s.discardLarge z = s := if_neg (by omega)
  rw [FinshShell.normalKey, hkeep, hinsert, Option.map_some]
  refine ⟨_, rfl, ?_⟩
  unfold FinshShell.advance
  dsimp only
  rw [Nat.mod_eq_of_lt (by omega), Nat.mod_eq_of_lt (by omega)]
  split
  · exact hs.change hlen hlast (Nat.le_refl _) z.cmdSize_pos rfl rfl rfl
  · rename_i hroom
    exact hs.change hlen hlast (Nat.succ_le_succ hcur) (Nat.not_le.mp hroom) rfl rfl rfl

theorem backspaceKey_stays (hs : Safe z s) : Stays z (s.backspaceKey z) := by
  have hline := hs.line
  have hcur := hs.curpos
  have hpos := hs.position
  have hsize := z.cmdSize_lt
  unfold FinshShell.backspaceKey
  by_cases h0 : s.lineCurpos = 0
  · rw [if_pos h0]
    exact ⟨s, rfl, hs⟩
  · have hposition : (s.linePosition + 65535) % 65536 = s.linePosition - 1 := by omega
    rw [if_neg h0]
    dsimp only
    rw [hposition]
    by_cases hmid : s.lineCurpos - 1 < s.linePosition - 1
    · obtain ⟨cells₁, hmove, hlen₁, hlast₁⟩ := exists_move (b := s.line) (n := s.linePosition - 1 - (s.lineCurpos - 1))
        (s.lineCurpos - 1) (s.lineCurpos - 1 + 1) (by omega) (by omega)
      obtain ⟨cells, hstore, hlen, hlast⟩ :=
        exists_store (c := 0) (b := cells₁) (k := s.linePosition - 1) (n := z.cmdSize) (by omega) (by omega)
      have hnul : cells[z.cmdSize]? = some 0 := by rw [hlast, hlast₁ _ (by omega), hs.last]
      obtain ⟨text, htext, -⟩ := exists_upTo hnul (i := s.lineCurpos - 1) (by omega)
      rw [if_pos hmid, FinshShell.rubOutMiddle]
      simp only [Option.bind_eq_bind, Option.bind_some, hmove, hstore, htext, FinshShell.backspaces_eq,
        FinshShell.kprintf]
      exact ⟨_, rfl, hs.change (by dsimp only; omega) hnul (Nat.sub_le_sub_right hcur 1) (by dsimp only; omega) rfl rfl
        rfl⟩
    · obtain ⟨cells, hstore, hlen, hlast⟩ :=
        exists_store (c := 0) (b := s.line) (k := s.linePosition - 1) (n := z.cmdSize) (by omega) (by omega)
      rw [if_neg hmid, FinshShell.rubOutEnd]
      simp only [Option.bind_eq_bind, Option.bind_some, hstore, FinshShell.kprintf]
      exact ⟨_, rfl, hs.change (by dsimp only; omega) (by rw [hlast, hs.last]) (Nat.sub_le_sub_right hcur 1)
        (by dsimp only; omega) rfl rfl rfl⟩

theorem leftKey_stays (hs : Safe z s) : Safe z (s.leftKey z) := by
  have hcur := hs.curpos
  unfold FinshShell.leftKey
  split
  · exact hs.change hs.line hs.last (by dsimp only; exact Nat.le_trans (Nat.sub_le _ _) hcur) hs.position rfl rfl rfl
  · exact hs

theorem rightKey_stays (hs : Safe z s) : Stays z (s.rightKey z) := by
  have hline := hs.line
  have hpos := hs.position
  unfold FinshShell.rightKey
  by_cases hlt : s.lineCurpos < s.linePosition
  · have hget : s.line[s.lineCurpos]? = some s.line[s.lineCurpos] := List.getElem?_eq_getElem (by omega)
    rw [if_pos hlt, hget]
    exact ⟨_, rfl, hs.change hline hs.last hlt hpos rfl rfl rfl⟩
  · rw [if_neg hlt]
    exact ⟨s, rfl, hs⟩

theorem shellHandleHistory_stays (hs : Safe z s) {k : Nat} (hk : k < z.historyLines) (hcount : k ≤ s.historyCount) :
    Stays z (FinshShell.shellHandleHistory z i { s with currentHistory := k }) := by
  have hsize := z.cmdSize_pos
  have hline := hs.line
  have hk' : k < s.cmdHistory.length := by rwa [hs.rows]
  have hget : s.cmdHistory[k]? = some s.cmdHistory[k] := List.getElem?_eq_getElem hk'
  obtain ⟨hlen, hnul⟩ := hs.row _ (List.getElem_mem hk')
  generalize s.cmdHistory[k] = row at hget hlen hnul
  have hwrite : write s.line 0 row = some (row ++ s.line.drop z.cmdSize) := by
    rw [write, if_pos (by omega), List.take_zero, List.nil_append, Nat.zero_add, hlen]
  have hlen' : (row ++ s.line.drop z.cmdSize).length = z.cmdSize + 1 := by
    rw [List.length_append, List.length_drop]
    omega
  have hlast : (row ++ s.line.drop z.cmdSize)[z.cmdSize]? = some 0 := by
    rw [List.getElem?_append_right (by omega), hlen, Nat.sub_self, List.getElem?_drop, Nat.add_zero, hs.last]
  have hend : (row ++ s.line.drop z.cmdSize)[z.cmdSize - 1]? = some 0 := by
    rw [List.getElem?_append_left (by omega), hnul]
  obtain ⟨text, htext, hshort⟩ := exists_upTo hend (Nat.zero_le _)
  rw [FinshShell.shellHandleHistory]
  simp only [hget, hwrite, htext, Option.bind_eq_bind, Option.bind_some, FinshShell.kprintf]
  exact ⟨_, rfl,
    { line := hlen'
      last := hlast
      curpos := Nat.le_refl _
      position := by dsimp only; omega
      rows := hs.rows
      row := hs.row
      count := hs.count
      place := hcount }⟩

theorem upKey_stays (hs : Safe z s) : Stays z (s.upKey z i) := by
  have hcount := hs.count
  have hplace := hs.place
  unfold FinshShell.upKey
  split
  · exact shellHandleHistory_stays hs (by omega) (by omega)
  · exact ⟨s, rfl, hs⟩

theorem downKey_stays (hs : Safe z s) : Stays z (s.downKey z i) := by
  have hcount := hs.count
  unfold FinshShell.downKey
  split
  · exact shellHandleHistory_stays hs (by omega) (by omega)
  · split
    · exact shellHandleHistory_stays hs (by omega) (by omega)
    · exact ⟨s, rfl, hs⟩

/-- The row of a line ends with a null character, whatever stands behind the text. -/
theorem historyRow_stays (hs : Safe z s) : ∃ row, s.historyRow z = some row ∧ row.length = z.cmdSize ∧
    row[z.cmdSize - 1]? = some 0 := by
  have hpos := hs.position
  have hline := hs.line
  have hlen : (s.line.take s.linePosition).length = s.linePosition := List.length_take_of_le (by omega)
  refine ⟨_, if_pos (Nat.le_of_lt hpos), ?_, ?_⟩
  · rw [List.length_append, hlen, List.length_replicate]
    omega
  · rw [List.getElem?_append_right (by omega), List.getElem?_replicate, if_pos (by omega)]

theorem storeHistory_stays (hs : Safe z s) : ∃ s', s.storeHistory z = some s' ∧
    s'.cmdHistory.length = z.historyLines ∧
    (∀ row ∈ s'.cmdHistory, row.length = z.cmdSize ∧ row[z.cmdSize - 1]? = some 0) ∧
    s'.historyCount ≤ z.historyLines := by
  obtain ⟨row, hrow, hends⟩ := historyRow_stays hs
  have hcount := hs.count
  have hpos := z.historyLines_pos
  have hlt := z.historyLines_lt
  have hrows := hs.rows
  unfold FinshShell.storeHistory
  split
  · split
    · rw [hrow]
      refine ⟨_, rfl, ?_, ?_, Nat.le_refl _⟩
      · rw [List.length_append, List.length_tail, List.length_singleton]
        omega
      · intro r hr
        rcases List.mem_append.mp hr with hr | hr
        · exact hs.row r (List.mem_of_mem_tail hr)
        · rw [List.mem_singleton.mp hr]
          exact hends
    · exact ⟨s, rfl, hrows, hs.row, hcount⟩
  · rename_i hroom
    split
    · rw [hrow]
      refine ⟨_, rfl, by rw [List.length_set, hrows], ?_, ?_⟩
      · intro r hr
        rcases List.mem_or_eq_of_mem_set hr with hr | rfl
        · exact hs.row r hr
        · exact hends
      · dsimp only
        rw [Nat.mod_eq_of_lt (by omega)]
        omega
    · exact ⟨s, rfl, hrows, hs.row, hcount⟩

theorem enterKey_stays (hs : Safe z s) : Stays z (s.enterKey z i) := by
  have hpush : ∃ s', s.shellPushHistory z = some s' ∧ s'.cmdHistory.length = z.historyLines ∧
      (∀ row ∈ s'.cmdHistory, row.length = z.cmdSize ∧ row[z.cmdSize - 1]? = some 0) ∧
      s'.historyCount ≤ z.historyLines ∧ s'.currentHistory = s'.historyCount := by
    unfold FinshShell.shellPushHistory
    split
    · obtain ⟨s', hstore, hrows, hrow, hcount⟩ := storeHistory_stays hs
      rw [hstore]
      exact ⟨_, rfl, hrows, hrow, hcount, rfl⟩
    · exact ⟨_, rfl, hs.rows, hs.row, hs.count, rfl⟩
  obtain ⟨s', hpush, hrows, hrow, hcount, hplace⟩ := hpush
  rw [FinshShell.enterKey, hpush]
  simp only [Option.bind_eq_bind, Option.bind_some, FinshShell.kprintf]
  refine ⟨_, rfl, ?_⟩
  cases s'.echoMode <;> exact
    { line := List.length_replicate
      last := by simp
      curpos := Nat.le_refl _
      position := z.cmdSize_pos
      rows := hrows
      row := hrow
      count := hcount
      place := Nat.le_of_eq hplace }

/-! ## The tab -/

theorem mshAutoCompletePath_length {files : Files} {cells cells' : List UInt8} {k : Nat} {texts : List (List UInt8)}
    (hc : mshAutoCompletePath files cells k = some (cells', texts)) :
    cells'.length = cells.length ∧ ∀ n, n + 1 = cells.length → cells[n]? = some 0 → cells'[n]? = some 0 := by
  have hsame : cells' = cells → cells'.length = cells.length ∧ ∀ n, n + 1 = cells.length → cells[n]? = some 0 →
      cells'[n]? = some 0 := by
    rintro rfl
    exact ⟨rfl, fun _ _ h => h⟩
  simp only [mshAutoCompletePath, Option.bind_eq_bind, Option.bind_eq_some_iff] at hc
  obtain ⟨text, -, full, -, hc⟩ := hc
  obtain ⟨-, hc⟩ := Option.ite_none_left_eq_some.mp hc
  split at hc
  · exact hsame (Prod.mk.inj (Option.some.inj hc)).1.symm
  · split at hc
    · exact hsame (Prod.mk.inj (Option.some.inj hc)).1.symm
    · split at hc
      · rename_i m saved hfold
        obtain ⟨-, hc⟩ := Option.ite_none_left_eq_some.mp hc
        split at hc
        · exact hsame (Prod.mk.inj (Option.some.inj hc)).1.symm
        · simp only [Option.bind_eq_some_iff] at hc
          obtain ⟨cells₁, hwrite, cells₂, hstore, hc⟩ := hc
          obtain ⟨rfl, -⟩ := Prod.mk.inj (Option.some.inj hc)
          have hlen := length_write hwrite
          refine ⟨by rw [length_store hstore, hlen], fun n hn hlast => ?_⟩
          obtain ⟨hlt, hset⟩ := Option.ite_none_right_eq_some.mp hstore
          obtain rfl := Option.some.inj hset
          rw [List.getElem?_set]
          split
          · rfl
          · rw [getElem?_write hwrite, hlast]
            rw [List.length_take]
            omega
      · exact hsame (Prod.mk.inj (Option.some.inj hc)).1.symm

theorem saved_mem {p f : List UInt8} {names : List (List UInt8)} {acc : Nat × Option (List UInt8)}
    (hf : (names.foldl (candidate p) acc).2 = some f) : f ∈ names ∨ acc.2 = some f := by
  induction names generalizing acc with
  | nil => exact .inr hf
  | cons n names ih =>
    rcases ih hf with hmem | hacc
    · exact .inl (List.mem_cons_of_mem _ hmem)
    · unfold candidate at hacc
      split at hacc
      · dsimp only at hacc
        split at hacc
        · obtain rfl := Option.some.inj hacc
          exact .inl List.mem_cons_self
        · exact .inr hacc
      · exact .inr hacc

/-- Over the whole line, a name leaves no null character, or one at the end. -/
theorem strncpy_last {cells cells' name text : List UInt8} {m n : Nat} (hname : 0 ∉ name) (hn : n + 1 = cells.length)
    (hlast : cells[n]? = some 0) (hwrite : write cells 0 (strncpy name m) = some cells')
    (hshort : upTo 0 cells' 0 = some text) :
    cells'[n]? = some 0 := by
  have hlen : (strncpy name m).length = m := by
    rw [strncpy, List.length_append, List.length_take, List.length_replicate]
    omega
  have hlen' := length_write hwrite
  obtain ⟨hle, hcells⟩ := Option.ite_none_right_eq_some.mp hwrite
  rw [hlen] at hle hcells
  by_cases hm : m ≤ n
  · rw [getElem?_write hwrite (by rw [hlen]; omega), hlast]
  · have hall : cells' = strncpy name m := by
      rw [← Option.some.inj hcells, List.take_zero, List.nil_append, List.drop_of_length_le (by omega), List.append_nil]
    obtain ⟨hnul, -⟩ := Option.ite_none_right_eq_some.mp hshort
    rw [List.drop_zero, hall, strncpy] at hnul
    have hpad : m - name.length ≠ 0 := by
      intro h0
      rw [h0, List.replicate_zero, List.append_nil] at hnul
      exact hname (List.mem_of_mem_take hnul)
    rw [hall, strncpy, List.getElem?_append_right (by rw [List.length_take]; omega), List.getElem?_replicate,
      if_pos (by rw [List.length_take]; omega)]

/-- A completion that leaves a string in the line leaves the null character behind it. -/
theorem mshAutoComplete_last {files : Files} {cells cells' text : List UInt8} {texts : List (List UInt8)} {n : Nat}
    (htable : TableOk table) (hc : mshAutoComplete table files cells = some (cells', texts)) (hn : n + 1 = cells.length)
    (hlast : cells[n]? = some 0) (hshort : upTo 0 cells' 0 = some text) :
    cells'.length = cells.length ∧ cells'[n]? = some 0 := by
  simp only [mshAutoComplete, Option.bind_eq_bind, Option.bind_eq_some_iff] at hc
  obtain ⟨t, -, hc⟩ := hc
  split at hc
  · obtain ⟨rfl, -⟩ := Prod.mk.inj (Option.some.inj hc)
    exact ⟨rfl, hlast⟩
  · simp only [Option.bind_eq_some_iff] at hc
    obtain ⟨⟨cells₁, shown⟩, hfile, ⟨cells₂, texts₂⟩, hcommand, hc⟩ := hc
    obtain ⟨rfl, -⟩ := Prod.mk.inj (Option.some.inj hc)
    have hfirst : cells₁.length = cells.length ∧ cells₁[n]? = some 0 := by
      unfold completeArgument at hfile
      split at hfile
      · obtain ⟨hlen, hkeep⟩ := mshAutoCompletePath_length hfile
        exact ⟨hlen, hkeep n hn hlast⟩
      · obtain ⟨rfl, -⟩ := Prod.mk.inj (Option.some.inj hfile)
        exact ⟨rfl, hlast⟩
    simp only [completeCommand, Option.bind_eq_bind, Option.bind_eq_some_iff] at hcommand
    obtain ⟨pre, -, hcommand⟩ := hcommand
    split at hcommand
    · rename_i m name hfold
      obtain ⟨cells₃, hwrite, heq⟩ := Option.map_eq_some_iff.mp hcommand
      obtain ⟨rfl, -⟩ := Prod.mk.inj heq
      have hmem : name ∈ (mshCommands table).map Prod.fst :=
        (saved_mem (by rw [hfold])).resolve_right (by simp)
      exact ⟨by rw [length_write hwrite, hfirst.1],
        strncpy_last (mshCommands_noNul htable hmem) (by rw [hfirst.1, hn]) hfirst.2 hwrite hshort⟩
    · obtain ⟨rfl, -⟩ := Prod.mk.inj (Option.some.inj hcommand)
      exact hfirst

theorem tabKey_eq {s' : FinshShell} (hs' : s.tabKey z table i = some s') : ∃ line texts text out,
    mshAutoComplete table i.files s.line = some (line, texts) ∧ upTo 0 line 0 = some text ∧
    s' = { s with line := line, lineCurpos := text.length, linePosition := text.length, console := out } := by
  simp only [FinshShell.tabKey, FinshShell.backspaces_eq, FinshShell.kprintfs_eq, FinshShell.kprintf,
    Option.bind_eq_bind, Option.bind_eq_some_iff] at hs'
  obtain ⟨⟨line, texts⟩, hcomplete, text, htext, heq⟩ := hs'
  exact ⟨line, texts, text, _, hcomplete, htext, (Option.some.inj heq).symm⟩

/-- A tab leaves a safe state exactly if it leaves a string that is short enough. -/
theorem tabKey_safe_iff {s' : FinshShell} (hs : Safe z s) (htable : TableOk table)
    (hs' : s.tabKey z table i = some s') :
    Safe z s' ↔ ∃ line texts text, mshAutoComplete table i.files s.line = some (line, texts) ∧
      upTo 0 line 0 = some text ∧ text.length < z.cmdSize := by
  obtain ⟨line, texts, text, out, hcomplete, htext, rfl⟩ := tabKey_eq hs'
  constructor
  · intro h
    exact ⟨line, texts, text, hcomplete, htext, h.position⟩
  · rintro ⟨line₁, texts₁, text₁, hcomplete₁, htext₁, hlt⟩
    obtain ⟨rfl, -⟩ := Prod.mk.inj (Option.some.inj (hcomplete₁.symm.trans hcomplete))
    obtain rfl := Option.some.inj (htext₁.symm.trans htext)
    obtain ⟨hlen, hlast⟩ := mshAutoComplete_last htable hcomplete hs.line.symm hs.last htext
    exact hs.change (by rw [hlen, hs.line]) hlast (Nat.le_refl _) hlt rfl rfl rfl

theorem tabKey_stays (hs : Safe z s) (htable : TableOk table) {line text : List UInt8} {texts : List (List UInt8)}
    (hcomplete : mshAutoComplete table i.files s.line = some (line, texts)) (htext : upTo 0 line 0 = some text)
    (hlt : text.length < z.cmdSize) : Stays z (s.tabKey z table i) := by
  have hsome : ∃ s', s.tabKey z table i = some s' := by
    simp only [FinshShell.tabKey, FinshShell.backspaces_eq, FinshShell.kprintfs_eq, FinshShell.kprintf, hcomplete,
      htext, Option.bind_eq_bind, Option.bind_some]
    exact ⟨_, rfl⟩
  obtain ⟨s', hs'⟩ := hsome
  exact ⟨s', hs', (tabKey_safe_iff hs htable hs').mpr ⟨line, texts, text, hcomplete, htext, hlt⟩⟩

/-! ## Runs -/

theorem plainKey_stays (hs : Safe z s) (hk : plainKeyOf i.ch ≠ some .tab) : Stays z (s.plainKey z table i) := by
  unfold FinshShell.plainKey
  unfold plainKeyOf at hk
  split
  · exact ⟨s, rfl, hs⟩
  · rename_i h1
    rw [if_neg h1] at hk
    split
    · rename_i h2
      exact absurd (if_pos h2) hk
    · split
      · exact backspaceKey_stays hs
      · split
        · exact enterKey_stays hs
        · exact normalKey_stays hs

theorem turn_stays (table : List FinshSyscall) (hs : Safe z s) (hk : (decodeKey s.stat i.ch).2 ≠ some .tab) :
    Stays z (s.turn z table i) := by
  unfold FinshShell.turn
  split
  · exact ⟨_, rfl, hs.setStat _⟩
  · rename_i hesc
    have hs' := hs.setStat .waitNormal
    cases hstat : s.stat with
    | waitNormal =>
      rw [hstat, decodeKey_normal hesc] at hk
      exact plainKey_stays hs hk
    | waitSpecKey =>
      rw [hstat, decodeKey_spec hesc] at hk
      dsimp only
      split
      · exact ⟨_, rfl, hs.setStat _⟩
      · rename_i hb
        rw [if_neg hb] at hk
        exact plainKey_stays hs' hk
    | waitFuncKey =>
      rw [hstat, decodeKey_func hesc] at hk
      dsimp only
      split
      · exact upKey_stays hs'
      · rename_i hu
        rw [if_neg hu] at hk
        split
        · exact downKey_stays hs'
        · rename_i hd
          rw [if_neg hd] at hk
          split
          · exact ⟨_, rfl, leftKey_stays hs'⟩
          · rename_i hl
            rw [if_neg hl] at hk
            split
            · exact rightKey_stays hs'
            · rename_i hr
              rw [if_neg hr] at hk
              exact plainKey_stays hs' hk

theorem turn_tab (hk : (decodeKey s.stat i.ch).2 = some .tab) :
    s.turn z table i = FinshShell.tabKey z table i { s with stat := .waitNormal } := by
  obtain ⟨hesc, htab⟩ := decodeKey_plain hk (by simp)
  have hch : i.ch = 0x09 := by
    unfold plainKeyOf at htab
    split_ifs at htab with h1 h2 h3 h4
    · exact h2
    · exact absurd (Option.some.inj htab) (by simp)
    · exact absurd (Option.some.inj htab) (by simp)
    · exact absurd (Option.some.inj htab) (by simp)
  have hne {b : UInt8} (hb : (0x09 : UInt8) ≠ b) : i.ch ≠ b := by rwa [hch]
  have hplain (s : FinshShell) : s.plainKey z table i = s.tabKey z table i := by
    rw [FinshShell.plainKey, if_neg (not_or.mpr ⟨hne (by decide), hne (by decide)⟩), if_pos hch]
  rw [FinshShell.turn, if_neg hesc]
  cases hstat : s.stat with
  | waitNormal =>
    have hsame : { s with stat := .waitNormal } = s := by rw [← hstat]
    rw [hsame]
    exact hplain s
  | waitSpecKey =>
    dsimp only
    rw [if_neg (hne (by decide))]
    exact hplain _
  | waitFuncKey =>
    dsimp only
    rw [if_neg (hne (by decide)), if_neg (hne (by decide)), if_neg (hne (by decide)), if_neg (hne (by decide))]
    exact hplain _

theorem start_safe (z : Sizes) (echoMode : Bool) (prompt : List UInt8) :
    Safe z (FinshShell.start z echoMode prompt) where
  line := List.length_replicate
  last := by simp [FinshShell.start, FinshShell.kprintf]
  curpos := Nat.le_refl _
  position := z.cmdSize_pos
  rows := List.length_replicate
  row := by
    intro row hrow
    have hsize := z.cmdSize_pos
    rw [List.eq_of_mem_replicate hrow]
    refine ⟨List.length_replicate, ?_⟩
    rw [List.getElem?_replicate, if_pos (by omega)]
  count := Nat.zero_le _
  place := Nat.le_refl _

/-- All states of a run are safe exactly if each tab left a string that is shorter than `FINSH_CMD_SIZE`; and a safe
state takes every byte but such a tab, lines of `FINSH_CMD_SIZE` characters included. -/
theorem safe_run (htable : TableOk table) (hrun : (shell z table echoMode prompt).Run h s) :
    ((Throughout (fun _ s _ => Safe z s) h ∧ Safe z s) ↔ Throughout (fun _ s i => TabShort z table s i) h) ∧
      (Safe z s → ∀ i, TabShort z table s i → ∃ s', (shell z table echoMode prompt).step s i = some s') := by
  constructor
  · refine hrun.throughout_iff (G := TabShort z table) ?_ ?_
    · rintro s rfl
      exact start_safe z echoMode prompt
    · intro h s i s' _ hs hstep
      by_cases hk : (decodeKey s.stat i.ch).2 = some .tab
      · have htab : FinshShell.tabKey z table i { s with stat := .waitNormal } = some s' :=
          (turn_tab hk).symm.trans hstep
        rw [tabKey_safe_iff (hs.setStat _) htable htab]
        exact ⟨fun h _ => h, fun h => h hk⟩
      · obtain ⟨t, hturn, ht⟩ := turn_stays table hs hk
        obtain rfl : t = s' := Option.some.inj (hturn.symm.trans hstep)
        exact ⟨fun _ h => absurd h hk, fun _ => ht⟩
  · intro hs i hi
    by_cases hk : (decodeKey s.stat i.ch).2 = some .tab
    · obtain ⟨line, texts, text, hcomplete, htext, hlt⟩ := hi hk
      obtain ⟨s', hs', -⟩ := tabKey_stays (z := z) (hs.setStat .waitNormal) htable hcomplete htext hlt
      exact ⟨s', (turn_tab hk).trans hs'⟩
    · obtain ⟨s', hturn, -⟩ := turn_stays table hs hk
      exact ⟨s', hturn⟩

/-- Eighty characters, which are given up, and one more. -/
theorem safe_run_typed : ∃ h s, (shell boardSizes someCommands true rootPrompt).Run h s ∧ h.length = 81 ∧
    Throughout (fun _ s _ => Safe boardSizes s) h ∧ Safe boardSizes s := by
  obtain ⟨h, s, hrun, htabs, hlen⟩ := System.exists_run (S := shell boardSizes someCommands true rootPrompt) rfl
    ((List.replicate 81 (ch 'a')).map typed)
    (fun h _ => Throughout (fun _ s i => (decodeKey s.stat i.ch).2 ≠ some .tab) h ∧ h.length = 81) (by decide +kernel)
  have hshort : Throughout (fun _ s i => TabShort boardSizes someCommands s i) h :=
    htabs.mono fun _ _ _ hne htab => absurd htab hne
  exact ⟨h, s, hrun, hlen, (safe_run someCommands_ok hrun).1.mpr hshort⟩

def tinySizes : Sizes := { boardSizes with cmdSize := 3, cmdSize_pos := by decide, cmdSize_lt := by decide }

/-- A line of as many characters as the buffer has cells for: a tab counts them again, the next character stands alone,
and the second backspace moves 65535 characters. -/
example : ((shell tinySizes [] true []).exec
    (([ch 'a', ch 'b', ch 'c', 0x09, ch 'd', 0x08, 0x08] : List UInt8).map typed) []
    (FinshShell.start tinySizes true [])).isNone = true := by
  decide +kernel

end ThyristorController.Shell
