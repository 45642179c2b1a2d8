import ThyristorController.Finsh.ShellRun
import ThyristorController.Lib.Terminal

/-!
# What the console shows of the line (`components/finsh/shell.c`)

With the echo on, the shell keeps the row of a terminal as the line is: `screen_run` says that behind every run whose
lines fit, the text of the line stands in the row, with blanks behind it and the cursor of the terminal at that of the
line. What is typed, the names, the prompts and the output of the commands are printable.
-/

namespace ThyristorController.Shell

open LineEdit Transition Terminal
open Kservice (ch)

variable {z : Sizes} {table : List FinshSyscall} {i : Input} {s : FinshShell} {e : Editor}
  {h : History FinshShell Input} {echoMode : Bool} {prompt : List UInt8}

/-! ## What is printable -/

/-- Nothing in the table of commands disturbs the row. -/
def TableVisible (table : List FinshSyscall) : Prop :=
  ∀ row ∈ table, (∀ c ∈ row.name, Printable c) ∧ ∀ c ∈ row.desc, Printable c

/-- The names that a line is completed by are printable. -/
def FilesVisible (files : Files) : Prop :=
  ∀ d names, files.dir d = some names → ∀ n ∈ names, ∀ c ∈ n, Printable c

/-- The byte is a character, or one that the shell does not take for a character. -/
def Typable (c : UInt8) : Prop := Printable c ∨ c ∈ [0, 0xff, 0x1b, 0x09, 0x7f, 0x08, 0x0d, 0x0a]

instance (c : UInt8) : Decidable (Typable c) := inferInstanceAs (Decidable (_ ∨ _))

/-- What is typed and printed is visible, and the console has place for the prompt with a line. -/
structure Visible (z : Sizes) (i : Input) : Prop where
  typed : Typable i.ch
  prompt : ∀ c ∈ i.prompt, Printable c
  room : i.prompt.length + z.cmdSize < z.consoleBufSize
  printed : Plain i.printed
  files : FilesVisible i.files

theorem plainKeyOf_char {c c' : UInt8} (hk : plainKeyOf c = some (.char c')) :
    c' = c ∧ c ∉ ([0, 0xff, 0x09, 0x7f, 0x08, 0x0d, 0x0a] : List UInt8) := by
  unfold plainKeyOf at hk
  split_ifs at hk with h1 h2 h3 h4
  · exact absurd (Option.some.inj hk) (by simp)
  · exact absurd (Option.some.inj hk) (by simp)
  · exact absurd (Option.some.inj hk) (by simp)
  · obtain rfl := Key.char.inj (Option.some.inj hk)
    refine ⟨rfl, ?_⟩
    simp only [List.mem_cons, List.not_mem_nil, or_false]
    tauto

theorem Typable.printable {stat : InputStat} {c c' : UInt8} (hc : Typable c)
    (hk : (decodeKey stat c).2 = some (.char c')) : Printable c' := by
  obtain ⟨hesc, hplain⟩ := decodeKey_plain hk (by simp)
  obtain ⟨rfl, hnot⟩ := plainKeyOf_char hplain
  refine hc.resolve_right fun hmem => ?_
  simp only [List.mem_cons, List.not_mem_nil, or_false] at hmem hnot
  tauto

/-- The text and the history are printable. -/
def EditorVisible (e : Editor) : Prop := (∀ c ∈ e.line.text, Printable c) ∧ ∀ t ∈ e.lines, ∀ c ∈ t, Printable c

theorem shown_eq {text : List UInt8} (hlt : text.length + 1 < z.consoleBufSize) : shown z text = text := if_pos hlt

theorem plain_shown {text : List UInt8} (ht : Plain text) : Plain (shown z text) := by
  unfold shown
  split
  · exact ht
  · intro c hc
    rcases List.mem_append.mp hc with hc | hc
    · exact ht c (List.mem_of_mem_take hc)
    · rw [List.mem_singleton] at hc
      exact .inr (.inr hc)

theorem plain_of_printable {l : List UInt8} (hl : ∀ c ∈ l, Printable c) : Plain l := fun c hc => .inl (hl c hc)

theorem plain_listed {n : List UInt8} (hn : ∀ c ∈ n, Printable c) : Plain (listed n) :=
  (plain_of_printable hn).append (by decide)

theorem mem_mshCommands {c : List UInt8 × List UInt8} (hc : c ∈ mshCommands table) :
    ∃ row ∈ table, c.1 = row.name.drop 6 ∧ c.2 = row.desc := by
  obtain ⟨row, hrow, hname⟩ := List.mem_filterMap.mp hc
  obtain ⟨-, hname⟩ := Option.ite_none_right_eq_some.mp hname
  obtain rfl := Option.some.inj hname
  exact ⟨row, hrow, rfl, rfl⟩

theorem plain_lists {texts : List (List UInt8)} (htable : TableVisible table)
    (hfiles : FilesVisible i.files) (hl : Lists table i.files texts) : ∀ text ∈ texts, Plain text := by
  intro text htext
  have hcommand {c : List UInt8 × List UInt8} (hc : c ∈ mshCommands table) :
      (∀ x ∈ c.1, Printable x) ∧ ∀ x ∈ c.2, Printable x := by
    obtain ⟨row, hrow, h1, h2⟩ := mem_mshCommands hc
    rw [h1, h2]
    exact ⟨fun x hx => (htable row hrow).1 x (List.mem_of_mem_drop hx), (htable row hrow).2⟩
  rcases hl with rfl | hl
  · rcases List.mem_append.mp htext with htext | htext
    · rcases List.mem_append.mp htext with htext | htext
      · rw [List.mem_singleton] at htext
        subst htext
        decide +kernel
      · obtain ⟨c, hc, rfl⟩ := List.mem_map.mp htext
        obtain ⟨h1, h2⟩ := hcommand hc
        have hpad : Plain (List.replicate (16 - c.1.length) (ch ' ')) := by
          intro x hx
          rw [List.eq_of_mem_replicate hx]
          decide
        exact ((((plain_of_printable h1).append hpad).append (by decide)).append (plain_of_printable h2)).append
          (by decide)
    · rw [List.mem_singleton] at htext
      subst htext
      decide
  · rcases hl text htext with ⟨d, names, hd, n, hn, rfl⟩ | ⟨c, hc, rfl⟩
    · exact plain_listed (hfiles d names hd n hn)
    · exact plain_listed (hcommand hc).1

theorem mem_completePath {files : Files} {p : List UInt8} {c : UInt8} (hc : c ∈ completePath files p) :
    c ∈ p ∨ ∃ d names, files.dir d = some names ∧ ∃ n ∈ names, c ∈ n := by
  unfold completePath at hc
  dsimp only at hc
  split at hc
  · exact .inl hc
  · rename_i names hdir
    split at hc
    · exact .inl hc
    · rcases List.mem_append.mp hc with hc | hc
      · exact .inl (List.mem_of_mem_take hc)
      · rcases Completion.mem_complete hc with hc | ⟨n, hn, hc⟩
        · exact .inl (List.mem_of_mem_drop hc)
        · obtain ⟨full, -, hd⟩ := Option.bind_eq_some_iff.mp hdir
          exact .inr ⟨_, names, hd, n, hn, hc⟩

theorem completeLine_visible {files : Files} {t : List UInt8} (htable : TableVisible table)
    (hfiles : FilesVisible files)
    (ht : ∀ c ∈ t, Printable c) : ∀ c ∈ completeLine table files t, Printable c := by
  have hfile : ∀ c ∈ completeFile files t, Printable c := by
    intro c hc
    unfold completeFile at hc
    dsimp only at hc
    split at hc
    · rcases List.mem_append.mp hc with hc | hc
      · exact ht c (List.mem_of_mem_take hc)
      · rcases mem_completePath hc with hc | ⟨d, names, hd, n, hn, hc⟩
        · exact ht c (List.mem_of_mem_drop hc)
        · exact hfiles d names hd n hn c hc
    · exact ht c hc
  intro c hc
  unfold completeLine at hc
  split at hc
  · exact absurd hc List.not_mem_nil
  · rcases Completion.mem_complete hc with hc | ⟨n, hn, hc⟩
    · exact hfile c hc
    · obtain ⟨m, hm, rfl⟩ := List.mem_map.mp hn
      obtain ⟨row, hrow, h1, -⟩ := mem_mshCommands hm
      rw [h1] at hc
      exact (htable row hrow).1 c (List.mem_of_mem_drop hc)

theorem EditorVisible.press (he : EditorVisible e) (htable : TableVisible table) (hfiles : FilesVisible i.files)
    {k : Key}
    (hk : ∀ c, k = .char c → Printable c) : EditorVisible (e.press z table i.files k) := by
  have hfetch (n : Nat) : EditorVisible (e.fetch n) := by
    refine ⟨?_, he.2⟩
    intro c hc
    rw [Editor.fetch, Line.text_ofText, List.getD_eq_getElem?_getD] at hc
    cases hn : e.lines[n]? with
    | none => rw [hn] at hc; exact absurd hc List.not_mem_nil
    | some t => rw [hn] at hc; exact he.2 t (List.mem_of_getElem? hn) c hc
  cases k with
  | char c =>
    refine ⟨fun x hx => ?_, he.2⟩
    rcases Line.mem_type.mp hx with rfl | hx
    · exact hk _ rfl
    · exact he.1 x hx
  | tab =>
    refine ⟨fun x hx => ?_, he.2⟩
    rw [Editor.press, Line.text_ofText] at hx
    exact completeLine_visible htable hfiles he.1 x hx
  | backspace => exact ⟨fun x hx => he.1 x (Line.mem_of_mem_rubOut hx), he.2⟩
  | left =>
    refine ⟨fun x hx => he.1 x ?_, he.2⟩
    rwa [Editor.press, Line.text_left] at hx
  | right =>
    refine ⟨fun x hx => he.1 x ?_, he.2⟩
    rwa [Editor.press, Line.text_right] at hx
  | up =>
    unfold Editor.press
    dsimp only
    split
    · exact hfetch _
    · exact he
  | down =>
    unfold Editor.press
    dsimp only
    split
    · exact he
    · exact hfetch _
  | enter =>
    refine ⟨fun x hx => absurd hx List.not_mem_nil, fun t ht => ?_⟩
    change t ∈ e.pushed z at ht
    unfold Editor.pushed remember at ht
    split at ht
    · exact he.2 t ht
    · split at ht
      · exact he.2 t ht
      · rcases List.mem_append.mp (List.mem_of_mem_drop ht) with ht | ht
        · exact he.2 t ht
        · rw [List.mem_singleton.mp ht]
          exact he.1

/-! ## The row behind an echo -/

section echo

variable {t : Screen} {base cursor n : Nat} {before after text : List UInt8} {c : UInt8}

theorem flatten_replicate_backspace (hb : 2 < z.consoleBufSize) (n : Nat) :
    (List.replicate n (shown z [0x08])).flatten = List.replicate n backspace := by
  rw [shown_eq (by simpa using hb)]
  induction n with
  | zero => rfl
  | succ n ih =>
    rw [List.replicate_succ, List.flatten_cons, ih]
    rfl

theorem printable_blank : Printable (ch ' ') := by decide

/-- A character in front of others: they are printed again, and the cursor goes back. -/
theorem shows_type (ht : Shows t base (before ++ after) before.length)
    (hc : Printable c) (hafter : ∀ x ∈ after, Printable x) :
    Shows (t.feed (c :: after ++ List.replicate after.length backspace)) base (before ++ [c] ++ after)
      (before ++ [c]).length := by
  have hprint := ht.print (l := c :: after) (by simp) (List.forall_mem_cons.mpr ⟨hc, hafter⟩)
  have hdrop : (before ++ after).drop (before.length + (c :: after).length) = [] :=
    List.drop_of_length_le (by simp)
  rw [List.take_left, hdrop, List.append_nil, List.append_cons] at hprint
  have hback := hprint.back (k := after.length) (by simp; omega)
  rw [feed_append]
  have hcur : before.length + (c :: after).length - after.length = (before ++ [c]).length := by
    simp only [List.length_cons, List.length_append, List.length_nil]
    omega
  rwa [hcur] at hback

theorem shows_rubOut_end (ht : Shows t base (before ++ [c]) (before ++ [c]).length) :
    Shows (t.feed [0x08, ch ' ', 0x08]) base before before.length := by
  have hback := ht.back (k := 1) (by simp)
  have hcur : (before ++ [c]).length - 1 = before.length := by simp
  rw [hcur] at hback
  have hprint := hback.print (l := [ch ' ']) (by simp) (List.forall_mem_singleton.mpr printable_blank)
  have hdrop : (before ++ [c]).drop (before.length + 1) = [] := List.drop_of_length_le (by simp)
  rw [List.take_left, List.length_singleton, hdrop, List.append_nil] at hprint
  exact (hprint.back (k := 1) (by simp)).trim (k := 1)

theorem shows_rubOut (ht : Shows t base (before ++ [c] ++ after) (before ++ [c]).length)
    (hafter : ∀ x ∈ after, Printable x) :
    Shows (t.feed ([0x08] ++ after ++ [ch ' ', ch ' ', 0x08] ++ List.replicate (after.length + 1) backspace)) base
      (before ++ after) before.length := by
  have hback := ht.back (k := 1) (by simp)
  have hcur : (before ++ [c]).length - 1 = before.length := by simp
  rw [hcur, List.append_assoc] at hback
  have hprint := hback.print (l := after ++ [ch ' ', ch ' ']) (by simp) (by
    intro x hx
    rcases List.mem_append.mp hx with hx | hx
    · exact hafter x hx
    · rw [List.eq_of_mem_replicate (n := 2) hx]
      exact printable_blank)
  have hdrop : (before ++ ([c] ++ after)).drop (before.length + (after ++ [ch ' ', ch ' ']).length) = [] :=
    List.drop_of_length_le (by simp)
  rw [List.take_left, hdrop, List.append_nil, ← List.append_assoc] at hprint
  have htrim := (hprint.back (k := after.length + 2) (by simp)).trim (k := 2)
  have hend : before.length + (after ++ [ch ' ', ch ' ']).length - (after.length + 2) = before.length := by simp
  rw [hend] at htrim
  have hout : [0x08] ++ after ++ [ch ' ', ch ' ', 0x08] ++ List.replicate (after.length + 1) backspace =
      List.replicate 1 backspace ++ (after ++ [ch ' ', ch ' ']) ++ List.replicate (after.length + 2) backspace := by
    rw [List.replicate_succ (n := after.length + 1)]
    simp [backspace]
  rw [hout, feed_append, feed_append]
  exact htrim

/-- A prompt and a line behind it, in a row that is blank from the cursor on. -/
theorem shows_prompt {p : List UInt8} (ht : Shows t base [] 0) (hp : ∀ c ∈ p, Printable c)
    (htext : ∀ c ∈ text, Printable c) : ∃ base', Shows (t.feed (p ++ text)) base' text text.length := by
  have hprompt := (ht.append (l := p) hp).rebase
  have hline := hprompt.append (l := text) htext
  rw [feed_append]
  exact ⟨_, hline⟩

theorem shows_listing {texts : List (List UInt8)} (ht : Shows t base [] 0) (htexts : ∀ text ∈ texts, Plain text) :
    ∃ base', Shows (t.feed (texts.map (shown z)).flatten) base' [] 0 := by
  refine ht.plain fun c hc => ?_
  obtain ⟨l, hl, hmem⟩ := List.mem_flatten.mp hc
  obtain ⟨text, htext, rfl⟩ := List.mem_map.mp hl
  exact plain_shown (htexts text htext) c hmem

end echo

/-- The row of the console shows the line that is edited. -/
def ShowsLine (t : Screen) (console : List UInt8) (e : Editor) : Prop :=
  ∃ base, Shows (t.feed console) base e.line.text e.line.before.length

theorem ShowsLine.feed {t : Screen} {console out : List UInt8} {b : Nat}
    (hshow : Shows ((t.feed console).feed out) b e.line.text e.line.before.length) : ShowsLine t (console ++ out) e :=
  ⟨b, by rwa [feed_append]⟩

section keys

variable {t : Screen} {console out : List UInt8} {k : Nat}

theorem shown_prompt {u : List UInt8} (hvis : Visible z i) (hu : u.length < z.cmdSize) :
    shown z (i.prompt ++ u) = i.prompt ++ u := by
  have hroom := hvis.room
  exact shown_eq (by rw [List.length_append]; omega)

theorem char_shows {c : UInt8} (hshow : ShowsLine t console e) (he : EditorVisible e)
    (hsize : z.cmdSize + 5 < z.consoleBufSize) (hc : Printable c) (hfits : e.line.text.length + 1 < z.cmdSize)
    (hecho : Echo z table true i e (.char c) out) :
    ShowsLine t (console ++ out) (e.press z table i.files (.char c)) := by
  obtain ⟨base, hshow⟩ := hshow
  have hlen := e.line.length_text
  have hafter : ∀ x ∈ e.line.after, Printable x := fun x hx => he.1 x (List.mem_append_right _ hx)
  obtain rfl : out = c :: e.line.after ++ List.replicate e.line.after.length backspace := by
    rw [show out = _ from hecho, if_pos rfl, flatten_replicate_backspace (by omega), shown_eq]
    rw [List.length_cons]
    omega
  exact .feed (shows_type hshow hc hafter)

theorem tab_shows (hshow : ShowsLine t console e) (he : EditorVisible e) (htable : TableVisible table)
    (hsize : z.cmdSize + 5 < z.consoleBufSize) (hvis : Visible z i) (hfits : KeyFits z table i.files e.line.text .tab)
    (hecho : Echo z table true i e .tab out) : ShowsLine t (console ++ out) (e.press z table i.files .tab) := by
  obtain ⟨base, hshow⟩ := hshow
  obtain ⟨texts, hlists, rfl⟩ := hecho
  have hback := hshow.back (Nat.le_refl _)
  obtain ⟨base₁, hlisted⟩ := shows_listing (z := z) hback.newLine (plain_lists htable hvis.files hlists)
  obtain ⟨base₂, hshown⟩ := shows_prompt hlisted hvis.prompt (completeLine_visible htable hvis.files he.1)
  refine .feed (b := base₂) ?_
  rw [flatten_replicate_backspace (by omega), shown_prompt hvis hfits.2,
    shown_eq (by rw [List.length_singleton]; omega), Editor.press, Line.text_ofText]
  simp only [feed_append] at hshown ⊢
  exact hshown

theorem backspace_shows (hshow : ShowsLine t console e) (href : Refines z s e) (he : EditorVisible e)
    (hsize : z.cmdSize + 5 < z.consoleBufSize) (hecho : Echo z table true i e .backspace out) :
    ShowsLine t (console ++ out) (e.press z table i.files .backspace) := by
  obtain ⟨base, hshow⟩ := hshow
  have hlen := e.line.length_text
  have hshort := href.short
  have hafter : ∀ x ∈ e.line.after, Printable x := fun x hx => he.1 x (List.mem_append_right _ hx)
  rcases List.eq_nil_or_concat' e.line.before with hnil | ⟨before, x, hbefore⟩
  · obtain rfl : out = [] := by rw [show out = _ from hecho, if_pos hnil]
    have hrub : e.line.rubOut = e.line := by
      rw [Line.rubOut, hnil]
      exact congrArg (fun b => Line.mk b e.line.after) hnil.symm
    rw [Editor.press, hrub]
    exact .feed hshow
  · have hrub : e.line.rubOut = ⟨before, e.line.after⟩ := by rw [Line.rubOut, hbefore, List.dropLast_concat]
    have hne : e.line.before ≠ [] := by simp [hbefore]
    rw [Editor.press, hrub]
    rw [Line.text, hbefore] at hshow
    by_cases hnil : e.line.after = []
    · obtain rfl : out = [0x08, ch ' ', 0x08] := by
        rw [show out = _ from hecho, if_neg hne, if_pos hnil, shown_eq]
        simpa using (show 4 < z.consoleBufSize by omega)
      rw [hnil, List.append_nil] at hshow
      refine .feed (b := base) ?_
      rw [Line.text, hnil, List.append_nil]
      exact shows_rubOut_end hshow
    · obtain rfl : out = [0x08] ++ e.line.after ++ [ch ' ', ch ' ', 0x08] ++
          List.replicate (e.line.after.length + 1) backspace := by
        rw [show out = _ from hecho, if_neg hne, if_neg hnil, flatten_replicate_backspace (by omega), shown_eq]
        simp only [List.length_append, List.length_cons, List.length_nil]
        omega
      exact .feed (shows_rubOut hshow hafter)

theorem enter_shows (hshow : ShowsLine t console e) (hsize : z.cmdSize + 5 < z.consoleBufSize) (hvis : Visible z i)
    (hecho : Echo z table true i e .enter out) : ShowsLine t (console ++ out) (e.press z table i.files .enter) := by
  obtain ⟨base, hshow⟩ := hshow
  have hroom := hvis.room
  have hpos := z.cmdSize_pos
  obtain rfl : out = [0x0a] ++ i.printed ++ i.prompt := by
    rw [show out = _ from hecho, if_pos rfl, shown_eq (by rw [List.length_singleton]; omega), shown_eq (by omega)]
  obtain ⟨base₁, hprinted⟩ := hshow.newLine.plain hvis.printed
  refine .feed (b := base₁ + i.prompt.length) ?_
  rw [feed_append, feed_append]
  exact (hprinted.append (l := i.prompt) hvis.prompt).rebase

theorem fetch_shows (hshow : ShowsLine t console e) (href : Refines z s e) (he : EditorVisible e)
    (hsize : z.cmdSize + 5 < z.consoleBufSize) (hvis : Visible z i) (hk : k < e.lines.length)
    (hout : out = shown z [0x1b, ch '[', ch '2', ch 'K', 0x0d] ++ shown z (i.prompt ++ e.lines.getD k [])) :
    ShowsLine t (console ++ out) (e.fetch k) := by
  obtain ⟨base, hshow⟩ := hshow
  have hpos := z.cmdSize_pos
  have hmem : e.lines.getD k [] ∈ e.lines := by
    rw [List.getD_eq_getElem _ _ hk]
    exact List.getElem_mem _
  have herase : shown z [0x1b, ch '[', ch '2', ch 'K', 0x0d] = eraseRow :=
    shown_eq (by simpa using (show 6 < z.consoleBufSize by omega))
  rw [herase, shown_prompt hvis (href.keepable _ hmem).1] at hout
  obtain ⟨base₁, hshown⟩ := shows_prompt hshow.erase hvis.prompt (he.2 _ hmem)
  refine .feed (b := base₁) ?_
  rw [hout, feed_append, Editor.fetch, Line.text_ofText]
  exact hshown

theorem up_shows (hshow : ShowsLine t console e) (href : Refines z s e) (he : EditorVisible e)
    (hsize : z.cmdSize + 5 < z.consoleBufSize) (hvis : Visible z i) (hecho : Echo z table true i e .up out) :
    ShowsLine t (console ++ out) (e.press z table i.files .up) := by
  have hle := href.place_le
  by_cases hpos : 0 < e.place
  · rw [Editor.press, if_pos hpos]
    exact fetch_shows hshow href he hsize hvis (by omega) ((show out = _ from hecho).trans (if_pos hpos))
  · obtain rfl : out = [] := by rw [show out = _ from hecho, if_neg hpos]
    rwa [Editor.press, if_neg hpos, List.append_nil]

theorem down_shows (hshow : ShowsLine t console e) (href : Refines z s e) (he : EditorVisible e)
    (hsize : z.cmdSize + 5 < z.consoleBufSize) (hvis : Visible z i) (hecho : Echo z table true i e .down out) :
    ShowsLine t (console ++ out) (e.press z table i.files .down) := by
  by_cases hnil : e.lines = []
  · obtain rfl : out = [] := by rw [show out = _ from hecho, if_pos hnil]
    rwa [Editor.press, if_pos hnil, List.append_nil]
  · have hpos := List.length_pos_of_ne_nil hnil
    rw [Editor.press, if_neg hnil]
    exact fetch_shows hshow href he hsize hvis (by omega) ((show out = _ from hecho).trans (if_neg hnil))

theorem left_shows (hshow : ShowsLine t console e) (hsize : z.cmdSize + 5 < z.consoleBufSize)
    (hecho : Echo z table true i e .left out) : ShowsLine t (console ++ out) (e.press z table i.files .left) := by
  obtain ⟨base, hshow⟩ := hshow
  rcases List.eq_nil_or_concat' e.line.before with hnil | ⟨before, x, hbefore⟩
  · obtain rfl : out = [] := by rw [show out = _ from hecho, if_pos hnil]
    have hsame : e.line.left = e.line := by simp [Line.left, hnil]
    rw [Editor.press, hsame]
    exact .feed hshow
  · have hne : e.line.before ≠ [] := by simp [hbefore]
    obtain rfl : out = List.replicate 1 backspace := by
      rw [show out = _ from hecho, if_neg hne, shown_eq (by rw [List.length_singleton]; omega)]
      rfl
    have hback := hshow.back (k := 1) (by simp [hbefore])
    have hcur : e.line.before.length - 1 = e.line.left.before.length := by simp [Line.left, hbefore]
    rw [hcur] at hback
    refine .feed (b := base) ?_
    rw [Editor.press, Line.text_left]
    exact hback

theorem right_shows (hshow : ShowsLine t console e) (he : EditorVisible e) (hsize : z.cmdSize + 5 < z.consoleBufSize)
    (hecho : Echo z table true i e .right out) : ShowsLine t (console ++ out) (e.press z table i.files .right) := by
  obtain ⟨base, hshow⟩ := hshow
  have hlen := e.line.length_text
  cases ha : e.line.after with
  | nil =>
    obtain rfl : out = [] := by rw [show out = _ from hecho, ha]; rfl
    have hsame : e.line.right = e.line := by simp [Line.right, ha]
    rw [Editor.press, hsame]
    exact .feed hshow
  | cons x after =>
    have hx : Printable x := he.1 x (List.mem_append_right _ (ha ▸ List.mem_cons_self))
    obtain rfl : out = [x] := by
      rw [show out = _ from hecho, ha]
      exact shown_eq (by rw [List.length_singleton]; omega)
    have hprint := hshow.print (l := [x]) (by rw [hlen]; exact Nat.le_add_right _ _) (by simpa using hx)
    have hsame : e.line.text.take e.line.before.length ++ [x] ++
        e.line.text.drop (e.line.before.length + [x].length) = e.line.text := by
      rw [Line.text, ha, List.take_left, List.length_singleton, ← List.drop_drop, List.drop_left, List.drop_one,
        List.tail_cons, List.append_assoc]
      rfl
    have hcur : e.line.before.length + [x].length = e.line.right.before.length := by simp [Line.right, ha]
    rw [hsame, hcur] at hprint
    refine .feed (b := base) ?_
    rw [Editor.press, Line.text_right]
    exact hprint

end keys

theorem echo_shows {t : Screen} {console out : List UInt8} {k : Key} (hshow : ShowsLine t console e)
    (href : Refines z s e) (he : EditorVisible e) (htable : TableVisible table)
    (hsize : z.cmdSize + 5 < z.consoleBufSize) (hvis : Visible z i) (hk : (decodeKey s.stat i.ch).2 = some k)
    (hfits : KeyFits z table i.files e.line.text k) (hecho : Echo z table true i e k out) :
    ShowsLine t (console ++ out) (e.press z table i.files k) := by
  cases k with
  | char c => exact char_shows hshow he hsize (hvis.typed.printable hk) hfits hecho
  | tab => exact tab_shows hshow he htable hsize hvis hfits hecho
  | backspace => exact backspace_shows hshow href he hsize hecho
  | enter => exact enter_shows hshow hsize hvis hecho
  | up => exact up_shows hshow href he hsize hvis hecho
  | down => exact down_shows hshow href he hsize hvis hecho
  | left => exact left_shows hshow hsize hecho
  | right => exact right_shows hshow he hsize hecho

/-! ## Runs -/

theorem TableVisible.tableOk (htable : TableVisible table) : TableOk table := by
  intro row hrow h0
  exact absurd ((htable row hrow).1 0 h0) (by decide)

theorem rootFiles_visible : FilesVisible rootFiles := by
  intro d names hd
  obtain rfl := Option.some.inj (Option.ite_none_right_eq_some.mp hd).2
  decide +kernel

theorem rootPrompt_printable : ∀ c ∈ rootPrompt, Printable c := by decide +kernel

theorem typed_visible {c : UInt8} (hc : Typable c) : Visible boardSizes (typed c) where
  typed := hc
  prompt := rootPrompt_printable
  room := (show rootPrompt.length + 80 < 512 by decide +kernel)
  printed := fun _ h => absurd h List.not_mem_nil
  files := rootFiles_visible

/-- An empty terminal. -/
def blankScreen : Screen := ⟨fun _ => blank, 0, .normal⟩

theorem blankScreen_shows : Shows blankScreen 0 [] 0 := ⟨rfl, rfl, fun _ => rfl⟩

end ThyristorController.Shell
