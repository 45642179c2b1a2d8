import ThyristorController.Kernel.Kservice
import ThyristorController.Lib.Completion
import ThyristorController.Lib.LineEdit

/-!
# Completing a command line (`components/finsh/msh.c`)

`msh_auto_complete` completes the line by the names of the commands, and what stands behind its last blank by the names
in a directory. Both keep the first name that fits, and the least number of characters that it shares with the others.

Every access to the line is checked against its size, and what is put into `full_path` against its 256 characters.
`mshAutoComplete_spec` says that the line becomes its completion.
-/

namespace ThyristorController.Shell

open LineEdit Completion
open Kservice (ch)

/-! ## The code -/

/-- `struct finsh_syscall`: a row of the table of commands. -/
structure FinshSyscall where
  name : List UInt8
  desc : List UInt8

/-- The size of `full_path`, and of `d_name` in `struct dirent`. -/
def fullPathSize : Nat := 256

/-- What `getcwd`, and `opendir` with `readdir`, answer: paths and names are strings. -/
structure Files where
  cwd : List UInt8
  dir : List UInt8 → Option (List (List UInt8))
  cwd_ne : cwd ≠ []
  name_lt : ∀ d names, dir d = some names → ∀ n ∈ names, n.length < fullPathSize
  name_noNul : ∀ d names, dir d = some names → ∀ n ∈ names, 0 ∉ n

/-- `str_common`. -/
def strCommon : List UInt8 → List UInt8 → Nat
  | a :: l, b :: l' => if a = b then strCommon l l' + 1 else 0
  | _, _ => 0

/-- One name in a search for those that begin with `p`: `min_length`, and the name that is kept. -/
def candidate (p : List UInt8) (acc : Nat × Option (List UInt8)) (name : List UInt8) : Nat × Option (List UInt8) :=
  if p.isPrefixOf name then
    let (minLength, saved) := if acc.1 = 0 then (name.length, some name) else acc
    let length := strCommon (saved.getD []) name
    (if length < minLength then length else minLength, saved)
  else acc

/-- `rt_strncpy`: the `n` characters that it stores. -/
def strncpy (src : List UInt8) (n : Nat) : List UInt8 := src.take n ++ List.replicate (n - src.length) 0

/-- The place behind the last `c`. -/
def behindLast (c : UInt8) (text : List UInt8) : Nat := text.length - (text.reverse.takeWhile (· ≠ c)).length

/-- A name as a line of the listing. -/
def listed (name : List UInt8) : List UInt8 := name ++ [0x0a]

/-- The directory of a path: what stands in front of it in `full_path`. -/
def parentPrefix (cwd path : List UInt8) : Option (List UInt8) :=
  if path.head? = some (ch '/') then some []
  else cwd.getLast?.map fun c => if c = ch '/' then cwd else cwd ++ [ch '/']

/-- `msh_auto_complete_path`, for the path from a place of the line on: the line, and what is printed. -/
def mshAutoCompletePath (files : Files) (line : List UInt8) (path : Nat) : Option (List UInt8 × List (List UInt8)) := do
  let text ← upTo 0 line path
  let full ← parentPrefix files.cwd text
  let length := behindLast (ch '/') text
  let parent := full ++ text.take length
  if fullPathSize ≤ parent.length then none
  else
    match files.dir parent with
    | none => some (line, [])
    | some names =>
      let name := text.drop length
      if name = [] then some (line, names.map listed)
      else
        match names.foldl (candidate name) (0, none) with
        | (minLength, some saved) =>
          if fullPathSize ≤ saved.length then none
          else if minLength = 0 then some (line, [])
          else
            let texts := if minLength < saved.length then (names.filter fun n => name.isPrefixOf n).map listed else []
            let line ← write line (path + length) (saved.take minLength)
            let line ← store line (path + length + minLength) 0
            some (line, texts)
        | (_, none) => some (line, [])

/-- The names of the commands of `msh`: the rows whose name begins with `__cmd_`, without that. -/
def mshCommands (table : List FinshSyscall) : List (List UInt8 × List UInt8) :=
  table.filterMap fun row =>
    if ("__cmd_".toList.map ch).isPrefixOf row.name then some (row.name.drop 6, row.desc) else none

/-- `"%-16s - %s\n"`. -/
def helpLine (name desc : List UInt8) : List UInt8 :=
  name ++ List.replicate (16 - name.length) (ch ' ') ++ " - ".toList.map ch ++ desc ++ [0x0a]

/-- What `msh_help` prints. -/
def mshHelp (table : List FinshSyscall) : List (List UInt8) :=
  ["RT-Thread shell commands:\n".toList.map ch] ++ (mshCommands table).map (fun c => helpLine c.1 c.2) ++ [[0x0a]]

/-- "check whether a spare in the command": a blank at the very beginning is not found. -/
def completeArgument (files : Files) (line text : List UInt8) : Option (List UInt8 × List (List UInt8)) :=
  if 2 ≤ behindLast (ch ' ') text then mshAutoCompletePath files line (behindLast (ch ' ') text) else some (line, [])

/-- "checks in internal command". -/
def completeCommand (table : List FinshSyscall) (line : List UInt8) : Option (List UInt8 × List (List UInt8)) := do
  let pre ← upTo 0 line 0
  let names := (mshCommands table).map Prod.fst
  let texts := (names.filter fun n => pre.isPrefixOf n).map listed
  match names.foldl (candidate pre) (0, none) with
  | (minLength, some name) => (write line 0 (strncpy name minLength)).map fun line => (line, texts)
  | (_, none) => some (line, texts)

/-- `msh_auto_complete`: the line, and what is printed. -/
def mshAutoComplete (table : List FinshSyscall) (files : Files) (line : List UInt8) :
    Option (List UInt8 × List (List UInt8)) := do
  let text ← upTo 0 line 0
  if text = [] then some (line, mshHelp table)
  else do
    let (line, shown) ← completeArgument files line text
    let (line, texts) ← completeCommand table line
    some (line, shown ++ texts)

/-! ## The completion -/

/-- The completion of a path by the names in its directory. -/
def completePath (files : Files) (p : List UInt8) : List UInt8 :=
  let k := behindLast (ch '/') p
  match (parentPrefix files.cwd p).bind fun full => files.dir (full ++ p.take k) with
  | none => p
  | some names => if p.drop k = [] then p else p.take k ++ complete names (p.drop k)

/-- The completion of what stands behind the last blank. -/
def completeFile (files : Files) (t : List UInt8) : List UInt8 :=
  let k := behindLast (ch ' ') t
  if 2 ≤ k then t.take k ++ completePath files (t.drop k) else t

/-- The completion of a line. -/
def completeLine (table : List FinshSyscall) (files : Files) (t : List UInt8) : List UInt8 :=
  if t = [] then [] else complete ((mshCommands table).map Prod.fst) (completeFile files t)

/-- The cells of a line hold a text: null characters are behind it, and none in it. -/
structure Holds (size : Nat) (line t : List UInt8) : Prop where
  eq : line = t ++ List.replicate (size - t.length) 0
  lt : t.length < size
  noNul : 0 ∉ t

/-- The directory of a path, as it is put together in `full_path`. -/
def directoryOf (files : Files) (p : List UInt8) : Option (List UInt8) :=
  (parentPrefix files.cwd p).map fun full => full ++ p.take (behindLast (ch '/') p)

/-- There is place in `full_path` for the directory of what is completed as a path. -/
def PathFits (files : Files) (t : List UInt8) : Prop :=
  2 ≤ behindLast (ch ' ') t →
    ∀ d ∈ directoryOf files (t.drop (behindLast (ch ' ') t)), d.length < fullPathSize

instance (files : Files) (t : List UInt8) : Decidable (PathFits files t) := inferInstanceAs (Decidable (_ → _))

/-- No name of a command has a null character. -/
def TableOk (table : List FinshSyscall) : Prop := ∀ row ∈ table, 0 ∉ row.name

variable {size k m : Nat} {line t p c l l' f n : List UInt8} {names : List (List UInt8)} {files : Files}
  {table : List FinshSyscall}

namespace Holds

theorem length_line (h : Holds size line t) : line.length = size := by
  have := h.lt
  rw [h.eq, List.length_append, List.length_replicate]
  omega

theorem upTo (h : Holds size line t) (hk : k ≤ t.length) : upTo 0 line k = some (t.drop k) := by
  have hlt := h.lt
  obtain ⟨r, hr⟩ : ∃ r, size - t.length = r + 1 := ⟨size - t.length - 1, by omega⟩
  have hcells : line = t ++ 0 :: List.replicate r 0 := by rw [h.eq, hr, List.replicate_succ]
  exact upTo_eq hcells h.noNul hk

theorem write (h : Holds size line t) (hk : k ≤ t.length) (hlen : t.length ≤ k + c.length) (hroom : k + c.length < size)
    (hc : 0 ∉ c) : ∃ line', write line k c = some line' ∧ Holds size line' (t.take k ++ c) := by
  have hlt := h.lt
  have htake : (t.take k).length = k := List.length_take_of_le hk
  have hdrop : line.drop (k + c.length) = List.replicate (size - (t.take k ++ c).length) 0 := by
    rw [h.eq, List.drop_append, List.drop_of_length_le hlen, List.nil_append, List.drop_replicate]
    congr 1
    rw [List.length_append, htake]
    omega
  have hfirst : line.take k = t.take k := by
    rw [h.eq, List.take_append_of_le_length hk]
  refine ⟨t.take k ++ c ++ List.replicate (size - (t.take k ++ c).length) 0, ?_, rfl, ?_, ?_⟩
  · rw [LineEdit.write, if_pos (by rw [h.length_line]; omega), hdrop, hfirst]
  · rw [List.length_append, htake]
    exact hroom
  · intro hmem
    rcases List.mem_append.mp hmem with hmem | hmem
    · exact h.noNul (List.mem_of_mem_take hmem)
    · exact hc hmem

theorem store_end (h : Holds size line t) : store line t.length 0 = some line := by
  have hlt := h.lt
  obtain ⟨r, hr⟩ : ∃ r, size - t.length = r + 1 := ⟨size - t.length - 1, by omega⟩
  have heq : line = t ++ 0 :: List.replicate r 0 := by rw [h.eq, hr, List.replicate_succ]
  rw [heq, store_append]

end Holds

/-! ## The search for names -/

theorem strCommon_eq (l l' : List UInt8) : strCommon l l' = (common l l').length := by
  fun_induction strCommon l l' with
  | case1 a l l' ih => simp [common, ih]
  | case2 a l b l' hab => simp [common, hab]
  | case3 l l' h =>
    cases l with
    | nil => simp [common]
    | cons a l =>
      cases l' with
      | nil => simp [common]
      | cons b l' => exact absurd rfl (h a l b l' rfl)

theorem length_pos_of_isPrefix (hp : p ≠ []) (hc : p <+: c) : c.length ≠ 0 := by
  intro h
  rw [List.length_eq_zero_iff.mp h] at hc
  exact hp (List.prefix_nil.mp hc)

theorem candidate_of_not (hn : ¬ p <+: n) (acc : Nat × Option (List UInt8)) : candidate p acc n = acc := by
  rw [candidate, if_neg (by rwa [List.isPrefixOf_iff_prefix])]

theorem candidate_first (hn : p <+: n) : candidate p (0, none) n = (n.length, some n) := by
  have hself : strCommon n n = n.length := by
    have hle : n <+: common n n := prefix_common_iff.mpr ⟨List.prefix_rfl, List.prefix_rfl⟩
    rw [strCommon_eq]
    exact Nat.le_antisymm (common_prefix_left n n).length_le hle.length_le
  rw [candidate, if_pos (by rwa [List.isPrefixOf_iff_prefix])]
  simp [hself]

theorem candidate_next (hn : p <+: n) (hc : c <+: f) (hpos : c.length ≠ 0) :
    candidate p (c.length, some f) n = ((common c n).length, some f) := by
  have htake : c = f.take c.length := (List.prefix_iff_eq_take.mp hc)
  have hlen : (common c n).length = min c.length (common f n).length := by
    have hle := (common_prefix_left f n).length_le
    rw [htake, common_take, List.length_take, ← htake]
    omega
  rw [candidate, if_pos (by rwa [List.isPrefixOf_iff_prefix])]
  dsimp only
  rw [if_neg hpos, Option.getD_some, strCommon_eq, hlen]
  by_cases h : (common f n).length < c.length
  · rw [if_pos h, Nat.min_eq_right (Nat.le_of_lt h)]
  · rw [if_neg h, Nat.min_eq_left (Nat.not_lt.mp h)]

theorem foldl_candidate_some (hp : p ≠ []) (hpc : p <+: c) (hc : c <+: f) (names : List (List UInt8)) :
    names.foldl (candidate p) (c.length, some f) =
      (((names.filter fun n => p.isPrefixOf n).foldl common c).length, some f) := by
  induction names generalizing c with
  | nil => rfl
  | cons n names ih =>
    rw [List.foldl_cons]
    by_cases hn : p <+: n
    · rw [candidate_next hn hc (length_pos_of_isPrefix hp hpc), List.filter_cons_of_pos (by simpa using hn),
        List.foldl_cons]
      exact ih (prefix_common_iff.mpr ⟨hpc, hn⟩) ((common_prefix_left c n).trans hc)
    · rw [candidate_of_not hn, List.filter_cons_of_neg (by simpa using hn)]
      exact ih hpc hc

/-- The search finds nothing, or a name that begins with the completion, and the length of that. -/
theorem foldl_candidate (hp : p ≠ []) (names : List (List UInt8)) :
    (names.foldl (candidate p) (0, none) = (0, none) ∧ complete names p = p) ∨
      ∃ f ∈ names, p <+: f ∧ complete names p <+: f ∧
        names.foldl (candidate p) (0, none) = ((complete names p).length, some f) := by
  induction names with
  | nil => exact .inl ⟨rfl, rfl⟩
  | cons n names ih =>
    rw [List.foldl_cons]
    by_cases hn : p <+: n
    · have hfilter : (n :: names).filter (fun n => p.isPrefixOf n) = n :: names.filter fun n => p.isPrefixOf n :=
        List.filter_cons_of_pos (by simpa using hn)
      have hcomplete : complete (n :: names) p = (names.filter fun n => p.isPrefixOf n).foldl common n := by
        rw [complete, hfilter]
      refine .inr ⟨n, List.mem_cons_self, hn, ?_, ?_⟩
      · rw [hcomplete]
        exact isPrefix_foldl_common n _
      · rw [candidate_first hn, foldl_candidate_some hp hn List.prefix_rfl, hcomplete]
    · have hcomplete : complete (n :: names) p = complete names p := by
        rw [complete, complete, List.filter_cons_of_neg (by simpa using hn)]
      rw [candidate_of_not hn, hcomplete]
      rcases ih with h | ⟨f, hf, h⟩
      · exact .inl h
      · exact .inr ⟨f, List.mem_cons_of_mem _ hf, h⟩

theorem strncpy_of_isPrefix (hc : c <+: f) : strncpy f c.length = c := by
  have htake : f.take c.length = c := (List.prefix_iff_eq_take.mp hc).symm
  have hpad : c.length - f.length = 0 := Nat.sub_eq_zero_of_le hc.length_le
  rw [strncpy, htake, hpad, List.replicate_zero, List.append_nil]

/-! ## The line becomes its completion -/

theorem behindLast_le (c : UInt8) (t : List UInt8) : behindLast c t ≤ t.length := Nat.sub_le _ _

theorem parentPrefix_isSome (files : Files) (p : List UInt8) : ∃ full, parentPrefix files.cwd p = some full := by
  unfold parentPrefix
  split
  · exact ⟨_, rfl⟩
  · obtain ⟨c, hc⟩ := Option.ne_none_iff_exists'.mp (mt List.getLast?_eq_none_iff.mp files.cwd_ne)
    exact ⟨_, by rw [hc]; rfl⟩

/-- What is printed are names of the directory, one in a line. -/
def ListsNames (files : Files) (texts : List (List UInt8)) : Prop :=
  ∀ text ∈ texts, ∃ d names, files.dir d = some names ∧ ∃ n ∈ names, text = listed n

theorem listsNames_nil : ListsNames files [] := fun _ h => absurd h List.not_mem_nil

theorem listsNames_map {d : List UInt8} {shown : List (List UInt8)} (hd : files.dir d = some names)
    (hsub : ∀ n ∈ shown, n ∈ names) : ListsNames files (shown.map listed) := by
  intro text htext
  obtain ⟨n, hn, rfl⟩ := List.mem_map.mp htext
  exact ⟨d, names, hd, n, hsub n hn, rfl⟩

/-- `msh_auto_complete_path` puts the completion of the path in its place. -/
theorem mshAutoCompletePath_spec (h : Holds size line t) (hk : k ≤ t.length)
    (hfits : ∀ d ∈ directoryOf files (t.drop k), d.length < fullPathSize)
    (hroom : k + (completePath files (t.drop k)).length < size) :
    ∃ line' texts, mshAutoCompletePath files line k = some (line', texts) ∧
      Holds size line' (t.take k ++ completePath files (t.drop k)) ∧ ListsNames files texts := by
  have hlt := h.lt
  obtain ⟨full, hfull⟩ := parentPrefix_isSome files (t.drop k)
  have hle := behindLast_le (ch '/') (t.drop k)
  set b := behindLast (ch '/') (t.drop k) with hb
  have hparent : ¬ fullPathSize ≤ (full ++ (t.drop k).take b).length :=
    Nat.not_le.mpr (hfits _ (by rw [directoryOf, hfull]; rfl))
  rw [mshAutoCompletePath, h.upTo hk]
  simp only [Option.bind_eq_bind, Option.bind_some, hfull, ← hb, if_neg hparent]
  cases hdir : files.dir (full ++ (t.drop k).take b) with
  | none =>
    have hsame : completePath files (t.drop k) = t.drop k := by
      simp only [completePath, hfull, ← hb, Option.bind_some, hdir]
    refine ⟨line, [], rfl, ?_, listsNames_nil⟩
    rwa [hsame, List.take_append_drop]
  | some names =>
    dsimp only
    have hcomplete : completePath files (t.drop k) =
        if (t.drop k).drop b = [] then t.drop k else (t.drop k).take b ++ complete names ((t.drop k).drop b) := by
      simp only [completePath, hfull, ← hb, Option.bind_some, hdir]
    by_cases hname : (t.drop k).drop b = []
    · rw [if_pos hname]
      rw [if_pos hname] at hcomplete
      refine ⟨line, _, rfl, ?_, listsNames_map hdir fun n hn => hn⟩
      rwa [hcomplete, List.take_append_drop]
    · rw [if_neg hname]
      rw [if_neg hname] at hcomplete
      rcases foldl_candidate hname names with ⟨hfold, hnone⟩ | ⟨f, hf, hpf, hcf, hfold⟩
      · rw [hfold, hcomplete, hnone, List.take_append_drop, List.take_append_drop]
        exact ⟨line, [], rfl, h, listsNames_nil⟩
      · have hsaved := files.name_lt _ _ hdir f hf
        have hnul : 0 ∉ complete names ((t.drop k).drop b) := fun hmem =>
          files.name_noNul _ _ hdir f hf (hcf.subset hmem)
        have hpre := (prefix_complete names ((t.drop k).drop b)).length_le
        have hpos := length_pos_of_isPrefix hname (prefix_complete names ((t.drop k).drop b))
        have htake : f.take (complete names ((t.drop k).drop b)).length = complete names ((t.drop k).drop b) :=
          (List.prefix_iff_eq_take.mp hcf).symm
        rw [hcomplete, List.length_append, List.length_take, List.length_drop] at hroom
        simp only [List.length_drop] at hpre hle
        have hkb : k + b ≤ t.length := by omega
        obtain ⟨line', hwrite, hholds⟩ := h.write (c := complete names ((t.drop k).drop b)) hkb (by omega)
          (by omega) hnul
        have hplace : k + b + (complete names ((t.drop k).drop b)).length =
            (t.take (k + b) ++ complete names ((t.drop k).drop b)).length := by
          rw [List.length_append, List.length_take_of_le hkb]
        rw [hfold]
        dsimp only
        rw [if_neg (by omega), if_neg hpos, htake, hwrite]
        simp only [Option.bind_some]
        rw [hplace, hholds.store_end]
        refine ⟨line', _, rfl, ?_, ?_⟩
        · rw [hcomplete, ← List.append_assoc, ← List.take_add]
          exact hholds
        · split
          · exact listsNames_map hdir fun n hn => (List.mem_filter.mp hn).1
          · exact listsNames_nil

/-- What `msh_auto_complete` prints: the help, or names. -/
def Lists (table : List FinshSyscall) (files : Files) (texts : List (List UInt8)) : Prop :=
  texts = mshHelp table ∨ ∀ text ∈ texts, (∃ d names, files.dir d = some names ∧ ∃ n ∈ names, text = listed n) ∨
    ∃ c ∈ mshCommands table, text = listed c.1

theorem mshCommands_noNul (htable : TableOk table) {c : List UInt8} (hc : c ∈ (mshCommands table).map Prod.fst) :
    0 ∉ c := by
  obtain ⟨⟨name, desc⟩, hmem, rfl⟩ := List.mem_map.mp hc
  obtain ⟨row, hrow, hname⟩ := List.mem_filterMap.mp hmem
  obtain ⟨-, hname⟩ := Option.ite_none_right_eq_some.mp hname
  obtain ⟨rfl, -⟩ := Prod.mk.inj (Option.some.inj hname)
  exact fun h => htable row hrow (List.mem_of_mem_drop h)

theorem completeFile_eq (hk : 2 ≤ behindLast (ch ' ') t) : completeFile files t =
    t.take (behindLast (ch ' ') t) ++ completePath files (t.drop (behindLast (ch ' ') t)) := if_pos hk

theorem completeFile_eq_self (hk : ¬ 2 ≤ behindLast (ch ' ') t) : completeFile files t = t := if_neg hk

theorem completeFile_ne_nil (ht : t ≠ []) : completeFile files t ≠ [] := by
  by_cases hk : 2 ≤ behindLast (ch ' ') t
  · have hle := behindLast_le (ch ' ') t
    intro hnil
    rw [completeFile_eq hk] at hnil
    have hlen := congrArg List.length hnil
    rw [List.length_append, List.length_take_of_le hle, List.length_nil] at hlen
    omega
  · rwa [completeFile_eq_self hk]

theorem completeArgument_spec (h : Holds size line t) (hfiles : PathFits files t)
    (hroom : (completeFile files t).length < size) :
    ∃ line' texts, completeArgument files line t = some (line', texts) ∧ Holds size line' (completeFile files t) ∧
      ListsNames files texts := by
  unfold completeArgument
  by_cases hk : 2 ≤ behindLast (ch ' ') t
  · have hle := behindLast_le (ch ' ') t
    rw [completeFile_eq hk, List.length_append, List.length_take_of_le hle] at hroom
    rw [if_pos hk, completeFile_eq hk]
    exact mshAutoCompletePath_spec h hle (hfiles hk) hroom
  · rw [if_neg hk, completeFile_eq_self hk]
    exact ⟨line, [], rfl, h, listsNames_nil⟩

theorem completeCommand_spec (h : Holds size line t) (htable : TableOk table) (ht : t ≠ [])
    (hroom : (complete ((mshCommands table).map Prod.fst) t).length < size) :
    ∃ line' texts, completeCommand table line = some (line', texts) ∧
      Holds size line' (complete ((mshCommands table).map Prod.fst) t) ∧
      ∀ text ∈ texts, ∃ c ∈ mshCommands table, text = listed c.1 := by
  have hlists (pre : List UInt8) (text : List UInt8)
      (htext : text ∈ (((mshCommands table).map Prod.fst).filter fun n => pre.isPrefixOf n).map listed) :
      ∃ c ∈ mshCommands table, text = listed c.1 := by
    obtain ⟨n, hn, rfl⟩ := List.mem_map.mp htext
    obtain ⟨c, hc, rfl⟩ := List.mem_map.mp (List.mem_filter.mp hn).1
    exact ⟨c, hc, rfl⟩
  have hpre := (prefix_complete ((mshCommands table).map Prod.fst) t).length_le
  rw [completeCommand, h.upTo (Nat.zero_le _), List.drop_zero]
  simp only [Option.bind_eq_bind, Option.bind_some]
  rcases foldl_candidate ht ((mshCommands table).map Prod.fst) with ⟨hfold, hnone⟩ | ⟨f, hf, hpf, hcf, hfold⟩
  · rw [hfold, hnone]
    exact ⟨line, _, rfl, h, hlists t⟩
  · have hnul : 0 ∉ complete ((mshCommands table).map Prod.fst) t := fun hmem =>
      mshCommands_noNul htable hf (hcf.subset hmem)
    obtain ⟨line', hwrite, hholds⟩ := h.write (k := 0) (Nat.zero_le _) (by omega) (by omega) hnul
    rw [List.take_zero, List.nil_append] at hholds
    rw [hfold]
    dsimp only
    rw [strncpy_of_isPrefix hcf, hwrite]
    exact ⟨line', _, rfl, hholds, hlists t⟩

/-- `msh_auto_complete` makes the line its completion, if there is place for it. -/
theorem mshAutoComplete_spec (h : Holds size line t) (hfiles : PathFits files t) (htable : TableOk table)
    (hroom : (completeLine table files t).length < size) :
    ∃ line' texts, mshAutoComplete table files line = some (line', texts) ∧
      Holds size line' (completeLine table files t) ∧ Lists table files texts := by
  rw [mshAutoComplete, h.upTo (Nat.zero_le _), List.drop_zero]
  simp only [Option.bind_eq_bind, Option.bind_some]
  by_cases ht : t = []
  · rw [if_pos ht]
    have hsame : completeLine table files t = t := by rw [completeLine, if_pos ht, ht]
    exact ⟨line, _, rfl, by rwa [hsame], .inl rfl⟩
  · have hline : completeLine table files t = complete ((mshCommands table).map Prod.fst) (completeFile files t) := by
      rw [completeLine, if_neg ht]
    rw [hline] at hroom ⊢
    have hpre := (prefix_complete ((mshCommands table).map Prod.fst) (completeFile files t)).length_le
    obtain ⟨line₁, shown, hfile, hholds₁, hshown⟩ := completeArgument_spec h hfiles (by omega)
    obtain ⟨line', texts, hcommand, hholds, htexts⟩ :=
      completeCommand_spec hholds₁ htable (completeFile_ne_nil ht) hroom
    rw [if_neg ht, hfile, Option.bind_some]
    dsimp only
    rw [hcommand]
    refine ⟨line', _, rfl, hholds, .inr fun text htext => ?_⟩
    rcases List.mem_append.mp htext with htext | htext
    · exact .inl (hshown text htext)
    · exact .inr (htexts text htext)

/-- A directory that is too long for `full_path` is written behind its end. -/
theorem mshAutoComplete_fits {r : List UInt8 × List (List UInt8)} (h : Holds size line t)
    (hr : mshAutoComplete table files line = some r) : PathFits files t := by
  intro hk d hd
  have ht : t ≠ [] := by
    rintro rfl
    exact absurd hk (by decide)
  rw [mshAutoComplete, h.upTo (Nat.zero_le _), List.drop_zero] at hr
  simp only [Option.bind_eq_bind, Option.bind_some, if_neg ht, completeArgument, if_pos hk,
    Option.bind_eq_some_iff] at hr
  obtain ⟨⟨line₁, shown⟩, hpath, -⟩ := hr
  rw [mshAutoCompletePath, h.upTo (behindLast_le _ _)] at hpath
  simp only [Option.bind_eq_bind, Option.bind_some, Option.bind_eq_some_iff] at hpath
  obtain ⟨full, hfull, hpath⟩ := hpath
  rw [directoryOf, hfull] at hd
  obtain rfl := Option.some.inj hd
  exact Nat.not_le.mp (Option.ite_none_left_eq_some.mp hpath).1

/-! ## What the completion is -/

/-- `c` is the longest text with which all names begin that begin with `p`, and `p` itself if there are none. -/
def Completes (names : List (List UInt8)) (p c : List UInt8) : Prop :=
  ((∃ n ∈ names, p <+: n) ∧ ∀ d, d <+: c ↔ ∀ n ∈ names, p <+: n → d <+: n) ∨ ((∀ n ∈ names, ¬ p <+: n) ∧ c = p)

/-- `c` is the path `p` with its last name completed by the names in its directory. -/
def CompletesPath (files : Files) (p c : List UInt8) : Prop :=
  ∃ full, parentPrefix files.cwd p = some full ∧
    ((files.dir (full ++ p.take (behindLast (ch '/') p)) = none ∨ p.drop (behindLast (ch '/') p) = []) ∧ c = p ∨
      ∃ names name, files.dir (full ++ p.take (behindLast (ch '/') p)) = some names ∧
        Completes names (p.drop (behindLast (ch '/') p)) name ∧ c = p.take (behindLast (ch '/') p) ++ name)

theorem completes (names : List (List UInt8)) (p : List UInt8) : Completes names p (complete names p) := by
  by_cases hsome : ∃ n ∈ names, p <+: n
  · exact .inl ⟨hsome, fun d => prefix_complete_iff hsome⟩
  · have hnone : ∀ n ∈ names, ¬ p <+: n := fun n hn hp => hsome ⟨n, hn, hp⟩
    refine .inr ⟨hnone, complete_of_none ?_⟩
    exact List.filter_eq_nil_iff.mpr fun n hn hp => hnone n hn (List.isPrefixOf_iff_prefix.mp hp)

theorem completesPath (files : Files) (p : List UInt8) : CompletesPath files p (completePath files p) := by
  obtain ⟨full, hfull⟩ := parentPrefix_isSome files p
  refine ⟨full, hfull, ?_⟩
  have hpath : completePath files p =
      match files.dir (full ++ p.take (behindLast (ch '/') p)) with
      | none => p
      | some names =>
        if p.drop (behindLast (ch '/') p) = [] then p
        else p.take (behindLast (ch '/') p) ++ complete names (p.drop (behindLast (ch '/') p)) := by
    rw [completePath, hfull, Option.bind_some]
  cases hdir : files.dir (full ++ p.take (behindLast (ch '/') p)) with
  | none =>
    rw [hdir] at hpath
    exact .inl ⟨.inl rfl, hpath⟩
  | some names =>
    rw [hdir] at hpath
    by_cases hname : p.drop (behindLast (ch '/') p) = []
    · exact .inl ⟨.inr hname, hpath.trans (if_pos hname)⟩
    · exact .inr ⟨names, _, rfl, completes names _, hpath.trans (if_neg hname)⟩

/-- `msh_auto_complete` completes what stands behind the last blank by the names of a directory, and the line that
comes out by the names of the commands: the searches for the least length find the longest common beginning. -/
theorem auto_complete (h : Holds size line t) (hfiles : PathFits files t) (htable : TableOk table) (ht : t ≠ [])
    (hroom : (completeLine table files t).length < size) :
    ∃ line' texts file c, mshAutoComplete table files line = some (line', texts) ∧ Holds size line' c ∧
      Completes ((mshCommands table).map Prod.fst) file c ∧
      (behindLast (ch ' ') t < 2 → file = t) ∧
      (2 ≤ behindLast (ch ' ') t → ∃ p, CompletesPath files (t.drop (behindLast (ch ' ') t)) p ∧
        file = t.take (behindLast (ch ' ') t) ++ p) := by
  obtain ⟨line', texts, hcomplete, hholds, -⟩ := mshAutoComplete_spec h hfiles htable hroom
  rw [completeLine, if_neg ht] at hholds
  refine ⟨line', texts, completeFile files t, _, hcomplete, hholds, completes _ _, ?_, ?_⟩
  · intro hk
    exact completeFile_eq_self (Nat.not_le.mpr hk)
  · intro hk
    exact ⟨_, completesPath files _, completeFile_eq hk⟩

/-- A root directory with two files. -/
def rootFiles : Files where
  cwd := [ch '/']
  dir d := if d = [ch '/'] then some ["params.csv".toList.map ch, "params.bak".toList.map ch] else none
  cwd_ne := List.cons_ne_nil _ _
  name_lt := by
    intro d names hd
    obtain rfl := Option.some.inj (Option.ite_none_right_eq_some.mp hd).2
    decide +kernel
  name_noNul := by
    intro d names hd
    obtain rfl := Option.some.inj (Option.ite_none_right_eq_some.mp hd).2
    decide +kernel

def someCommands : List FinshSyscall :=
  [⟨"__cmd_list_thread".toList.map ch, "list thread".toList.map ch⟩, ⟨"__cmd_cat".toList.map ch, []⟩]

theorem someCommands_ok : TableOk someCommands := by
  unfold TableOk
  decide +kernel

/-- The file is completed, and the command is not changed by that. -/
theorem auto_complete_typed : ∃ line' texts file c p,
    mshAutoComplete someCommands rootFiles ("cat p".toList.map ch ++ List.replicate 76 0) = some (line', texts) ∧
      Holds 81 line' c ∧ Completes ((mshCommands someCommands).map Prod.fst) file c ∧
      CompletesPath rootFiles (("cat p".toList.map ch).drop 4) p ∧ file = ("cat p".toList.map ch).take 4 ++ p := by
  have h : Holds 81 ("cat p".toList.map ch ++ List.replicate 76 0) ("cat p".toList.map ch) := by
    refine ⟨?_, ?_, ?_⟩ <;> decide +kernel
  have hfits : PathFits rootFiles ("cat p".toList.map ch) := by decide +kernel
  have hk : behindLast (ch ' ') ("cat p".toList.map ch) = 4 := by decide +kernel
  obtain ⟨line', texts, file, c, hcomplete, hholds, hcommand, -, hfile⟩ :=
    auto_complete h hfits someCommands_ok (by decide +kernel) (by decide +kernel)
  rw [hk] at hfile
  obtain ⟨p, hpath, heq⟩ := hfile (by decide)
  exact ⟨line', texts, file, c, p, hcomplete, hholds, hcommand, hpath, heq⟩

end ThyristorController.Shell
