import Mathlib.Data.List.Basic
import Mathlib.Data.List.Induction
import Mathlib.Data.List.TakeWhile
import Mathlib.Tactic.Common

/-!
# Normal form of a path (`components/dfs/src/dfs.c`)

`dfs_normalize_path` rewrites the joined path in place: `src` reads it name by name, and `dst` writes the names that
stay. A buffer is the list of its bytes, and every access is checked against its length.

`Place.walk` is the resolution of a path name by name; it stays at the root when a ".." has nothing to remove, and
counts these. `dfsNormalizePath_eq` says what the code makes of them: none is treated rightly. The first one removes
the leading slash, and a second one makes the call fail. So the result is right unless there is exactly one
(`normalizes_iff`).
-/

namespace ThyristorController.Paths

/-- '/'. -/
def slash : UInt8 := '/'.toUInt8

/-- '.'. -/
def dot : UInt8 := '.'.toUInt8

/-! ## The function -/

/-- Why there is no result: an access outside of the buffer; a loop that has made all the rounds it was given. -/
inductive Fault where
  | outside | unfinished
deriving DecidableEq

def load (buf : List UInt8) (i : Nat) : Except Fault UInt8 :=
  match buf[i]? with
  | some c => .ok c
  | none => .error .outside

def store (buf : List UInt8) (i : Nat) (c : UInt8) : Except Fault (List UInt8) :=
  if i < buf.length then .ok (buf.set i c) else .error .outside

/-- `dst[-1]`. -/
def loadBefore (buf : List UInt8) : Nat → Except Fault UInt8
  | 0 => .error .outside
  | dst + 1 => load buf dst

/-- The loops that leave out the slashes from `src` on. -/
def skipSlashes (buf : List UInt8) : Nat → Nat → Except Fault Nat
  | 0, _ => .error .unfinished
  | fuel + 1, src => do
    let c ← load buf src
    if c = slash then skipSlashes buf fuel (src + 1) else return src

/-- `while ((c = *src++) != '\0' && c != '/') *dst ++ = c;`, with `c`, `src` and `dst` behind the loop. -/
def copyName : Nat → List UInt8 → Nat → Nat → Except Fault (List UInt8 × UInt8 × Nat × Nat)
  | 0, _, _, _ => .error .unfinished
  | fuel + 1, buf, src, dst => do
    let c ← load buf src
    if c ≠ 0 ∧ c ≠ slash then copyName fuel (← store buf dst c) (src + 1) (dst + 1)
    else return (buf, c, src + 1, dst)

/-- `while (dst0 < dst && dst[-1] != '/') dst --;`. -/
def backUp (buf : List UInt8) : Nat → Except Fault Nat
  | 0 => return 0
  | dst + 1 => do
    if (← loadBefore buf (dst + 1)) ≠ slash then backUp buf dst else return dst + 1

/-- Where a round goes on behind the test for a name of dots: with the copy of a name, with the next round, or at
`up_one`. -/
inductive Branch where
  | copy (src : Nat)
  | next (src : Nat)
  | upOne (src : Nat)

/-- `if (c == '.')`. -/
def dots (buf : List UInt8) (src : Nat) : Except Fault Branch := do
  if (← load buf src) = dot then
    let c ← load buf (src + 1)
    if c = 0 then return .copy (src + 1)
    else if c = slash then return .next (← skipSlashes buf buf.length (src + 2))
    else if c = dot then
      let c ← load buf (src + 2)
      if c = 0 then return .upOne (src + 2)
      else if c = slash then return .upOne (← skipSlashes buf buf.length (src + 3))
      else return .copy src
    else return .copy src
  else return .copy src

/-- `while (1)`, with `dst` behind the loop; `dst --` leads below `dst0` when `dst` is `dst0`. -/
def rounds : Nat → List UInt8 → Nat → Nat → Except Fault (Option (List UInt8 × Nat))
  | 0, _, _, _ => .error .unfinished
  | fuel + 1, buf, src, dst => do
    match ← dots buf src with
    | .next src => rounds fuel buf src dst
    | .upOne src => if dst = 0 then return none else rounds fuel buf src (← backUp buf (dst - 1))
    | .copy src =>
      let (buf, c, src, dst) ← copyName buf.length buf src dst
      if c = slash then
        let buf ← store buf dst slash
        rounds fuel buf (← skipSlashes buf buf.length src) (dst + 1)
      else return some (buf, dst)

/-- "remove '/' in the end of path if exist". -/
def removeSlash (buf : List UInt8) (dst : Nat) : Except Fault (List UInt8) :=
  if dst = 1 then return buf
  else do
    let c ← loadBefore buf dst
    if c = slash then store buf (dst - 1) 0 else return buf

/-- "final check fullpath is not empty". -/
def checkEmpty (buf : List UInt8) : Except Fault (List UInt8) := do
  let c ← load buf 0
  if c = 0 then store (← store buf 0 slash) 1 0 else return buf

/-- What follows the loop; `dst` is the place of the NUL. -/
def finish (buf : List UInt8) (dst : Nat) : Except Fault (List UInt8) := do
  checkEmpty (← removeSlash (← store buf dst 0) dst)

/-- The string that is joined from the working directory and the name; `rt_snprintf` of "%s/%s" has room for it. -/
def joined (directory filename : List UInt8) : List UInt8 :=
  if filename.head? ≠ some slash then directory ++ slash :: filename else filename

/-- `dfs_normalize_path`, when `rt_malloc` succeeds; nothing is `NULL`. -/
def dfsNormalizePath (directory filename : List UInt8) : Except Fault (Option (List UInt8)) := do
  let fullpath := joined directory filename ++ [0]
  match ← rounds fullpath.length fullpath 0 0 with
  | none => return none
  | some (buf, dst) => return some ((← finish buf dst).takeWhile (· ≠ 0))

/-! ## Names and places -/

/-- A name between slashes. -/
abbrev Name := List UInt8

/-- The names of a path. -/
def names (path : List UInt8) : List Name := (path.splitOn slash).filter (· ≠ [])

/-- The names on the way from the root to a place, and how often a ".." was met at the root. -/
structure Place where
  ups : Nat
  dirs : List Name

/-- One name of a path. -/
def Place.enter (p : Place) (c : Name) : Place :=
  if c = [dot] then p
  else if c = [dot, dot] then
    if p.dirs = [] then { p with ups := p.ups + 1 } else { p with dirs := p.dirs.dropLast }
  else { p with dirs := p.dirs ++ [c] }

def Place.walk (p : Place) (cs : List Name) : Place := cs.foldl enter p

/-- The place that a file name means: a name without a leading slash starts at the directory. -/
def resolve (directory filename : List UInt8) : Place :=
  (if filename.head? ≠ some slash then (⟨0, names directory⟩ : Place) else ⟨0, []⟩).walk (names filename)

/-- The path with these names. -/
def render (dirs : List Name) : List UInt8 := slash :: [slash].intercalate dirs

/-- The root, or a slash and names with a slash between them, none of which is empty or consists of one or two
dots. -/
def Canonical (path : List UInt8) : Prop :=
  path = [slash] ∨ ∃ rest, path = slash :: rest ∧ ∀ c ∈ rest.splitOn slash, c ≠ [] ∧ c ≠ [dot] ∧ c ≠ [dot, dot]

/-- The call stays inside of the buffer, and its result is `NULL` or the canonical path of the place, which is its own
normal form. -/
def Normalizes (directory filename : List UInt8) : Prop := ∃ r, dfsNormalizePath directory filename = .ok r ∧
  ∀ path ∈ r, Canonical path ∧ path = render (resolve directory filename).dirs ∧
    ∀ directory', dfsNormalizePath directory' path = .ok (some path)

/-! ## The cursors -/

section cursors

variable {buf : List UInt8} {src dst i k : Nat} {c : UInt8} {l t w : List UInt8}

/-- `dst` has written `w`, and `src` has `t` before it. -/
structure At (buf : List UInt8) (src dst : Nat) (w t : List UInt8) : Prop where
  done : buf.take dst = w
  rest : buf.drop src = t ++ [0]
  le : dst ≤ src

theorem load_drop (h : buf.drop src = l) (hi : l[i]? = some c) : load buf (src + i) = .ok c := by
  rw [load, ← List.getElem?_drop, h, hi]

namespace At

variable (h : At buf src dst w t)
include h

theorem length_eq : buf.length = src + t.length + 1 := by
  have hlen := congrArg List.length h.rest
  rw [List.length_drop, List.length_append, List.length_singleton] at hlen
  omega

theorem dst_eq : w.length = dst := by
  have hlen := h.length_eq
  have hle := h.le
  rw [← h.done, List.length_take]
  omega

theorem load_eq (hi : (t ++ [0])[i]? = some c) : load buf (src + i) = .ok c := load_drop h.rest hi

theorem head (hc : (t ++ [0]).head? = some c) : load buf src = .ok c :=
  load_drop h.rest (i := 0) (by rwa [← List.head?_eq_getElem?])

end At

theorem At.advance {x : List UInt8} (h : At buf src dst w (x ++ t)) : At buf (src + x.length) dst w t where
  done := h.done
  rest := by rw [← List.drop_drop, h.rest, List.append_assoc, List.drop_left]
  le := Nat.le_add_right_of_le h.le

theorem At.skip {x : List UInt8} (h : At buf src dst w (x ++ (List.replicate k slash ++ t))) :
    At buf (src + x.length + k) dst w t := by
  have hadvance := h.advance.advance
  rwa [List.length_replicate] at hadvance

theorem At.write {c' : UInt8} (h : At buf src dst w (c' :: t)) (c : UInt8) :
    store buf dst c = .ok (buf.set dst c) ∧ At (buf.set dst c) (src + 1) (dst + 1) (w ++ [c]) t := by
  have hlen := h.length_eq
  have hle := h.le
  have hlt : dst < buf.length := by omega
  refine ⟨if_pos hlt, ⟨?_, ?_, by omega⟩⟩
  · rw [List.take_add_one, List.take_set_of_le (Nat.le_refl _), h.done, List.getElem?_set_self hlt, Option.toList_some]
  · have hrest := (show At buf src dst w ([c'] ++ t) from h).advance.rest
    rwa [List.drop_set_of_lt (by omega)]

theorem skipSlashes_spec (fuel : Nat) (h : At buf src dst w (List.replicate k slash ++ t)) (ht : t.head? ≠ some slash)
    (hk : k < fuel) : skipSlashes buf fuel src = .ok (src + k) := by
  induction k generalizing src fuel with
  | zero =>
    obtain ⟨fuel, rfl⟩ := Nat.exists_eq_add_of_lt hk
    obtain ⟨c, hc, hne⟩ : ∃ c, (t ++ [0]).head? = some c ∧ c ≠ slash := by
      cases t with
      | nil => exact ⟨0, rfl, by decide⟩
      | cons c t => exact ⟨c, rfl, fun he => ht (by rw [he]; rfl)⟩
    rw [skipSlashes, At.head h hc]
    exact if_neg hne
  | succ k ih =>
    obtain ⟨fuel, rfl⟩ := Nat.exists_eq_add_of_lt hk
    rw [skipSlashes, At.head h rfl]
    show (if slash = slash then skipSlashes buf (k + 1 + fuel) (src + 1) else .ok src) = _
    have h' : At buf (src + 1) dst w (List.replicate k slash ++ t) := At.advance (x := [slash]) h
    rw [if_pos rfl, ih _ h' (by omega)]
    show Except.ok (src + 1 + k) = _
    rw [Nat.add_right_comm, Nat.add_assoc]

theorem copyName_spec {n : Name} (fuel : Nat) (h : At buf src dst w (n ++ t)) (hn : ∀ x ∈ n, x ≠ 0 ∧ x ≠ slash)
    (hc : (t ++ [0]).head? = some c) (hend : ¬ (c ≠ 0 ∧ c ≠ slash)) (hfuel : n.length < fuel) : ∃ buf',
    copyName fuel buf src dst = .ok (buf', c, src + n.length + 1, dst + n.length) ∧
      At buf' (src + n.length) (dst + n.length) (w ++ n) t := by
  induction n generalizing buf src dst w fuel with
  | nil =>
    obtain ⟨fuel, rfl⟩ := Nat.exists_eq_add_of_lt hfuel
    refine ⟨buf, ?_, by rwa [List.append_nil]⟩
    rw [copyName, At.head h hc]
    exact if_neg hend
  | cons x n ih =>
    obtain ⟨fuel, rfl⟩ := Nat.exists_eq_add_of_lt hfuel
    obtain ⟨hstore, hat⟩ := At.write (show At buf src dst w (x :: (n ++ t)) from h) x
    obtain ⟨buf', hcopy, hat'⟩ := ih (n.length + 1 + fuel) hat (fun y hy => hn y (List.mem_cons_of_mem _ hy))
      (by omega)
    refine ⟨buf', ?_, ?_⟩
    · rw [List.length_cons, copyName, At.head h rfl]
      show (if x ≠ 0 ∧ x ≠ slash then _ else _) = _
      rw [if_pos (hn x List.mem_cons_self), hstore]
      show copyName _ _ _ _ = _
      rw [hcopy, Nat.add_right_comm src 1, Nat.add_assoc src, Nat.add_right_comm dst 1, Nat.add_assoc dst]
    · rw [List.append_assoc, Nat.add_right_comm, Nat.add_assoc, Nat.add_right_comm dst, Nat.add_assoc dst] at hat'
      exact hat'

theorem load_take {d : Nat} (h : buf.take d = l) (hi : l[i]? = some c) : load buf i = .ok c := by
  rw [← h, List.getElem?_take] at hi
  rw [load, (Option.ite_none_right_eq_some.mp hi).2]

theorem backUp_spec {n : Name} (hdone : buf.take (w ++ n).length = w ++ n) (hn : slash ∉ n)
    (hw : w = [] ∨ w.getLast? = some slash) : backUp buf (w ++ n).length = .ok w.length := by
  induction n using List.reverseRecOn with
  | nil =>
    rw [List.append_nil] at hdone ⊢
    rcases hw with rfl | hw
    · rfl
    · obtain ⟨w, rfl⟩ := List.getLast?_eq_some_iff.mp hw
      have hload : load buf w.length = .ok slash := load_take hdone (by simp)
      rw [List.length_append, List.length_singleton, backUp, loadBefore, hload]
      rfl
  | append_singleton n x ih =>
    have hload : load buf (w ++ n).length = .ok x := load_take hdone (by rw [← List.append_assoc]; simp)
    have hx : x ≠ slash := fun he => hn (he ▸ List.mem_append_right _ List.mem_cons_self)
    have hdone' : buf.take (w ++ n).length = w ++ n := by
      have htake := congrArg (List.take (w ++ n).length) hdone
      rwa [List.take_take, Nat.min_eq_left (by simp), ← List.append_assoc, List.take_left] at htake
    rw [← List.append_assoc, List.length_append, List.length_singleton, backUp, loadBefore, hload]
    show (if x ≠ slash then backUp buf (w ++ n).length else _) = _
    rw [if_pos hx, ih hdone' fun hmem => hn (List.mem_append_left _ hmem)]

/-- The test for a name of dots, at a name with `k` slashes behind it. -/
theorem dots_spec {n : Name} (h : At buf src dst w (n ++ (List.replicate k slash ++ t))) (hne : n ≠ [])
    (hn : ∀ x ∈ n, x ≠ 0 ∧ x ≠ slash) (ht : t.head? ≠ some slash) (hk : k = 0 → t = []) : dots buf src = .ok
      (if n = [dot] then if k = 0 then .copy (src + 1) else .next (src + 1 + k)
      else if n = [dot, dot] then .upOne (src + 2 + k) else .copy src) := by
  obtain ⟨x, n, rfl⟩ := List.exists_cons_of_ne_nil hne
  have hlen := h.length_eq
  rw [List.length_append, List.length_append, List.length_replicate] at hlen
  rw [dots, At.head h rfl]
  show (if x = dot then _ else _) = _
  by_cases hx : x = dot
  · obtain rfl := hx
    rw [if_pos rfl]
    cases n with
    | nil =>
      rw [if_pos rfl]
      cases k with
      | zero =>
        obtain rfl := hk rfl
        rw [At.load_eq h (i := 1) rfl]
        rfl
      | succ k =>
        have hskip := skipSlashes_spec buf.length
          (show At buf (src + 2) dst w (List.replicate k slash ++ t) from At.advance (x := [dot, slash]) h) ht
          (by omega)
        rw [At.load_eq h (i := 1) rfl]
        show (Except.map Branch.next (skipSlashes _ _ _)) = _
        have hsum : src + 2 + k = src + 1 + (k + 1) := by omega
        rw [hskip, hsum, if_neg (Nat.succ_ne_zero k)]
        rfl
    | cons y n =>
      obtain ⟨hy0, hys⟩ := hn y (by simp)
      rw [At.load_eq h (i := 1) rfl, if_neg (by simp)]
      show (if y = 0 then _ else if y = slash then _ else if y = dot then _ else _) = _
      rw [if_neg hy0, if_neg hys]
      by_cases hy : y = dot
      · obtain rfl := hy
        rw [if_pos rfl]
        cases n with
        | nil =>
          rw [if_pos rfl]
          cases k with
          | zero =>
            obtain rfl := hk rfl
            rw [At.load_eq h (i := 2) rfl]
            rfl
          | succ k =>
            have hskip := skipSlashes_spec buf.length
              (show At buf (src + 3) dst w (List.replicate k slash ++ t) from At.advance (x := [dot, dot, slash]) h) ht
              (by omega)
            rw [At.load_eq h (i := 2) rfl]
            show (Except.map Branch.upOne (skipSlashes _ _ _)) = _
            have hsum : src + 3 + k = src + 2 + (k + 1) := by omega
            rw [hskip, hsum]
            rfl
        | cons z n =>
          obtain ⟨hz0, hzs⟩ := hn z (by simp)
          rw [At.load_eq h (i := 2) rfl, if_neg (by simp)]
          show (if z = 0 then _ else if z = slash then _ else _) = _
          rw [if_neg hz0, if_neg hzs]
          rfl
      · rw [if_neg hy, if_neg (fun he => hy (List.cons.inj (List.cons.inj he).2).1)]
        rfl
  · rw [if_neg hx, if_neg (fun he => hx (List.cons.inj he).1), if_neg (fun he => hx (List.cons.inj he).1)]
    rfl

end cursors

/-! ## Names -/

section names

variable {p q : Place} {c n : Name} {cs dirs : List Name} {t l : List UInt8} {k : Nat}

/-- A name that a path can keep. -/
structure Ordinary (c : Name) : Prop where
  ne_nil : c ≠ []
  ne_dot : c ≠ [dot]
  ne_dots : c ≠ [dot, dot]
  no_slash : slash ∉ c

theorem mem_splitOn (hc : c ∈ t.splitOn slash) : slash ∉ c ∧ ∀ x ∈ c, x ∈ t := by
  induction t generalizing c with
  | nil =>
    obtain rfl : c = [] := by simpa using hc
    simp
  | cons a t ih =>
    rw [List.splitOn_cons_eq_if_modifyHead] at hc
    by_cases ha : a = slash
    · rw [if_pos (by simpa using ha)] at hc
      rcases List.mem_cons.mp hc with rfl | hc
      · simp
      · obtain ⟨hno, hmem⟩ := ih hc
        exact ⟨hno, fun x hx => List.mem_cons_of_mem _ (hmem x hx)⟩
    · rw [if_neg (by simpa using ha)] at hc
      cases hsplit : t.splitOn slash with
      | nil => exact absurd hsplit (List.splitOn_ne_nil _ _)
      | cons d ds =>
        rw [hsplit, List.modifyHead_cons] at hc
        rcases List.mem_cons.mp hc with rfl | hc
        · obtain ⟨hno, hmem⟩ := ih (hsplit ▸ List.mem_cons_self)
          refine ⟨fun hs => ?_, fun x hx => ?_⟩
          · rcases List.mem_cons.mp hs with hs | hs
            · exact ha hs.symm
            · exact hno hs
          · rcases List.mem_cons.mp hx with rfl | hx
            · exact List.mem_cons_self
            · exact List.mem_cons_of_mem _ (hmem x hx)
        · obtain ⟨hno, hmem⟩ := ih (hsplit ▸ List.mem_cons_of_mem _ hc)
          exact ⟨hno, fun x hx => List.mem_cons_of_mem _ (hmem x hx)⟩

theorem mem_names (hc : c ∈ names t) : c ≠ [] ∧ slash ∉ c ∧ ∀ x ∈ c, x ∈ t := by
  obtain ⟨hc, hne⟩ := List.mem_filter.mp hc
  exact ⟨of_decide_eq_true hne, mem_splitOn hc⟩

@[simp] theorem names_nil : names [] = [] := rfl

theorem names_append (t l : List UInt8) : names (t ++ slash :: l) = names t ++ names l := by
  rw [names, List.splitOn_append_cons_self, List.filter_append]
  rfl

theorem names_slashes (k : Nat) (t : List UInt8) : names (List.replicate k slash ++ t) = names t := by
  induction k with
  | zero => rfl
  | succ k ih =>
    rw [List.replicate_succ, List.cons_append, ← List.nil_append (slash :: _), names_append, ih]
    rfl

theorem names_self (hne : n ≠ []) (hn : slash ∉ n) : names n = [n] := by
  rw [names, List.splitOn_eq_singleton hn, List.filter_cons_of_pos (by simpa using hne), List.filter_nil]

theorem names_cons (hne : n ≠ []) (hn : slash ∉ n) (hk : k = 0 → t = []) :
    names (n ++ (List.replicate k slash ++ t)) = n :: names t := by
  cases k with
  | zero =>
    obtain rfl := hk rfl
    rw [List.replicate_zero, List.append_nil, List.append_nil, names_self hne hn, names_nil]
  | succ k =>
    rw [List.replicate_succ, List.cons_append, names_append, names_self hne hn, names_slashes]
    rfl

theorem leading_slashes (l : List UInt8) : ∃ k t, l = List.replicate k slash ++ t ∧ t.head? ≠ some slash ∧
    (k = 0 → l.head? ≠ some slash) := by
  induction l with
  | nil => exact ⟨0, [], rfl, by simp, fun _ => by simp⟩
  | cons x l ih =>
    by_cases hx : x = slash
    · obtain ⟨k, t, rfl, ht, -⟩ := ih
      exact ⟨k + 1, t, by rw [hx, List.replicate_succ, List.cons_append], ht, fun hk => absurd hk (Nat.succ_ne_zero k)⟩
    · have hhead : (x :: l).head? ≠ some slash := fun he => hx (Option.some.inj he)
      exact ⟨0, x :: l, rfl, hhead, fun _ => hhead⟩

/-- A path that begins with a name: the name, the slashes behind it, and the rest. -/
theorem first_name (hne : t ≠ []) (ht : t.head? ≠ some slash) : ∃ n k l, t = n ++ (List.replicate k slash ++ l) ∧
    n ≠ [] ∧ slash ∉ n ∧ l.head? ≠ some slash ∧ (k = 0 → l = []) := by
  have hsplit := List.takeWhile_append_dropWhile (p := (· ≠ slash)) (l := t)
  obtain ⟨k, l, hl, hhead, hk⟩ := leading_slashes (t.dropWhile (· ≠ slash))
  refine ⟨t.takeWhile (· ≠ slash), k, l, by rw [← hl, hsplit], ?_, ?_, hhead, ?_⟩
  · obtain ⟨x, t, rfl⟩ := List.exists_cons_of_ne_nil hne
    have hx : x ≠ slash := fun he => ht (by rw [he]; rfl)
    rw [List.takeWhile_cons_of_pos (by simpa using hx)]
    exact List.cons_ne_nil _ _
  · intro hmem
    have := List.mem_takeWhile_imp hmem
    simp at this
  · rintro rfl
    have hnot := List.head?_dropWhile_not (· ≠ slash) t
    cases hd : t.dropWhile (· ≠ slash) with
    | nil => exact hl.symm.trans hd
    | cons x r =>
      rw [hd] at hnot hk
      have hx : x = slash := by simpa using hnot
      exact absurd (by rw [hx]; rfl) (hk rfl)

/-! ## The walk -/

theorem walk_cons : p.walk (c :: cs) = (p.enter c).walk cs := rfl

theorem walk_append (cs ds : List Name) : p.walk (cs ++ ds) = (p.walk cs).walk ds := List.foldl_append

theorem enter_ups (p : Place) (c : Name) : p.ups ≤ (p.enter c).ups := by
  unfold Place.enter
  split_ifs <;> simp

theorem walk_ups (cs : List Name) (p : Place) : p.ups ≤ (p.walk cs).ups := by
  induction cs generalizing p with
  | nil => exact Nat.le_refl _
  | cons c cs ih => exact Nat.le_trans (enter_ups p c) (ih _)

theorem enter_ordinary (hc : Ordinary c) : p.enter c = { p with dirs := p.dirs ++ [c] } := by
  rw [Place.enter, if_neg hc.ne_dot, if_neg hc.ne_dots]

theorem walk_ordinary (hcs : ∀ c ∈ cs, Ordinary c) : p.walk cs = { p with dirs := p.dirs ++ cs } := by
  induction cs generalizing p with
  | nil =>
    rw [List.append_nil]
    rfl
  | cons c cs ih =>
    rw [walk_cons, enter_ordinary (hcs c List.mem_cons_self), ih fun d hd => hcs d (List.mem_cons_of_mem _ hd)]
    simp

theorem enter_dirs (hp : ∀ d ∈ p.dirs, Ordinary d) (hne : c ≠ []) (hc : slash ∉ c) :
    ∀ d ∈ (p.enter c).dirs, Ordinary d := by
  intro d hd
  unfold Place.enter at hd
  split_ifs at hd with hdot hdots hroot
  · exact hp d hd
  · exact hp d hd
  · exact hp d (List.dropLast_subset _ hd)
  · rcases List.mem_append.mp hd with hd | hd
    · exact hp d hd
    · obtain rfl := List.mem_singleton.mp hd
      exact ⟨hne, hdot, hdots, hc⟩

theorem walk_dirs (hp : ∀ d ∈ p.dirs, Ordinary d) (hcs : ∀ c ∈ cs, c ≠ [] ∧ slash ∉ c) :
    ∀ d ∈ (p.walk cs).dirs, Ordinary d := by
  induction cs generalizing p with
  | nil => exact hp
  | cons c cs ih =>
    obtain ⟨hne, hc⟩ := hcs c List.mem_cons_self
    exact ih (enter_dirs hp hne hc) fun d hd => hcs d (List.mem_cons_of_mem _ hd)

theorem walk_mem (p : Place) (cs : List Name) : ∀ d ∈ (p.walk cs).dirs, d ∈ p.dirs ∨ d ∈ cs := by
  induction cs generalizing p with
  | nil => exact fun d hd => .inl hd
  | cons c cs ih =>
    intro d hd
    rcases ih (p.enter c) d hd with hd | hd
    · unfold Place.enter at hd
      split_ifs at hd
      · exact .inl hd
      · exact .inl hd
      · exact .inl (List.dropLast_subset _ hd)
      · rcases List.mem_append.mp hd with hd | hd
        · exact .inl hd
        · exact .inr (List.mem_cons.mpr (.inl (List.mem_singleton.mp hd)))
    · exact .inr (List.mem_cons_of_mem _ hd)

/-! ## Canonical paths -/

theorem canonical_render (hdirs : ∀ d ∈ dirs, Ordinary d) : Canonical (render dirs) := by
  by_cases hnil : dirs = []
  · exact .inl (by rw [hnil]; rfl)
  · refine .inr ⟨[slash].intercalate dirs, rfl, fun c hc => ?_⟩
    rw [List.splitOn_intercalate slash (fun d hd => (hdirs d hd).no_slash) hnil] at hc
    exact ⟨(hdirs c hc).ne_nil, (hdirs c hc).ne_dot, (hdirs c hc).ne_dots⟩

theorem names_render (hdirs : ∀ d ∈ dirs, Ordinary d) : names (render dirs) = dirs := by
  have hrest : names ([slash].intercalate dirs) = dirs := by
    by_cases hnil : dirs = []
    · rw [hnil]
      rfl
    · rw [names, List.splitOn_intercalate slash (fun d hd => (hdirs d hd).no_slash) hnil, List.filter_eq_self]
      exact fun d hd => by simpa using (hdirs d hd).ne_nil
  rw [render, ← List.nil_append (slash :: _), names_append, hrest]
  rfl

theorem Canonical.eq_render (h : Canonical t) : ∃ dirs, (∀ d ∈ dirs, Ordinary d) ∧ t = render dirs := by
  rcases h with rfl | ⟨rest, rfl, h⟩
  · exact ⟨[], fun d hd => absurd hd List.not_mem_nil, rfl⟩
  · refine ⟨rest.splitOn slash, fun d hd => ?_, by rw [render, List.intercalate_splitOn]⟩
    obtain ⟨hne, hdot, hdots⟩ := h d hd
    exact ⟨hne, hdot, hdots, (mem_splitOn hd).1⟩

end names

/-! ## The loop -/

section loop

variable {buf : List UInt8} {src dst k : Nat} {t w : List UInt8} {n : Name} {p : Place}

theorem rounds_end {src' : Nat} (fuel : Nat) (hdots : dots buf src = .ok (.copy src')) (h : At buf src' dst w n)
    (hn : ∀ x ∈ n, x ≠ 0 ∧ x ≠ slash) : ∃ buf', rounds (fuel + 1) buf src dst = .ok (some (buf', dst + n.length)) ∧
      buf'.take (dst + n.length) = w ++ n ∧ dst + n.length < buf'.length := by
  have hlen := h.length_eq
  obtain ⟨buf', hcopy, hat⟩ := copyName_spec (t := []) (c := 0) buf.length (by rwa [List.append_nil]) hn rfl
    (by simp) (by omega)
  refine ⟨buf', ?_, hat.done, ?_⟩
  · rw [rounds, hdots]
    show (copyName buf.length buf src' dst >>= _) = _
    rw [hcopy]
    rfl
  · have hlen' := hat.length_eq
    have hle := hat.le
    omega

theorem rounds_name (fuel : Nat) (hdots : dots buf src = .ok (.copy src))
    (h : At buf src dst w (n ++ (List.replicate (k + 1) slash ++ t))) (hn : ∀ x ∈ n, x ≠ 0 ∧ x ≠ slash)
    (ht : t.head? ≠ some slash) : ∃ buf', rounds (fuel + 1) buf src dst =
      rounds fuel buf' (src + n.length + 1 + k) (dst + n.length + 1) ∧
        At buf' (src + n.length + 1 + k) (dst + n.length + 1) (w ++ n ++ [slash]) t := by
  have hlen := h.length_eq
  rw [List.length_append] at hlen
  obtain ⟨buf', hcopy, hat⟩ := copyName_spec (c := slash) buf.length h hn rfl (by simp) (by omega)
  obtain ⟨hstore, hat'⟩ : store buf' (dst + n.length) slash = _ ∧ At _ _ _ _ (List.replicate k slash ++ t) :=
    hat.write slash
  have hlen' := hat'.length_eq
  rw [List.length_append, List.length_replicate] at hlen'
  have hskip := skipSlashes_spec (buf'.set (dst + n.length) slash).length hat' ht (by omega)
  refine ⟨buf'.set (dst + n.length) slash, ?_, ?_⟩
  · rw [rounds, hdots]
    show (copyName buf.length buf src dst >>= _) = _
    rw [hcopy]
    show (store buf' (dst + n.length) slash >>= _) = _
    rw [hstore]
    show (skipSlashes _ _ (src + n.length + 1) >>= _) = _
    rw [hskip]
    rfl
  · have hadvance := hat'.advance
    rwa [List.length_replicate] at hadvance

/-- What `dst` has written of a place. -/
def Place.written (p : Place) : List UInt8 := (if p.ups = 0 then [slash] else []) ++ p.dirs.flatMap (· ++ [slash])

theorem written_concat (ups : Nat) (dirs : List Name) (c : Name) : Place.written ⟨ups, dirs ++ [c]⟩ =
    Place.written ⟨ups, dirs⟩ ++ c ++ [slash] := by
  simp [Place.written]

theorem written_last (p : Place) : p.written = [] ∨ p.written.getLast? = some slash := by
  obtain ⟨ups, dirs⟩ := p
  rcases List.eq_nil_or_concat dirs with rfl | ⟨dirs, c, rfl⟩
  · by_cases hups : ups = 0
    · exact .inr (by simp [Place.written, hups])
    · exact .inl (by simp [Place.written, hups])
  · exact .inr (by rw [List.concat_eq_append, written_concat, List.getLast?_concat])

theorem written_eq_nil : p.written = [] ↔ p.ups ≠ 0 ∧ p.dirs = [] := by
  obtain ⟨ups, dirs⟩ := p
  cases dirs <;> by_cases hups : ups = 0 <;> simp [Place.written, hups]

/-- What the loop leaves of a place; the slash behind the last name may be missing. -/
def Text (p : Place) (w : List UInt8) : Prop := w = p.written ∨ p.dirs ≠ [] ∧ w ++ [slash] = p.written

/-- The result of the loop. -/
inductive Outcome (p : Place) : Except Fault (Option (List UInt8 × Nat)) → Prop
  | null (h : 2 ≤ p.ups) : Outcome p (.ok none)
  | done (h : p.ups ≤ 1) (buf : List UInt8) (dst : Nat) (hlt : dst < buf.length) (htext : Text p (buf.take dst)) :
      Outcome p (.ok (some (buf, dst)))

theorem up_spec (h : At buf src dst p.written t) (hp : p.ups ≤ 1) (hdirs : ∀ d ∈ p.dirs, slash ∉ d) (hdst : dst ≠ 0) :
    (p.enter [dot, dot]).ups ≤ 1 ∧ ∃ dst', backUp buf (dst - 1) = .ok dst' ∧
      At buf src dst' (p.enter [dot, dot]).written t := by
  have hlen := h.dst_eq
  have hle := h.le
  obtain ⟨ups, dirs⟩ := p
  rcases List.eq_nil_or_concat dirs with rfl | ⟨dirs, c, rfl⟩
  · have hups : ups = 0 := by
      by_contra hups
      rw [written_eq_nil.mpr ⟨hups, rfl⟩] at hlen
      exact hdst hlen.symm
    obtain rfl := hups
    obtain rfl : dst = 1 := hlen.symm
    exact ⟨Nat.le_refl 1, 0, rfl, rfl, h.rest, Nat.zero_le _⟩
  · have hdone := h.done
    rw [List.concat_eq_append] at *
    rw [written_concat] at hlen hdone
    have henter : (Place.mk ups (dirs ++ [c])).enter [dot, dot] = ⟨ups, dirs⟩ := by
      rw [Place.enter, if_neg (by decide), if_pos rfl, if_neg (by simp), List.dropLast_concat]
    have hpred : dst - 1 = ((Place.mk ups dirs).written ++ c).length := by
      rw [List.length_append, List.length_singleton] at hlen
      omega
    have hdone' : buf.take ((Place.mk ups dirs).written ++ c).length = (Place.mk ups dirs).written ++ c := by
      have htake := congrArg (List.take ((Place.mk ups dirs).written ++ c).length) hdone
      rwa [List.take_take, Nat.min_eq_left (by omega), List.take_left] at htake
    rw [henter, hpred]
    refine ⟨hp, _, backUp_spec hdone' (hdirs c (by simp)) (written_last _), ?_, h.rest, ?_⟩
    · have htake := congrArg (List.take (Place.mk ups dirs).written.length) hdone'
      rwa [List.take_take, Nat.min_eq_left (by simp), List.take_left] at htake
    · rw [List.length_append] at hpred
      omega

theorem rounds_spec (h : At buf src dst p.written t) (h0 : 0 ∉ t) (ht : t.head? ≠ some slash) (hp : p.ups ≤ 1)
    (hdirs : ∀ d ∈ p.dirs, slash ∉ d) {fuel : Nat} (hfuel : t.length < fuel) :
    Outcome (p.walk (names t)) (rounds fuel buf src dst) := by
  induction fuel generalizing buf src dst t p with
  | zero => omega
  | succ fuel ih =>
    by_cases hnil : t = []
    · obtain rfl := hnil
      have hdots : dots buf src = .ok (.copy src) := by
        rw [dots, h.head rfl]
        rfl
      obtain ⟨buf', hrounds, htake, hlt⟩ := rounds_end (n := []) fuel hdots h (by simp)
      rw [hrounds]
      refine .done hp _ _ hlt (.inl ?_)
      rw [htake, List.append_nil]
    obtain ⟨n, k, l, rfl, hne, hslash, hl, hk⟩ := first_name hnil ht
    have hn (x : UInt8) (hx : x ∈ n) : x ≠ 0 ∧ x ≠ slash :=
      ⟨fun he => h0 (he ▸ List.mem_append_left _ hx), fun he => hslash (he ▸ hx)⟩
    have h0l : 0 ∉ l := fun hx => h0 (List.mem_append_right _ (List.mem_append_right _ hx))
    have hpos : 0 < n.length := List.length_pos_iff.mpr hne
    rw [List.length_append, List.length_append, List.length_replicate] at hfuel
    have hdots := dots_spec h hne hn hl hk
    rw [names_cons hne hslash hk, walk_cons]
    by_cases hdot : n = [dot]
    · -- a single dot is left out
      obtain rfl := hdot
      rw [if_pos rfl] at hdots
      by_cases hk0 : k = 0
      · obtain rfl := hk0
        obtain rfl := hk rfl
        obtain ⟨buf', hrounds, htake, hlt⟩ := rounds_end (n := []) fuel hdots
          (At.advance (x := [dot]) h) (by simp)
        rw [hrounds]
        exact .done hp _ _ hlt (.inl (by rw [htake, List.append_nil]))
      · rw [if_neg hk0] at hdots
        rw [rounds, hdots]
        exact ih (At.skip (x := [dot]) h) h0l hl hp hdirs (by omega)
    by_cases hup : n = [dot, dot]
    · obtain rfl := hup
      rw [if_neg (by decide), if_pos rfl] at hdots
      rw [rounds, hdots]
      show Outcome _ (if dst = 0 then _ else _)
      by_cases hdst : dst = 0
      · -- the second one at the root
        rw [if_pos hdst]
        have hw : p.written = [] := List.eq_nil_of_length_eq_zero (by rw [h.dst_eq, hdst])
        obtain ⟨hups, hroot⟩ := written_eq_nil.mp hw
        refine .null (Nat.le_trans ?_ (walk_ups _ _))
        rw [Place.enter, if_neg (by decide), if_pos rfl, if_pos hroot]
        show 2 ≤ p.ups + 1
        omega
      · rw [if_neg hdst]
        obtain ⟨hups, dst', hback, hat'⟩ := up_spec (At.skip (x := [dot, dot]) h) hp hdirs hdst
        rw [hback]
        refine ih hat' h0l hl hups (fun d hd => ?_) (by omega)
        rw [Place.enter, if_neg (by decide), if_pos rfl] at hd
        split_ifs at hd
        · exact hdirs d hd
        · exact hdirs d (List.dropLast_subset _ hd)
    · rw [if_neg hdot, if_neg hup] at hdots
      have henter := enter_ordinary (p := p) ⟨hne, hdot, hup, hslash⟩
      have hwritten : (p.enter n).written = p.written ++ n ++ [slash] := by rw [henter, written_concat]
      by_cases hk0 : k = 0
      · obtain rfl := hk0
        obtain rfl := hk rfl
        rw [List.replicate_zero, List.append_nil, List.append_nil] at h
        obtain ⟨buf', hrounds, htake, hlt⟩ := rounds_end fuel hdots h hn
        rw [hrounds]
        refine .done ?_ _ _ hlt (.inr ⟨?_, ?_⟩)
        · exact (congrArg Place.ups henter).trans_le hp
        · show (p.enter n).dirs ≠ []
          rw [henter]
          simp
        · rw [htake]
          exact hwritten.symm
      · obtain ⟨k, rfl⟩ := Nat.exists_eq_succ_of_ne_zero hk0
        obtain ⟨buf', hrounds, hat⟩ := rounds_name fuel hdots h hn hl
        rw [hrounds]
        rw [← hwritten] at hat
        refine ih hat h0l hl ((congrArg Place.ups henter).trans_le hp) (fun d hd => ?_) (by omega)
        rw [henter] at hd
        rcases List.mem_append.mp hd with hd | hd
        · exact hdirs d hd
        · exact List.mem_singleton.mp hd ▸ hslash

end loop

/-! ## The result -/

section result

variable {buf : List UInt8} {dst : Nat} {w : List UInt8} {p : Place} {directory filename : List UInt8}

theorem takeWhile_nul (hw : buf.take dst = w) (hnul : buf[dst]? = some 0) (h0 : 0 ∉ w) :
    buf.takeWhile (· ≠ 0) = w := by
  obtain ⟨hlt, hget⟩ := List.getElem?_eq_some_iff.mp hnul
  have hsplit := List.take_append_drop dst buf
  rw [hw, List.drop_eq_getElem_cons hlt, hget] at hsplit
  have hne (x : UInt8) (hx : x ∈ w) : decide (x ≠ 0) = true := decide_eq_true fun he => h0 (he ▸ hx)
  rw [← hsplit, List.takeWhile_append_of_pos hne, List.takeWhile_cons_of_neg (by simp), List.append_nil]

theorem finish_outside (hlt : 0 < buf.length) : finish buf 0 = .error .outside := by
  rw [finish, store, if_pos hlt]
  rfl

theorem checkEmpty_eq (hw : buf.take dst = w) (h0 : 0 ∉ w) (hne : w ≠ []) : checkEmpty buf = .ok buf := by
  obtain ⟨x, w, rfl⟩ := List.exists_cons_of_ne_nil hne
  have hload : load buf 0 = .ok x := load_take hw rfl
  have hx : x ≠ 0 := fun he => h0 (he ▸ List.mem_cons_self)
  rw [checkEmpty, hload]
  exact if_neg hx

theorem finish_spec (hw : buf.take dst = w) (hlt : dst < buf.length) (h0 : 0 ∉ w) (hne : w ≠ []) : ∃ buf',
    finish buf dst = .ok buf' ∧
      buf'.takeWhile (· ≠ 0) = if w ≠ [slash] ∧ w.getLast? = some slash then w.dropLast else w := by
  have hlen : w.length = dst := by rw [← hw, List.length_take_of_le (Nat.le_of_lt hlt)]
  have hstore : store buf dst 0 = .ok (buf.set dst 0) := if_pos hlt
  have htake : (buf.set dst 0).take dst = w := by rw [List.take_set_of_le (Nat.le_refl _), hw]
  have hnul : (buf.set dst 0)[dst]? = some 0 := List.getElem?_set_self hlt
  obtain ⟨v, x, rfl⟩ := (List.eq_nil_or_concat w).resolve_left hne
  rw [List.concat_eq_append] at *
  rw [List.length_append, List.length_singleton] at hlen
  obtain rfl := hlen
  have hload : loadBefore (buf.set (v.length + 1) 0) (v.length + 1) = .ok x := load_take htake (by simp)
  rw [finish, hstore]
  show ∃ buf', (removeSlash _ _ >>= checkEmpty) = _ ∧ _
  by_cases hcut : v ++ [x] ≠ [slash] ∧ (v ++ [x]).getLast? = some slash
  · obtain ⟨hroot, hlast⟩ := hcut
    obtain rfl : x = slash := by simpa using hlast
    have hv : v ≠ [] := by
      rintro rfl
      exact hroot rfl
    have hpos := List.length_pos_iff.mpr hv
    have hremove : removeSlash (buf.set (v.length + 1) 0) (v.length + 1) =
        .ok ((buf.set (v.length + 1) 0).set v.length 0) := by
      rw [removeSlash, if_neg (by omega), hload]
      exact if_pos (by rw [List.length_set]; omega)
    have htake' : ((buf.set (v.length + 1) 0).set v.length 0).take v.length = v := by
      have hcut := congrArg (List.take v.length) htake
      rw [List.take_take, Nat.min_eq_left (Nat.le_succ _), List.take_left] at hcut
      rw [List.take_set_of_le (Nat.le_refl _), hcut]
    have h0v : 0 ∉ v := fun hx => h0 (List.mem_append_left _ hx)
    rw [hremove]
    refine ⟨_, checkEmpty_eq htake' h0v hv, ?_⟩
    rw [if_pos ⟨hroot, hlast⟩, List.dropLast_concat]
    exact takeWhile_nul htake' (List.getElem?_set_self (by rw [List.length_set]; omega)) h0v
  · have hremove : removeSlash (buf.set (v.length + 1) 0) (v.length + 1) = .ok (buf.set (v.length + 1) 0) := by
      by_cases hone : v.length + 1 = 1
      · exact if_pos hone
      · rw [removeSlash, if_neg hone, hload]
        refine if_neg fun hx => hcut ⟨fun he => hone ?_, by rw [hx, List.getLast?_concat]⟩
        simpa using congrArg List.length he
    rw [hremove]
    refine ⟨_, checkEmpty_eq htake h0 hne, ?_⟩
    rw [if_neg hcut]
    exact takeWhile_nul htake hnul h0

theorem flatMap_concat (dirs : List Name) (c : Name) :
    dirs.flatMap (· ++ [slash]) ++ c = [slash].intercalate (dirs ++ [c]) := by
  induction dirs with
  | nil => rw [List.flatMap_nil, List.nil_append, List.nil_append, List.intercalate_singleton]
  | cons d dirs ih =>
    rw [List.flatMap_cons, List.append_assoc, ih, List.cons_append, List.intercalate_cons_of_ne_nil (by simp)]

theorem text_trimmed (h : Text p w) (hne : w ≠ []) (hdirs : ∀ d ∈ p.dirs, Ordinary d) :
    (if w ≠ [slash] ∧ w.getLast? = some slash then w.dropLast else w) =
      (if p.ups = 0 then [slash] else []) ++ [slash].intercalate p.dirs := by
  obtain ⟨ups, dirs⟩ := p
  rcases List.eq_nil_or_concat dirs with rfl | ⟨dirs, c, rfl⟩
  · rcases h with rfl | ⟨hnil, -⟩
    · obtain rfl : ups = 0 := by
        by_contra hups
        exact hne (written_eq_nil.mpr ⟨hups, rfl⟩)
      rfl
    · exact absurd rfl hnil
  · rw [List.concat_eq_append] at *
    have hc := hdirs c (by simp)
    have hgoal : (if ups = 0 then [slash] else []) ++ [slash].intercalate (dirs ++ [c]) =
        Place.written ⟨ups, dirs⟩ ++ c := by
      rw [← flatMap_concat, ← List.append_assoc]
      rfl
    obtain ⟨d, x, rfl⟩ := (List.eq_nil_or_concat c).resolve_left hc.ne_nil
    rw [List.concat_eq_append] at *
    show _ = (if ups = 0 then [slash] else []) ++ [slash].intercalate (dirs ++ [d ++ [x]])
    rw [hgoal]
    rcases h with rfl | ⟨-, hw⟩
    · have hlong : (Place.mk ups (dirs ++ [d ++ [x]])).written ≠ [slash] := by
        intro he
        have hlen := congrArg List.length he
        simp only [written_concat, List.length_append, List.length_singleton] at hlen
        omega
      rw [if_pos ⟨hlong, by rw [written_concat, List.getLast?_concat]⟩, written_concat, List.dropLast_concat]
    · rw [written_concat] at hw
      obtain rfl := List.append_cancel_right hw
      refine if_neg fun hlast => hc.no_slash ?_
      have hx := hlast.2
      rw [← List.append_assoc, List.getLast?_concat] at hx
      rw [Option.some.inj hx]
      simp

theorem text_nil (h : Text p []) (hdirs : ∀ d ∈ p.dirs, Ordinary d) : p.ups ≠ 0 ∧ p.dirs = [] := by
  rcases h with h | ⟨hne, h⟩
  · exact written_eq_nil.mp h.symm
  · obtain ⟨ups, dirs⟩ := p
    obtain ⟨dirs, c, rfl⟩ := (List.eq_nil_or_concat dirs).resolve_left hne
    rw [List.concat_eq_append] at *
    have hpos := List.length_pos_iff.mpr (hdirs c (by simp)).ne_nil
    have hlen := congrArg List.length h
    rw [written_concat, List.nil_append, List.length_append, List.length_append] at hlen
    omega

theorem mem_written {x : UInt8} (hx : x ∈ p.written) : x = slash ∨ ∃ d ∈ p.dirs, x ∈ d := by
  rcases List.mem_append.mp hx with hx | hx
  · split_ifs at hx
    · exact .inl (List.mem_singleton.mp hx)
    · exact absurd hx List.not_mem_nil
  · obtain ⟨d, hd, hx⟩ := List.mem_flatMap.mp hx
    rcases List.mem_append.mp hx with hx | hx
    · exact .inr ⟨d, hd, hx⟩
    · exact .inl (List.mem_singleton.mp hx)

theorem Text.not_mem_nul (h : Text p w) (h0 : ∀ d ∈ p.dirs, 0 ∉ d) : 0 ∉ w := by
  intro hx
  have hmem : 0 ∈ p.written := by
    rcases h with hw | ⟨-, hw⟩
    · rwa [← hw]
    · rw [← hw]
      exact List.mem_append_left _ hx
  rcases mem_written hmem with h | ⟨d, hd, hx⟩
  · exact absurd h (by decide)
  · exact h0 d hd hx

theorem Text.dirs_ne_nil (h : Text p w) (hne : w ≠ []) (hups : p.ups ≠ 0) : p.dirs ≠ [] := by
  intro hroot
  rcases h with hw | ⟨hdirs, -⟩
  · exact hne (hw.trans (written_eq_nil.mpr ⟨hups, hroot⟩))
  · exact hdirs hroot

/-- What follows the loop, when the place is not above the level above the root. -/
theorem finish_text (hlt : dst < buf.length) (h : Text p (buf.take dst)) (hups : p.ups ≤ 1)
    (hdirs : ∀ d ∈ p.dirs, Ordinary d) (h0 : ∀ d ∈ p.dirs, 0 ∉ d) :
    (finish buf dst).map (List.takeWhile (· ≠ 0)) =
      if p.ups = 1 then
        if p.dirs = [] then .error .outside else .ok ([slash].intercalate p.dirs)
      else .ok (render p.dirs) := by
  by_cases hnil : buf.take dst = []
  · -- `dst` is at the start of the buffer
    rw [hnil] at h
    obtain ⟨hne, hroot⟩ := text_nil h hdirs
    obtain rfl : dst = 0 := by
      have := congrArg List.length hnil
      rw [List.length_take_of_le (Nat.le_of_lt hlt)] at this
      exact this
    rw [if_pos (by omega), if_pos hroot, finish_outside hlt]
    rfl
  · obtain ⟨buf', hfinish, hstring⟩ := finish_spec rfl hlt (h.not_mem_nul h0) hnil
    rw [text_trimmed h hnil hdirs] at hstring
    rw [hfinish]
    show Except.ok (buf'.takeWhile (· ≠ 0)) = _
    rw [hstring]
    by_cases hone : p.ups = 1
    · rw [if_pos hone, if_neg (h.dirs_ne_nil hnil (by omega)), if_neg (by omega)]
      rfl
    · rw [if_neg hone, if_pos (by omega)]
      rfl

theorem resolve_eq_walk_joined {dirs : List Name} (hdirs : ∀ d ∈ dirs, Ordinary d) :
    resolve (render dirs) filename = (⟨0, []⟩ : Place).walk (names (joined (render dirs) filename)) := by
  rw [resolve, joined]
  split_ifs
  · have hstart : (⟨0, []⟩ : Place).walk dirs = ⟨0, dirs⟩ := walk_ordinary hdirs
    rw [names_append, names_render hdirs, walk_append, hstart]
  · rfl

theorem joined_not_mem_nul (h0 : 0 ∉ directory) (h0' : 0 ∉ filename) : 0 ∉ joined directory filename := by
  rw [joined]
  split_ifs
  · intro hx
    rcases List.mem_append.mp hx with hx | hx
    · exact h0 hx
    · exact h0' (List.mem_of_ne_of_mem (by decide) hx)
  · exact h0'

theorem joined_head {dirs : List Name} : (joined (render dirs) filename).head? = some slash := by
  rw [joined]
  split_ifs with hf
  · rfl
  · exact not_not.mp hf

theorem dfsNormalizePath_eq (hdir : Canonical directory) (h0 : 0 ∉ directory) (h0' : 0 ∉ filename) :
    dfsNormalizePath directory filename =
      if 2 ≤ (resolve directory filename).ups then .ok none
      else if (resolve directory filename).ups = 1 then
        if (resolve directory filename).dirs = [] then .error .outside
        else .ok (some ([slash].intercalate (resolve directory filename).dirs))
      else .ok (some (render (resolve directory filename).dirs)) := by
  obtain ⟨dirs, hords, rfl⟩ := hdir.eq_render
  have h0j := joined_not_mem_nul h0 h0'
  have hhead : (joined (render dirs) filename).head? = some slash := joined_head
  rw [resolve_eq_walk_joined hords, dfsNormalizePath]
  generalize joined (render dirs) filename = path at h0j hhead
  -- the first round copies the leading slash
  obtain ⟨k, t, rfl, ht, hk⟩ := leading_slashes path
  obtain ⟨k, rfl⟩ := Nat.exists_eq_succ_of_ne_zero fun hk0 => hk hk0 hhead
  have h0t : 0 ∉ t := fun hx => h0j (List.mem_append_right _ hx)
  rw [names_slashes]
  have hstart : At (List.replicate (k + 1) slash ++ t ++ [0]) 0 0 [] ([] ++ (List.replicate (k + 1) slash ++ t)) :=
    ⟨rfl, rfl, Nat.le_refl 0⟩
  obtain ⟨buf, hround, hat⟩ :=
    rounds_name (n := []) ((List.replicate (k + 1) slash ++ t).length) rfl hstart (by simp) ht
  have hlen : (List.replicate (k + 1) slash ++ t).length = k + 1 + t.length := by simp
  have hout := rounds_spec (p := ⟨0, []⟩) hat h0t ht (Nat.zero_le 1) (fun d hd => absurd hd List.not_mem_nil)
    (show t.length < (List.replicate (k + 1) slash ++ t).length by omega)
  rw [← hround, ← List.length_singleton (a := (0 : UInt8)), ← List.length_append] at hout
  have hords' : ∀ d ∈ ((⟨0, []⟩ : Place).walk (names t)).dirs, Ordinary d :=
    walk_dirs (fun d hd => absurd hd List.not_mem_nil) fun c hc => ⟨(mem_names hc).1, (mem_names hc).2.1⟩
  have h0d : ∀ d ∈ ((⟨0, []⟩ : Place).walk (names t)).dirs, 0 ∉ d := by
    intro d hd hx
    rcases walk_mem _ _ d hd with hd | hd
    · exact absurd hd List.not_mem_nil
    · exact h0t ((mem_names hd).2.2 0 hx)
  generalize (⟨0, []⟩ : Place).walk (names t) = q at hout hords' h0d
  generalize rounds _ _ 0 0 = r at hout
  cases hout with
  | null hups =>
    rw [if_pos hups]
    rfl
  | done hups buf dst hlt htext =>
    rw [if_neg (by omega)]
    have hbind : (finish buf dst >>= fun x => Except.ok (some (x.takeWhile (· ≠ 0)))) =
        ((finish buf dst).map (List.takeWhile (· ≠ 0))).map some := by
      cases finish buf dst <;> rfl
    rw [finish_text hlt htext hups hords' h0d] at hbind
    refine hbind.trans ?_
    split_ifs <;> rfl

theorem resolve_render {dirs : List Name} (hdirs : ∀ d ∈ dirs, Ordinary d) (directory : List UInt8) :
    resolve directory (render dirs) = ⟨0, dirs⟩ := by
  rw [resolve, if_neg (by simp [render]), names_render hdirs, walk_ordinary hdirs]
  rfl

theorem normalize_render {dirs : List Name} (hdirs : ∀ d ∈ dirs, Ordinary d) (h0 : 0 ∉ render dirs)
    (directory : List UInt8) : dfsNormalizePath directory (render dirs) = .ok (some (render dirs)) := by
  have hroot : dfsNormalizePath directory (render dirs) = dfsNormalizePath [slash] (render dirs) := by
    have hjoin (d : List UInt8) : joined d (render dirs) = render dirs := if_neg (by simp [render])
    rw [dfsNormalizePath, dfsNormalizePath, hjoin, hjoin]
  rw [hroot, dfsNormalizePath_eq (.inl rfl) (by decide) h0, resolve_render hdirs]
  rfl

theorem resolve_dirs (hdir : Canonical directory) (filename : List UInt8) :
    ∀ d ∈ (resolve directory filename).dirs, Ordinary d := by
  obtain ⟨dirs, hdirs, rfl⟩ := hdir.eq_render
  rw [resolve]
  refine walk_dirs ?_ fun c hc => ⟨(mem_names hc).1, (mem_names hc).2.1⟩
  split_ifs
  · rwa [names_render hdirs]
  · exact fun d hd => absurd hd List.not_mem_nil

theorem resolve_mem (h0 : 0 ∉ directory) (h0' : 0 ∉ filename) : ∀ d ∈ (resolve directory filename).dirs, 0 ∉ d := by
  intro d hd hx
  rw [resolve] at hd
  rcases walk_mem _ _ d hd with hd | hd
  · split_ifs at hd
    · exact h0 ((mem_names hd).2.2 0 hx)
    · exact absurd hd List.not_mem_nil
  · exact h0' ((mem_names hd).2.2 0 hx)

theorem mem_render {dirs : List Name} {x : UInt8} (hx : x ∈ render dirs) : x = slash ∨ ∃ d ∈ dirs, x ∈ d := by
  rcases List.mem_cons.mp hx with rfl | hx
  · exact .inl rfl
  · by_cases hnil : dirs = []
    · rw [hnil] at hx
      exact absurd hx List.not_mem_nil
    · obtain ⟨ds, c, rfl⟩ := (List.eq_nil_or_concat dirs).resolve_left hnil
      rw [List.concat_eq_append] at *
      rw [← flatMap_concat] at hx
      rcases mem_written (p := ⟨1, ds ++ [c]⟩) (by
        rw [written_concat]
        exact List.mem_append_left _ hx) with h | h
      · exact .inl h
      · exact .inr h

/-- In the root, the name "/../b" becomes "b", and the name ".." is looked up in front of the buffer. -/
theorem parent_of_root : Canonical [slash] ∧
    dfsNormalizePath [slash] (['/', '.', '.', '/', 'b'].map Char.toUInt8) = .ok (some ['b'.toUInt8]) ∧
    ¬ Canonical ['b'.toUInt8] ∧ ¬ Normalizes [slash] (['/', '.', '.', '/', 'b'].map Char.toUInt8) ∧
    dfsNormalizePath [slash] (['.', '.'].map Char.toUInt8) = .error .outside := by
  have hresult : dfsNormalizePath [slash] (['/', '.', '.', '/', 'b'].map Char.toUInt8) = .ok (some ['b'.toUInt8]) := by
    decide +kernel
  have hnot : ¬ Canonical ['b'.toUInt8] := by
    rintro (h | ⟨rest, h, -⟩)
    · exact absurd h (by decide)
    · exact absurd (List.cons.inj h).1 (by decide)
  refine ⟨.inl rfl, hresult, hnot, ?_, by decide +kernel⟩
  rintro ⟨r, hr, hcanonical⟩
  obtain rfl := Except.ok.inj (hresult.symm.trans hr)
  exact hnot (hcanonical _ rfl).1

/-- For every canonical directory and every file name, the result is right if and only if the number of ".." that are
met at the root is not one. -/
theorem normalizes_iff (hdir : Canonical directory) (h0 : 0 ∉ directory) (h0' : 0 ∉ filename) :
    Normalizes directory filename ↔ (resolve directory filename).ups ≠ 1 := by
  have heq := dfsNormalizePath_eq hdir h0 h0'
  have hords := resolve_dirs hdir filename
  have hmem := resolve_mem h0 h0'
  generalize hq : resolve directory filename = q at heq hords hmem
  constructor
  · rintro ⟨r, hr, hcanonical⟩ hone
    rw [if_neg (by omega), if_pos hone] at heq
    by_cases hroot : q.dirs = []
    · rw [if_pos hroot, hr] at heq
      contradiction
    -- the leading slash is missing
    rw [if_neg hroot, hr] at heq
    obtain rfl := Except.ok.inj heq
    have hpath := (hcanonical _ rfl).2.1
    rw [hq, render] at hpath
    have hlen := congrArg List.length hpath
    rw [List.length_cons] at hlen
    omega
  · intro hone
    by_cases htwo : 2 ≤ q.ups
    · rw [if_pos htwo] at heq
      exact ⟨none, heq, by simp⟩
    · rw [if_neg htwo, if_neg hone] at heq
      refine ⟨_, heq, ?_⟩
      rintro path ⟨⟩
      have h0r : 0 ∉ render q.dirs := by
        intro hx
        rcases mem_render hx with h | ⟨d, hd, hx⟩
        · exact absurd h (by decide)
        · exact hmem d hd hx
      exact ⟨canonical_render hords, by rw [hq], normalize_render hords h0r⟩

/-- In "/a", the name ".././b//" is resolved to "/b". -/
theorem normalizes_iff_run :
    Normalizes [slash, 'a'.toUInt8] (['.', '.', '/', '.', '/', 'b', '/', '/'].map Char.toUInt8) ∧
    render (resolve [slash, 'a'.toUInt8] (['.', '.', '/', '.', '/', 'b', '/', '/'].map Char.toUInt8)).dirs =
      [slash, 'b'.toUInt8] :=
  ⟨(normalizes_iff (.inr ⟨['a'.toUInt8], rfl, by decide +kernel⟩) (by decide) (by decide)).mpr (by decide +kernel),
    by decide +kernel⟩

end result

end ThyristorController.Paths
