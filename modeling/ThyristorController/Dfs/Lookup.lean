import ThyristorController.Dfs.NormalizePath

/-!
# The table of the file systems (`components/dfs/src/dfs_fs.c`)

`dfs_filesystem_lookup` goes through the table once and keeps the last of the longest mount paths so far. A mount path
is compared with the beginning of the path as a string, and then the byte of the path behind it is looked at;
`Covers` says what the two tests are for, and `lookup_longest` that the entry found is the right one.
-/

namespace ThyristorController.Filesystems

open Paths (slash names render Canonical Ordinary)

/-! ## Strings -/

/-- A string: the bytes before its NUL. -/
structure CString where
  bytes : List UInt8
  no_nul : 0 ∉ bytes
  deriving DecidableEq

namespace CString

def length (s : CString) : Nat := s.bytes.length

/-- The byte at a place, which is the NUL behind the last one. -/
def get (s : CString) (i : Nat) : UInt8 := s.bytes.getD i 0

end CString

/-- `strncmp`, of the bytes of two strings. -/
def strncmp : Nat → List UInt8 → List UInt8 → Int
  | 0, _, _ => 0
  | n + 1, s1, s2 =>
    let c1 := s1.headD 0
    let c2 := s2.headD 0
    if c1 = c2 ∧ c1 ≠ 0 then strncmp n s1.tail s2.tail else (c1.toNat : Int) - c2.toNat

/-! ## The table -/

/-- `struct dfs_filesystem`: `δ` are the devices, `ο` the operations of the types of file systems, `φ` their data. -/
structure DfsFilesystem (δ ο φ : Type) where
  devId : Option δ
  path : Option CString
  ops : Option ο
  data : Option φ
  deriving DecidableEq

variable {δ ο φ : Type}

/-- The loop of `dfs_filesystem_lookup`, from the entry with number `i` on; `fs` is the number of an entry. -/
def lookupLoop (path : CString) : List (DfsFilesystem δ ο φ) → Nat → Option Nat → Nat → Option Nat
  | [], _, fs, _ => fs
  | iter :: rest, i, fs, prefixlen =>
    match iter.path, iter.ops with
    | some mountPath, some _ =>
      let fspath := mountPath.length
      if fspath < prefixlen ∨ strncmp fspath mountPath.bytes path.bytes ≠ 0 then
        lookupLoop path rest (i + 1) fs prefixlen
      else if fspath > 1 ∧ path.length > fspath ∧ path.get fspath ≠ slash then
        lookupLoop path rest (i + 1) fs prefixlen
      else lookupLoop path rest (i + 1) (some i) fspath
    | _, _ => lookupLoop path rest (i + 1) fs prefixlen

/-- `dfs_filesystem_lookup`: the number of an entry of the table, or `NULL`. -/
def dfsFilesystemLookup (table : List (DfsFilesystem δ ο φ)) (path : CString) : Option Nat :=
  lookupLoop path table 0 none 0

/-! ## What is looked for -/

/-- The entry is in use, with this mount path. -/
def DfsFilesystem.MountedAt (e : DfsFilesystem δ ο φ) (mountPath : CString) : Prop :=
  e.path = some mountPath ∧ e.ops ≠ none

/-- The mount path is a prefix of the path by whole names: it is the path, or a slash follows it, or it is the root. -/
def Covers (mountPath path : CString) : Prop :=
  mountPath = path ∨ mountPath.bytes ++ [slash] <+: path.bytes ∨ mountPath.bytes = [slash]

/-- `NULL` where no mount path covers the path; otherwise an entry whose mount path does, and no longer one does. -/
def IsLookup (table : List (DfsFilesystem δ ο φ)) (path : CString) : Option Nat → Prop
  | none => ∀ e ∈ table, ∀ m, e.MountedAt m → ¬ Covers m path
  | some i => ∃ e m, table[i]? = some e ∧ e.MountedAt m ∧ Covers m path ∧
      ∀ e' ∈ table, ∀ m', e'.MountedAt m' → Covers m' path → m'.length ≤ m.length

section lookup

variable {table done rest : List (DfsFilesystem δ ο φ)} {e : DfsFilesystem δ ο φ} {m path : CString} {fs : Option Nat}
  {prefixlen : Nat}

theorem strncmp_eq_zero {s t : List UInt8} (hs : 0 ∉ s) : strncmp s.length s t = 0 ↔ s <+: t := by
  induction s generalizing t with
  | nil => simp [strncmp]
  | cons c s ih =>
    rw [List.mem_cons, not_or] at hs
    have hc : c ≠ 0 := Ne.symm hs.1
    cases t with
    | nil =>
      have hpos : c.toNat ≠ 0 := by
        intro hzero
        exact hc (UInt8.toNat_inj.mp hzero)
      simp [strncmp, hc, hpos]
    | cons d t =>
      by_cases hd : c = d
      · subst hd
        simp [strncmp, hc, ih hs.2]
      · have hne : (c.toNat : Int) - d.toNat ≠ 0 := by
          intro hzero
          exact hd (UInt8.toNat_inj.mp (by omega))
        simp [strncmp, hd, hne]

theorem covers_iff (hpath : path.bytes.head? = some slash) :
    Covers m path ↔ strncmp m.length m.bytes path.bytes = 0 ∧
      ¬ (m.length > 1 ∧ path.length > m.length ∧ path.get m.length ≠ slash) := by
  rw [CString.length, strncmp_eq_zero m.no_nul]
  constructor
  · rintro (rfl | ⟨t, ht⟩ | hroot)
    · exact ⟨List.prefix_rfl, fun h => absurd h.2.1 (Nat.lt_irrefl _)⟩
    · refine ⟨⟨slash :: t, by simpa using ht⟩, ?_⟩
      rintro ⟨-, -, hget⟩
      apply hget
      rw [CString.get, ← ht]
      simp
    · obtain ⟨t, ht⟩ := List.head?_eq_some_iff.mp hpath
      refine ⟨⟨t, by rw [hroot, ht]; rfl⟩, ?_⟩
      simp [hroot]
  · rintro ⟨⟨t, ht⟩, hnext⟩
    cases t with
    | nil =>
      left
      rw [List.append_nil] at ht
      cases m
      cases path
      congr
    | cons c t =>
      right
      by_cases hc : c = slash
      · subst hc
        exact .inl ⟨t, by simpa using ht⟩
      -- no slash follows, so that the mount path has at most one byte
      right
      have hle : m.bytes.length ≤ 1 := by
        by_contra hgt
        refine hnext ⟨by omega, ?_, ?_⟩
        · rw [CString.length, ← ht]
          simp
        · rw [CString.get, ← ht]
          simpa using hc
      rw [← ht] at hpath
      rcases hm : m.bytes with _ | ⟨b, _ | ⟨b', l⟩⟩
      · rw [hm] at hpath
        exact absurd (Option.some.inj hpath) hc
      · rw [hm] at hpath
        rw [Option.some.inj hpath]
      · rw [hm] at hle
        simp at hle

theorem intercalate_append {ds es : List Paths.Name} (hds : ds ≠ []) (hes : es ≠ []) :
    [slash].intercalate (ds ++ es) = [slash].intercalate ds ++ slash :: [slash].intercalate es := by
  induction ds with
  | nil => contradiction
  | cons d ds ih =>
    by_cases hnil : ds = []
    · rw [hnil, List.singleton_append, List.intercalate_cons_of_ne_nil hes, List.intercalate_singleton,
        List.append_assoc, List.singleton_append]
    · rw [List.cons_append, List.intercalate_cons_of_ne_nil (by simp [hnil]), ih hnil,
        List.intercalate_cons_of_ne_nil hnil]
      simp only [List.append_assoc]

/-- A canonical mount path covers a canonical path exactly if its names are the first ones of the path. -/
theorem covers_iff_names (hm : Canonical m.bytes) (hpath : Canonical path.bytes) :
    Covers m path ↔ names m.bytes <+: names path.bytes := by
  obtain ⟨ds, hds, hmds⟩ := hm.eq_render
  obtain ⟨es, hes, hpes⟩ := hpath.eq_render
  constructor
  · rintro (rfl | ⟨t, ht⟩ | hroot)
    · exact List.prefix_rfl
    · rw [← ht, List.append_assoc, List.singleton_append, Paths.names_append]
      exact List.prefix_append _ _
    · rw [hroot]
      exact List.nil_prefix
  · rw [hmds, hpes, Paths.names_render hds, Paths.names_render hes]
    rintro ⟨fs, rfl⟩
    by_cases hnil : ds = []
    · rw [hnil] at hmds
      exact .inr (.inr hmds)
    by_cases hrest : fs = []
    · left
      rw [hrest, List.append_nil, ← hmds] at hpes
      cases m
      cases path
      congr
      exact hpes.symm
    · refine .inr (.inl ⟨[slash].intercalate fs, ?_⟩)
      rw [hpes, hmds, render, render, intercalate_append hnil hrest]
      simp

/-! ### The loop -/

/-- What the loop has found in the entries before it. -/
structure Searched (done : List (DfsFilesystem δ ο φ)) (path : CString) (fs : Option Nat) (prefixlen : Nat) :
    Prop where
  unfound : fs = none → prefixlen = 0 ∧ ∀ e ∈ done, ∀ m, e.MountedAt m → ¬ Covers m path
  found : ∀ i, fs = some i → ∃ e m, done[i]? = some e ∧ e.MountedAt m ∧ Covers m path ∧ m.length = prefixlen
  le : ∀ e ∈ done, ∀ m, e.MountedAt m → Covers m path → m.length ≤ prefixlen

theorem Searched.skip (h : Searched done path fs prefixlen)
    (he : ∀ m, e.MountedAt m → Covers m path → m.length < prefixlen) : Searched (done ++ [e]) path fs prefixlen := by
  constructor
  · intro hfs
    obtain ⟨hzero, hnone⟩ := h.unfound hfs
    refine ⟨hzero, ?_⟩
    intro e' he' m hm hcovers
    rcases List.mem_append.mp he' with hold | hnew
    · exact hnone e' hold m hm hcovers
    · rw [List.mem_singleton] at hnew
      subst hnew
      have := he m hm hcovers
      omega
  · intro i hi
    obtain ⟨e', m, hget, hrest⟩ := h.found i hi
    have hlt : i < done.length := (List.getElem?_eq_some_iff.mp hget).1
    exact ⟨e', m, (List.getElem?_append_left hlt).trans hget, hrest⟩
  · intro e' he' m hm hcovers
    rcases List.mem_append.mp he' with hold | hnew
    · exact h.le e' hold m hm hcovers
    · rw [List.mem_singleton] at hnew
      subst hnew
      exact Nat.le_of_lt (he m hm hcovers)

theorem Searched.keep (h : Searched done path fs prefixlen) (hm : e.MountedAt m) (hcovers : Covers m path)
    (hle : prefixlen ≤ m.length) : Searched (done ++ [e]) path (some done.length) m.length := by
  constructor
  · intro hfs
    contradiction
  · intro i hi
    obtain rfl := Option.some.inj hi
    exact ⟨e, m, by simp, hm, hcovers, rfl⟩
  · intro e' he' m' hm' hcovers'
    rcases List.mem_append.mp he' with hold | hnew
    · exact (h.le e' hold m' hm' hcovers').trans hle
    · rw [List.mem_singleton] at hnew
      subst hnew
      rw [Option.some.inj (hm.1.symm.trans hm'.1)]

theorem lookupLoop_spec (rest : List (DfsFilesystem δ ο φ)) (hpath : path.bytes.head? = some slash)
    (h : Searched done path fs prefixlen) :
    ∃ prefixlen', Searched (done ++ rest) path (lookupLoop path rest done.length fs prefixlen) prefixlen' := by
  induction rest generalizing done fs prefixlen with
  | nil => exact ⟨prefixlen, by simpa [lookupLoop] using h⟩
  | cons e rest ih =>
    have hstep : ∀ {fs' prefixlen'}, Searched (done ++ [e]) path fs' prefixlen' → ∃ prefixlen'',
        Searched (done ++ e :: rest) path (lookupLoop path rest (done.length + 1) fs' prefixlen') prefixlen'' := by
      intro fs' prefixlen' h'
      have := ih h'
      rwa [List.append_assoc, List.length_append] at this
    rw [lookupLoop]
    split
    next m o hm ho =>
      have hmounted : e.MountedAt m := ⟨hm, by simp [ho]⟩
      have hother : ∀ m', e.MountedAt m' → m' = m := fun m' hm' => Option.some.inj (hm'.1.symm.trans hm)
      dsimp only
      split_ifs with hfirst hnext
      · refine hstep (h.skip ?_)
        intro m' hm' hcovers
        obtain rfl := hother m' hm'
        exact hfirst.resolve_right fun hne => hne ((covers_iff hpath).mp hcovers).1
      · refine hstep (h.skip ?_)
        intro m' hm' hcovers
        obtain rfl := hother m' hm'
        exact absurd hnext ((covers_iff hpath).mp hcovers).2
      · rw [not_or, Nat.not_lt, not_not] at hfirst
        exact hstep (h.keep hmounted ((covers_iff hpath).mpr ⟨hfirst.2, hnext⟩) hfirst.1)
    next hunused =>
      refine hstep (h.skip ?_)
      rintro m ⟨hm, ho⟩ -
      obtain ⟨o, ho⟩ := Option.ne_none_iff_exists'.mp ho
      exact absurd ho (hunused m o hm)

/-- For every table and every absolute path, the entry found is in use, its mount path covers the path, and no longer
one does; there is none exactly if no mount path of the table covers the path. -/
theorem lookup_longest (table : List (DfsFilesystem δ ο φ)) (hpath : path.bytes.head? = some slash) :
    IsLookup table path (dfsFilesystemLookup table path) := by
  have hstart : Searched ([] : List (DfsFilesystem δ ο φ)) path none 0 := ⟨by simp, by simp, by simp⟩
  obtain ⟨prefixlen, h⟩ := lookupLoop_spec table hpath hstart
  rw [List.nil_append] at h
  unfold dfsFilesystemLookup
  cases hr : lookupLoop path table ([] : List (DfsFilesystem δ ο φ)).length none 0 with
  | none =>
    rw [hr] at h
    exact (h.unfound rfl).2
  | some i =>
    rw [hr] at h
    obtain ⟨e, m, hget, hm, hcovers, hlen⟩ := h.found i rfl
    refine ⟨e, m, hget, hm, hcovers, ?_⟩
    rw [hlen]
    exact h.le

/-- The file systems at "/", "/a" and "/ab", and an entry that is not in use. -/
def mounted : List (DfsFilesystem Unit Unit Unit) :=
  [⟨none, some ⟨['/'.toUInt8], by decide⟩, some (), none⟩, ⟨none, none, none, none⟩,
    ⟨none, some ⟨['/', 'a', 'b'].map Char.toUInt8, by decide⟩, some (), none⟩,
    ⟨none, some ⟨['/', 'a'].map Char.toUInt8, by decide⟩, some (), none⟩]

theorem lookup_longest_mounted :
    dfsFilesystemLookup mounted ⟨['/', 'a', '/', 'b'].map Char.toUInt8, by decide⟩ = some 3 ∧
    dfsFilesystemLookup mounted ⟨['/', 'a', 'b', 'c'].map Char.toUInt8, by decide⟩ = some 0 ∧
    IsLookup mounted ⟨['/', 'a', '/', 'b'].map Char.toUInt8, by decide⟩ (some 3) := by
  have hlookup : dfsFilesystemLookup mounted ⟨['/', 'a', '/', 'b'].map Char.toUInt8, by decide⟩ = some 3 := by
    decide +kernel
  refine ⟨hlookup, by decide +kernel, ?_⟩
  rw [← hlookup]
  exact lookup_longest mounted (by decide)

end lookup

end ThyristorController.Filesystems
