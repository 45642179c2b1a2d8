import ThyristorController.Dfs.FatFile

/-!
# What a file holds

`Content` is a file as its user sees it: the bytes that were written to it, and nothing of the bytes of a gap. `Stores`
says how a `FIL`, a chain and the drive have the content in common, when the buffer may be newer than the drive.
`Within` says that nothing but the clusters of one file was touched.
-/

namespace ThyristorController.Fat

open Bytes Chain

/-! ## Content -/

/-- A file with the bytes that were written to it. -/
@[ext] structure Content where
  size : Nat
  data : Nat → Option UInt8
  within : ∀ o b, data o = some b → o < size

def Content.write (f : Content) (pos n : Nat) (src : Memory) : Content where
  size := max f.size (pos + n)
  data o := if pos ≤ o ∧ o < pos + n then some (src (o - pos)) else f.data o
  within o b hb := by
    split at hb
    · omega
    · have := f.within o b hb
      omega

def Content.extend (f : Content) (size : Nat) : Content where
  size := max f.size size
  data := f.data
  within o b hb := Nat.lt_of_lt_of_le (f.within o b hb) (Nat.le_max_left ..)

def Content.truncate (f : Content) (size : Nat) : Content where
  size := size
  data o := if o < size then f.data o else none
  within o b hb := by
    by_contra ho
    rw [if_neg ho] at hb
    cases hb

/-! ## Sectors of a chain -/

/-- The cluster of a sector of the data area. -/
def Geometry.clusterOf (g : Geometry) (s : Nat) : Nat := (s - g.database) / g.csize + 2

/-- The sectors of a chain, in the order of the file. -/
def Geometry.sectorOf (g : Geometry) (l : List Nat) (j : Nat) : Nat :=
  clust2sect g (l.getD (j / g.csize) 0) + j % g.csize

section sectors

variable {g : Geometry} {fs : Fatfs} {l : List Nat} {c j k p r : Nat}

theorem Geometry.Ok.csize_pos (hg : g.Ok) : 0 < g.csize := by
  obtain ⟨k, hk⟩ := hg.csize
  rw [hk]
  exact Nat.two_pow_pos k

theorem Geometry.Ok.bcs_pos (hg : g.Ok) : 0 < g.bcs := Nat.mul_pos hg.csize_pos hg.ssize_pos

theorem csect_eq (hg : fs.toGeometry.Ok) (fp : Fil) : csect fs fp = fp.fptr / fs.ssize % fs.csize := by
  obtain ⟨k, hk⟩ := hg.csize
  rw [csect, hk, Nat.and_two_pow_sub_one_eq_mod]

theorem div_bcs (g : Geometry) (p : Nat) : p / g.bcs = p / g.ssize / g.csize := by
  rw [Geometry.bcs, Nat.div_div_eq_div_mul, Nat.mul_comm]

theorem pred_div {a : Nat} (hp : 0 < p) : (p - 1) / a = if a ∣ p then p / a - 1 else p / a := by
  obtain ⟨q, rfl⟩ : ∃ q, p = q + 1 := ⟨p - 1, by omega⟩
  rw [Nat.add_sub_cancel, Nat.succ_div]
  split
  · rw [Nat.add_sub_cancel]
  · rw [Nat.add_zero]

theorem pred_div_bcs (hs : 0 < g.ssize) (hpos : 0 < p) (hp : p % g.ssize = 0) :
    (p - 1) / g.bcs = if p / g.ssize % g.csize = 0 then p / g.bcs - 1 else p / g.bcs := by
  have hiff : g.bcs ∣ p ↔ p / g.ssize % g.csize = 0 := by
    obtain ⟨q, rfl⟩ := Nat.dvd_of_mod_eq_zero hp
    rw [Nat.mul_div_cancel_left _ hs, Geometry.bcs, Nat.mul_comm g.csize, Nat.mul_dvd_mul_iff_left hs]
    exact Nat.dvd_iff_mod_eq_zero
  rw [pred_div hpos]
  exact if_congr hiff rfl rfl

theorem clust2sect_eq (hc : 2 ≤ c ∧ c < g.nFatent) : clust2sect g c = (c - 2) * g.csize + g.database :=
  if_neg (by omega)

theorem sector_spec (hg : g.Ok) (hc : 2 ≤ c ∧ c < g.nFatent) (hr : r < g.csize) :
    g.database ≤ clust2sect g c + r ∧ clust2sect g c + r < noSector ∧ g.clusterOf (clust2sect g c + r) = c ∧
      (clust2sect g c + r - g.database) % g.csize = r := by
  have hpos := hg.csize_pos
  have hvol := hg.volume
  have hle := Nat.mul_le_mul_right g.csize (show c - 2 + 1 ≤ g.nFatent - 2 by omega)
  rw [Nat.succ_mul] at hle
  have hsub : clust2sect g c + r - g.database = r + (c - 2) * g.csize := by
    rw [clust2sect_eq hc]
    omega
  rw [Geometry.clusterOf, hsub, Nat.add_mul_div_right _ _ hpos, Nat.add_mul_mod_self_right, Nat.div_eq_of_lt hr,
    Nat.mod_eq_of_lt hr, clust2sect_eq hc]
  omega

theorem getD_of_getElem? {d : Nat} (h : l[k]? = some c) : l.getD k d = c := by
  rw [List.getD_eq_getElem?_getD, h]
  rfl

theorem sectorOf_spec (hg : g.Ok) (hl : ∀ c ∈ l, 2 ≤ c ∧ c < g.nFatent) (hj : j < l.length * g.csize) :
    g.database ≤ g.sectorOf l j ∧ g.sectorOf l j < noSector ∧ g.clusterOf (g.sectorOf l j) ∈ l ∧
      l[j / g.csize]? = some (g.clusterOf (g.sectorOf l j)) ∧
      (g.sectorOf l j - g.database) % g.csize = j % g.csize := by
  have hdiv : j / g.csize < l.length := Nat.div_lt_of_lt_mul (by rwa [Nat.mul_comm])
  have hget : l[j / g.csize]? = some l[j / g.csize] := List.getElem?_eq_getElem hdiv
  have hmem := List.getElem_mem hdiv
  obtain ⟨hge, hlt, hcl, hr⟩ := sector_spec hg (hl _ hmem) (Nat.mod_lt j hg.csize_pos)
  rw [Geometry.sectorOf, getD_of_getElem? hget]
  exact ⟨hge, hlt, by rwa [hcl], by rw [hcl, hget], hr⟩

theorem sectorOf_inj (hg : g.Ok) (hl : ∀ c ∈ l, 2 ≤ c ∧ c < g.nFatent) (hnodup : l.Nodup) (hj : j < l.length * g.csize)
    (hk : k < l.length * g.csize) (h : g.sectorOf l j = g.sectorOf l k) : j = k := by
  obtain ⟨-, -, -, hcj, hrj⟩ := sectorOf_spec hg hl hj
  obtain ⟨-, -, -, hck, hrk⟩ := sectorOf_spec hg hl hk
  rw [h] at hcj hrj
  obtain ⟨hlt, hgetj⟩ := List.getElem?_eq_some_iff.mp hcj
  obtain ⟨hlt', hgetk⟩ := List.getElem?_eq_some_iff.mp hck
  have hdiv : j / g.csize = k / g.csize := (List.Nodup.getElem_inj_iff hnodup).mp (hgetj.trans hgetk.symm)
  rw [← Nat.div_add_mod j g.csize, ← Nat.div_add_mod k g.csize, hdiv, ← hrj, hrk]

theorem sectorOf_add (hr : j % g.csize + r < g.csize) : g.sectorOf l (j + r) = g.sectorOf l j + r := by
  have hpos : 0 < g.csize := by omega
  obtain ⟨hdiv, hmod⟩ := Nat.div_mod_unique hpos |>.mpr
    ⟨show j % g.csize + r + g.csize * (j / g.csize) = j + r by have := Nat.div_add_mod j g.csize; omega, hr⟩
  rw [Geometry.sectorOf, Geometry.sectorOf, hdiv, hmod, Nat.add_assoc]

theorem sectorOf_append {l' : List Nat} (hj : j < l.length * g.csize) : g.sectorOf (l ++ l') j = g.sectorOf l j := by
  have hdiv : j / g.csize < l.length := Nat.div_lt_of_lt_mul (by rwa [Nat.mul_comm])
  unfold Geometry.sectorOf
  rw [List.getD_eq_getElem?_getD, List.getD_eq_getElem?_getD, List.getElem?_append_left hdiv]

theorem div_lt_sectors (hp : p < l.length * g.bcs) : p / g.ssize < l.length * g.csize := by
  refine Nat.div_lt_of_lt_mul ?_
  rw [Nat.mul_comm, Nat.mul_assoc]
  exact hp

end sectors

/-! ## A file -/

/-- The content is in the buffer and on the drive. -/
structure Stores (fs : Fatfs) (fp : Fil) (l : List Nat) (f : Content) : Prop where
  first : fp.sclust = l.headD 0
  size : fp.objsize = f.size
  limit : f.size ≤ 0xffffffff
  room : f.size ≤ l.length * fs.bcs
  buf : ∀ o b, f.data o = some b → fp.sect = fs.sectorOf l (o / fs.ssize) → fp.buf (o % fs.ssize) = b
  disk : ∀ o b, f.data o = some b → (fp.dirty = true → fp.sect ≠ fs.sectorOf l (o / fs.ssize)) →
    fs.drive.sector (fs.sectorOf l (o / fs.ssize)) (o % fs.ssize) = b

/-- The file pointer has its cluster, and its sector if it is within one. -/
structure Located (g : Geometry) (fp : Fil) (l : List Nat) : Prop where
  clust : 0 < fp.fptr → l[(fp.fptr - 1) / g.bcs]? = some fp.clust
  sect : fp.fptr % g.ssize ≠ 0 → fp.sect = g.sectorOf l (fp.fptr / g.ssize)

/-- The buffer is written back to the file. -/
def OwnSector (g : Geometry) (fp : Fil) (l : List Nat) : Prop :=
  fp.dirty = true → ∃ j < l.length * g.csize, fp.sect = g.sectorOf l j

/-- The directory entry has the first cluster and the size. -/
def Saved (fs : Fatfs) (fp : Fil) : Prop :=
  ldClust fs.toGeometry (fs.view fp.dirSect) fp.dirPtr = fp.sclust ∧
    ldDword (fs.view fp.dirSect) (fp.dirPtr + 28) = fp.objsize

/-- An open file between two calls. -/
structure Opened (fs : Fatfs) (fp : Fil) (l : List Nat) (f : Content) : Prop extends
    Stores fs fp l f, Located fs.toGeometry fp l where
  err : fp.err = .ok
  pos : fp.fptr ≤ f.size
  own : OwnSector fs.toGeometry fp l
  saved : fp.modified = false → fp.dirty = false ∧ Saved fs fp

/-! ## What a call leaves alone -/

variable {ι : Type}

/-- The window is on no cluster that a file may have. -/
def Apart (kept : Nat → Prop) (fs : Fatfs) : Prop :=
  fs.database ≤ fs.winsect → fs.winsect < noSector → kept (fs.clusterOf fs.winsect)

/-- The sector belongs to no other file, to no directory and to no table. -/
def Foreign (kept : Nat → Prop) (v : Volume ι) (i : ι) (s : Nat) : Prop :=
  s < noSector ∧ ¬ v.fs.Copy s ∧ ¬ v.fs.Table s ∧
    (v.fs.database ≤ s → kept (v.fs.clusterOf s) ∨ ∃ j, j ≠ i ∧ v.fs.clusterOf s ∈ v.chains j)

/-- Nothing but the file `i` was touched. -/
structure Within (kept : Nat → Prop) (v v' : Volume ι) (i : ι) : Prop where
  geometry : v'.fs.toGeometry = v.fs.toGeometry
  others : ∀ j, j ≠ i → v'.chains j = v.chains j
  view : ∀ s, Foreign kept v i s → v'.fs.view s = v.fs.view s

/-- The volume between the steps of a call. -/
structure Steady (table : Nat → Nat) (kept : Nat → Prop) (v : Volume ι) : Prop extends Tidy table kept v where
  window : Apart kept v.fs

section within

variable {table : Nat → Nat} {kept : Nat → Prop} {v v' v'' : Volume ι} {fs : Fatfs} {i : ι} {s : Nat}

theorem Within.refl (v : Volume ι) (i : ι) : Within kept v v i := ⟨rfl, fun _ _ => rfl, fun _ _ => rfl⟩

theorem Within.foreign (h : Within kept v v' i) (hs : Foreign kept v i s) : Foreign kept v' i s := by
  obtain ⟨hlt, hcopy, htable, hdata⟩ := hs
  unfold Foreign
  rw [h.geometry]
  refine ⟨hlt, hcopy, htable, fun hge => (hdata hge).imp_right fun ⟨j, hj, hmem⟩ => ⟨j, hj, ?_⟩⟩
  rwa [h.others j hj]

theorem Within.trans (h : Within kept v v' i) (h' : Within kept v' v'' i) : Within kept v v'' i :=
  ⟨h'.geometry.trans h.geometry, fun j hj => (h'.others j hj).trans (h.others j hj),
    fun s hs => (h'.view s (h.foreign hs)).trans (h.view s hs)⟩

theorem Within.touch (htouch : Touch v.fs fs) : Within kept v ⟨fs, v.chains⟩ i :=
  ⟨htouch.geometry, fun _ _ => rfl, fun s hs => htouch.view s hs.1 hs.2.1 hs.2.2.1⟩

theorem Apart.touch (hg : v.fs.toGeometry.Ok) (htouch : Touch v.fs fs) (h : Apart kept v.fs) : Apart kept fs := by
  unfold Apart
  rw [htouch.geometry]
  intro hge hlt
  obtain hw | hw | hw := htouch.window
  · rw [hw] at hge hlt ⊢
    exact h hge hlt
  · have := (hg.not_copy hw).2.2
    omega
  · rw [hw] at hlt
    exact absurd hlt (Nat.lt_irrefl _)

/-- The cluster is neither kept nor in another file. -/
def Mine (kept : Nat → Prop) (v : Volume ι) (i : ι) (c : Nat) : Prop := ¬ kept c ∧ ∀ j, j ≠ i → c ∉ v.chains j

theorem Steady.mine (h : Steady table kept v) {c : Nat} (hc : c ∈ v.chains i) : Mine kept v i c :=
  ⟨fun hk => (h.apart c hk).2.2 i hc, fun j hj hcj => h.family.disjoint j i hj hcj hc⟩

theorem Foreign.not_mine (h : Foreign kept v i s) (hge : v.fs.database ≤ s) : ¬ Mine kept v i (v.fs.clusterOf s) := by
  rintro ⟨hkept, hothers⟩
  obtain hk | ⟨j, hj, hmem⟩ := h.2.2.2 hge
  · exact hkept hk
  · exact hothers j hj hmem

theorem table_congr {fs' : Fatfs} (hgeom : fs'.toGeometry = fs.toGeometry)
    (hentry : ∀ c < fs.nFatent, fs'.entry c = fs.entry c) : fs'.table = fs.table := by
  funext c
  unfold Fatfs.table
  rw [hgeom]
  exact if_ctx_congr Iff.rfl (fun hc => hentry c hc.2) fun _ => rfl

theorem Steady.writeData (h : Steady table kept v) {d : Drive} (hbad : d.bad = v.fs.drive.bad)
    (hd : ∀ s < noSector, d.sector s = v.fs.drive.sector s ∨
      v.fs.database ≤ s ∧ Mine kept v i (v.fs.clusterOf s)) :
    Steady table kept ⟨{ v.fs with drive := d }, v.chains⟩ ∧ Within kept v ⟨{ v.fs with drive := d }, v.chains⟩ i ∧
      ({ v.fs with drive := d } : Fatfs).table = v.fs.table := by
  have hwin (hlt : v.fs.winsect < noSector) : d.sector v.fs.winsect = v.fs.drive.sector v.fs.winsect := by
    obtain hsame | ⟨hge, hkept, -⟩ := hd _ hlt
    · exact hsame
    · exact absurd (h.window hge hlt) hkept
  have hview {s : Nat} (hlt : s < noSector) (hs : v.fs.database ≤ s → ¬ Mine kept v i (v.fs.clusterOf s)) :
      ({ v.fs with drive := d } : Fatfs).view s = v.fs.view s := by
    unfold Fatfs.view
    dsimp only
    split
    · rfl
    · obtain hsame | ⟨hge, hmine⟩ := hd s hlt
      · exact hsame
      · exact absurd hmine (hs hge)
  have hsound : Sound { v.fs with drive := d } :=
    ⟨h.sound.geometry, fun hclean hlt => (h.sound.clean hclean hlt).trans (hwin hlt).symm, h.sound.dirty, h.sound.apart⟩
  have hentry {c : Nat} (hc : c < v.fs.nFatent) : ({ v.fs with drive := d } : Fatfs).entry c = v.fs.entry c := by
    refine entry_of_view h.sound rfl (fun s ht => ?_) hc
    obtain ⟨hlt, -, hdata⟩ := h.sound.geometry.not_copy ht
    exact hview hlt fun hge => absurd hdata (Nat.not_lt.mpr hge)
  have htable : ({ v.fs with drive := d } : Fatfs).table = v.fs.table := table_congr rfl fun _ => hentry
  have hthree := h.sound.geometry.nFatent.1
  refine ⟨⟨h.toTidy.congr hsound rfl htable hbad fun c hc => hentry (by omega), h.window⟩, ⟨rfl, fun _ _ => rfl, ?_⟩,
    htable⟩
  exact fun s hs => hview hs.1 hs.not_mine

theorem Steady.touch (h : Steady table kept v) (htouch : Touch v.fs fs) (htable : fs.table = v.fs.table) :
    Steady table kept ⟨fs, v.chains⟩ :=
  ⟨h.toTidy.of_table htouch htable, h.window.touch h.sound.geometry htouch⟩

end within

/-! ## The buffer -/

section buffer

variable {table : Nat → Nat} {kept : Nat → Prop} {v : Volume ι} {i : ι} {fp : Fil} {l : List Nat} {f : Content}
  {s : Nat}

theorem Drive.read_good {d : Drive} (h : d.bad s = false) : d.read s = some (d.sector s) := by
  rw [Drive.read, h]
  rfl

theorem Drive.writeSect_good {d : Drive} {b : Memory} (h : d.bad s = false) : d.writeSect s b = some (d.write s b) := by
  rw [Drive.writeSect, h]
  rfl

theorem Tidy.drive_good (h : Tidy table kept v) (s : Nat) : v.fs.drive.bad s = false := by
  by_contra hbad
  exact h.good ⟨s, Bool.eq_true_of_not_eq_false hbad⟩

/-- The buffer goes back to a sector of the file, or to one that the file has just given up. -/
theorem flush_spec (h : Steady table kept v) (fp : Fil)
    (hown : fp.dirty = true → v.fs.database ≤ fp.sect ∧ Mine kept v i (v.fs.clusterOf fp.sect)) :
    ∃ fs, flush v.fs fp = (fs, { fp with dirty := false }, .ok) ∧ Steady table kept ⟨fs, v.chains⟩ ∧
      Within kept v ⟨fs, v.chains⟩ i ∧ fs.table = v.fs.table ∧
      ∀ l f, Stores v.fs fp l f → Stores fs { fp with dirty := false } l f := by
  unfold flush
  by_cases hdirty : fp.dirty = true
  · obtain ⟨hge, hmine⟩ := hown hdirty
    have hdrive : v.fs.drive.writeSect fp.sect fp.buf = some (v.fs.drive.write fp.sect fp.buf) :=
      Drive.writeSect_good (h.drive_good _)
    rw [if_pos hdirty, hdrive]
    obtain ⟨hsteady, hwithin, htable⟩ := h.writeData (i := i) (d := v.fs.drive.write fp.sect fp.buf) rfl fun s _ => by
      by_cases hs : s = fp.sect
      · exact .inr ⟨hs ▸ hge, hs ▸ hmine⟩
      · exact .inl (write_of_ne hs)
    refine ⟨_, rfl, hsteady, hwithin, htable, fun l f hst => ⟨hst.first, hst.size, hst.limit, hst.room, hst.buf, ?_⟩⟩
    intro o b hb _
    show (v.fs.drive.write fp.sect fp.buf).sector (v.fs.sectorOf l (o / v.fs.ssize)) (o % v.fs.ssize) = b
    by_cases hs : v.fs.sectorOf l (o / v.fs.ssize) = fp.sect
    · rw [hs, write_self]
      exact hst.buf o b hb hs.symm
    · rw [write_of_ne hs]
      exact hst.disk o b hb fun _ => Ne.symm hs
  · have hclean : fp.dirty = false := Bool.eq_false_iff.mpr hdirty
    have hfp : ({ fp with dirty := false } : Fil) = fp := by rw [← hclean]
    rw [if_neg hdirty, hfp]
    exact ⟨v.fs, rfl, h, .refl v i, rfl, fun _ _ hst => hst⟩

theorem loadSector_spec (h : Steady table kept v) (hst : Stores v.fs fp l f)
    (hown : fp.dirty = true → v.fs.database ≤ fp.sect ∧ Mine kept v i (v.fs.clusterOf fp.sect)) (s : Nat) :
    ∃ fs buf dirty, loadSector v.fs fp s = (fs, { fp with buf := buf, dirty := dirty, sect := s }, .ok) ∧
      Steady table kept ⟨fs, v.chains⟩ ∧ Within kept v ⟨fs, v.chains⟩ i ∧ fs.table = v.fs.table ∧
      Stores fs { fp with buf := buf, dirty := dirty, sect := s } l f ∧
      (dirty = true → fp.dirty = true ∧ s = fp.sect) := by
  unfold loadSector
  by_cases hs : fp.sect = s
  · subst hs
    rw [if_neg (not_not.mpr rfl)]
    exact ⟨v.fs, fp.buf, fp.dirty, rfl, h, .refl v i, rfl, hst, fun hdirty => ⟨hdirty, rfl⟩⟩
  · rw [if_pos hs]
    obtain ⟨fs, heq, hsteady, hwithin, htable, hstores⟩ := flush_spec h fp hown
    have hst' := hstores l f hst
    rw [heq]
    dsimp only
    rw [if_neg (not_not.mpr rfl), Drive.read_good (hsteady.drive_good s)]
    have hclean (P : Prop) (hd : false = true) : P := absurd hd Bool.false_ne_true
    refine ⟨fs, fs.drive.sector s, false, rfl, hsteady, hwithin, htable, ?_, hclean _⟩
    refine ⟨hst'.first, hst'.size, hst'.limit, hst'.room, fun o b hb hsect => ?_, fun o b hb _ => ?_⟩
    · have hsect : s = fs.sectorOf l (o / fs.ssize) := hsect
      rw [hsect]
      exact hst'.disk o b hb (hclean _)
    · exact hst'.disk o b hb (hclean _)

theorem Apart.sector_eq_view {fs : Fatfs} (h : Apart kept fs) (hge : fs.database ≤ s) (hlt : s < noSector)
    (hs : ¬ kept (fs.clusterOf s)) : fs.drive.sector s = fs.view s := by
  have hne : s ≠ fs.winsect := by
    rintro rfl
    exact hs (h hge hlt)
  exact (view_of_ne hne).symm

theorem Stores.congr {fs fs' : Fatfs} (hst : Stores fs fp l f) (hgeom : fs'.toGeometry = fs.toGeometry)
    (hsect : ∀ j < l.length * fs.csize, fs'.drive.sector (fs.sectorOf l j) = fs.drive.sector (fs.sectorOf l j)) :
    Stores fs' fp l f := by
  refine ⟨hst.first, hst.size, hst.limit, by rw [hgeom]; exact hst.room, ?_, ?_⟩
  · rw [hgeom]
    exact hst.buf
  · rw [hgeom]
    intro o b hb hnew
    rw [hsect _ (div_lt_sectors (Nat.lt_of_lt_of_le (f.within o b hb) hst.room))]
    exact hst.disk o b hb hnew

theorem Steady.chain_sector (h : Steady table kept v) {j : Nat} (hj : j < (v.chains i).length * v.fs.csize) :
    v.fs.database ≤ v.fs.sectorOf (v.chains i) j ∧ v.fs.sectorOf (v.chains i) j < noSector ∧
      v.fs.clusterOf (v.fs.sectorOf (v.chains i) j) ∈ v.chains i := by
  obtain ⟨hge, hlt, hmem, -⟩ := sectorOf_spec h.sound.geometry (h.isChain i).range hj
  exact ⟨hge, hlt, hmem⟩

theorem Steady.not_table (h : Steady table kept v) (hge : v.fs.database ≤ s) : ¬ v.fs.Copy s ∧ ¬ v.fs.Table s := by
  have hdata := h.sound.geometry.database
  refine ⟨fun hc => ?_, fun ht => ?_⟩
  · have := hc.2
    omega
  · have := (h.sound.geometry.not_copy ht).2.2
    omega

theorem Steady.stores_touch {fs : Fatfs} (h : Steady table kept v) (htouch : Touch v.fs fs)
    (hst : Stores v.fs fp (v.chains i) f) : Stores fs fp (v.chains i) f := by
  refine hst.congr htouch.geometry fun j hj => ?_
  obtain ⟨hge, hlt, hmem⟩ := h.chain_sector hj
  obtain ⟨hcopy, htab⟩ := h.not_table hge
  have hkept := (h.mine hmem).1
  have hgeom : fs.toGeometry = v.fs.toGeometry := htouch.geometry
  rw [h.window.sector_eq_view hge hlt hkept, ← htouch.view _ hlt hcopy htab]
  exact (h.window.touch h.sound.geometry htouch).sector_eq_view (by rwa [hgeom]) hlt (by rwa [hgeom])

theorem IsChain.table_eq {fs : Fatfs} {k c d : Nat} (h : IsChain fs l) (hc : l[k]? = some c) (hd : l[k + 1]? = some d) :
    fs.table c = d := by
  have hlinked := h.linked
  rw [getElem?_split₂ hc hd] at hlinked
  have hnext := hlinked.next_eq
  unfold Fatfs.next at hnext
  split at hnext
  · exact Option.some.inj hnext
  · cases hnext

end buffer

end ThyristorController.Fat
