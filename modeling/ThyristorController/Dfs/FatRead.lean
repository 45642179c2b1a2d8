import ThyristorController.Dfs.FatContent

/-!
# `f_read` on a good drive

A round of the loop stays within one cluster. It reads whole sectors past the buffer, which may be newer than the drive,
or a part of the sector that is in the buffer. `Copied` is what is left in the user's buffer.
-/

namespace ThyristorController.Fat

open Bytes Chain

variable {ι : Type} {table : Nat → Nat} {kept : Nat → Prop} {v : Volume ι} {i : ι} {g : Geometry} {fs : Fatfs}
  {fp : Fil} {l : List Nat} {f : Content}

/-! ## The cluster of the file pointer -/

section pointer

/-- On a sector boundary, but at no cluster boundary, the cluster is the one of the byte before. -/
theorem Located.clust_same (hg : v.fs.toGeometry.Ok) (hloc : Located v.fs.toGeometry fp l)
    (hbound : fp.fptr % v.fs.ssize = 0) (hcs : csect v.fs fp ≠ 0) : l[fp.fptr / v.fs.bcs]? = some fp.clust := by
  rw [csect_eq hg] at hcs
  have hpos : 0 < fp.fptr := Nat.pos_of_ne_zero fun hzero => hcs (by rw [hzero, Nat.zero_div, Nat.zero_mod])
  have hclust := hloc.clust hpos
  rwa [pred_div_bcs hg.ssize_pos hpos hbound, if_neg hcs] at hclust

theorem Located.clust_before (hg : v.fs.toGeometry.Ok) (hloc : Located v.fs.toGeometry fp l)
    (hbound : fp.fptr % v.fs.ssize = 0) (hcs : csect v.fs fp = 0) (hpos : 0 < fp.fptr) :
    ∃ k, fp.fptr / v.fs.bcs = k + 1 ∧ l[k]? = some fp.clust := by
  rw [csect_eq hg] at hcs
  have hclust := hloc.clust hpos
  rw [pred_div_bcs hg.ssize_pos hpos hbound, if_pos hcs] at hclust
  refine ⟨fp.fptr / v.fs.bcs - 1, (Nat.sub_add_cancel ?_).symm, hclust⟩
  rw [Nat.one_le_div_iff hg.bcs_pos]
  refine Nat.le_of_dvd hpos ?_
  obtain ⟨q, hq⟩ := Nat.dvd_of_mod_eq_zero hbound
  rw [hq, Nat.mul_div_cancel_left _ hg.ssize_pos] at hcs
  rw [hq, Geometry.bcs, Nat.mul_comm]
  exact Nat.mul_dvd_mul_left _ (Nat.dvd_of_mod_eq_zero hcs)

theorem Geometry.Ok.database_pos (hg : g.Ok) : 0 < g.database := by
  have hdata := hg.database
  have hcopies := Nat.mul_le_mul_right g.fsize hg.nFats
  have hfsize : g.fsize ≠ 0 := fun hzero => by
    have hbytes := hg.fsize
    have hmany := hg.nFatent.1
    rw [hzero, Nat.zero_mul] at hbytes
    unfold FsType.bytes at hbytes
    split at hbytes <;> omega
  omega

theorem clust2sect_pos (hg : g.Ok) {c : Nat} (hc : 2 ≤ c ∧ c < g.nFatent) : clust2sect g c ≠ 0 := by
  have hge := (sector_spec hg hc hg.csize_pos).1
  have hpos := hg.database_pos
  omega

theorem readSector_spec (h : Steady table kept v) (hst : Stores v.fs fp (v.chains i) f)
    (hloc : Located v.fs.toGeometry fp (v.chains i)) (hbound : fp.fptr % v.fs.ssize = 0) (hlt : fp.fptr < f.size) :
    ∃ fs clst, readSector v.fs fp =
        (fs, { fp with clust := clst }, .ok (v.fs.sectorOf (v.chains i) (fp.fptr / v.fs.ssize))) ∧
      Touch v.fs fs ∧ fs.table = v.fs.table ∧ (v.chains i)[fp.fptr / v.fs.bcs]? = some clst := by
  have hg := h.sound.geometry
  have hl := h.isChain i
  have hdiv : fp.fptr / v.fs.bcs < (v.chains i).length :=
    Nat.div_lt_of_lt_mul (Nat.lt_of_lt_of_le hlt (by rw [Nat.mul_comm]; exact hst.room))
  have hsector {c : Nat} (hc : (v.chains i)[fp.fptr / v.fs.bcs]? = some c) :
      v.fs.sectorOf (v.chains i) (fp.fptr / v.fs.ssize) = clust2sect v.fs.toGeometry c + csect v.fs fp := by
    rw [div_bcs] at hc
    rw [Geometry.sectorOf, getD_of_getElem? hc, csect_eq hg]
  unfold readSector
  by_cases hcs : csect v.fs fp = 0
  · rw [if_pos hcs]
    obtain ⟨c, hc⟩ : ∃ c, (v.chains i)[fp.fptr / v.fs.bcs]? = some c := ⟨_, List.getElem?_eq_getElem hdiv⟩
    have hrange := hl.range c (List.mem_of_getElem? hc)
    have hbound := nFatent_lt h.sound
    have hfound : ∃ fs, (if fp.fptr = 0 then (v.fs, fp.sclust) else getFat v.fs fp.clust) = (fs, c) ∧
        Touch v.fs fs ∧ fs.table = v.fs.table := by
      by_cases hzero : fp.fptr = 0
      · rw [hzero, Nat.zero_div] at hc
        rw [if_pos hzero, hst.first, List.headD_eq_head?_getD, List.head?_eq_getElem?, hc]
        exact ⟨v.fs, rfl, .refl h.sound, rfl⟩
      · obtain ⟨k, hk, hclust⟩ := hloc.clust_before hg ‹_› hcs (Nat.pos_of_ne_zero hzero)
        obtain ⟨htouch, htable, -, hres⟩ := getFat_table h.sound fp.clust
        rw [hk] at hc
        rw [if_neg hzero]
        refine ⟨(getFat v.fs fp.clust).1, Prod.ext rfl ?_, htouch, htable⟩
        exact (hres.resolve_right fun hbad => h.good hbad.2).trans (hl.table_eq hclust hc)
    obtain ⟨fs, heq, htouch, htable⟩ := hfound
    rw [heq]
    dsimp only
    rw [if_neg (by omega), if_neg (by omega), htouch.geometry, if_neg (clust2sect_pos hg hrange), hsector hc, hcs]
    exact ⟨fs, c, rfl, htouch, htable, hc⟩
  · have hc := hloc.clust_same hg hbound hcs
    rw [if_neg hcs, hsector hc]
    dsimp only
    rw [if_neg (clust2sect_pos hg (hl.range _ (List.mem_of_getElem? hc)))]
    exact ⟨v.fs, fp.clust, rfl, .refl h.sound, rfl, hc⟩

end pointer

/-! ## Bytes of a round -/

section spans

variable {b j n o p r x : Nat}

theorem span_div (hpos : 0 < n) (hn : p % b + n ≤ b) : (p + n - 1) / b = p / b := by
  have hb : 0 < b := by omega
  refine (Nat.div_mod_unique hb |>.mpr ⟨?_, show p % b + n - 1 < b by omega⟩).1
  have := Nat.div_add_mod p b
  omega

theorem byte_in (hx : p % b + x < b) : (p + x) / b = p / b ∧ (p + x) % b = p % b + x := by
  have hb : 0 < b := by omega
  refine Nat.div_mod_unique hb |>.mpr ⟨?_, hx⟩
  have := Nat.div_add_mod p b
  omega

theorem div_stays (hn : p % b + n ≤ b) (hne : (p + n) % b ≠ 0) : (p + n) / b = p / b := by
  refine (byte_in (Nat.lt_of_le_of_ne hn fun heq => hne ?_)).1
  rw [← Nat.mod_add_mod, heq, Nat.mod_self]

theorem mod_bcs (g : Geometry) (p : Nat) : p % g.bcs = p / g.ssize % g.csize * g.ssize + p % g.ssize := by
  rw [Geometry.bcs, Nat.mul_comm g.csize, Nat.mod_mul, Nat.add_comm, Nat.mul_comm]

theorem Located.of_span (hfptr : fp.fptr = p + n) (hpos : 0 < n) (hn : p % g.bcs + n ≤ g.bcs)
    (hc : l[p / g.bcs]? = some fp.clust) (hsect : fp.fptr % g.ssize ≠ 0 → fp.sect = g.sectorOf l (fp.fptr / g.ssize)) :
    Located g fp l := by
  refine ⟨fun _ => ?_, hsect⟩
  rw [hfptr, span_div hpos hn]
  exact hc

theorem wholeSectors_spec (hg : fs.toGeometry.Ok) (fp : Fil) {bt : Nat} (hbt : bt / fs.ssize ≠ 0) :
    0 < wholeSectors fs fp bt ∧ fp.fptr / fs.ssize % fs.csize + wholeSectors fs fp bt ≤ fs.csize ∧
      fs.ssize * wholeSectors fs fp bt ≤ bt := by
  have hlt := Nat.mod_lt (fp.fptr / fs.ssize) hg.csize_pos
  have hle := Nat.mul_div_le bt fs.ssize
  unfold wholeSectors
  rw [csect_eq hg]
  generalize bt / fs.ssize = q at hbt hle
  generalize fp.fptr / fs.ssize % fs.csize = r at hlt
  split
  · exact ⟨by omega, by omega, Nat.le_trans (Nat.mul_le_mul_left _ (by omega)) hle⟩
  · exact ⟨by omega, by omega, hle⟩

theorem sectorBytes_spec (hg : fs.toGeometry.Ok) (fp : Fil) {bt : Nat} (hbt : 0 < bt) :
    0 < sectorBytes fs fp bt ∧ fp.fptr % fs.ssize + sectorBytes fs fp bt ≤ fs.ssize ∧ sectorBytes fs fp bt ≤ bt := by
  have hlt := Nat.mod_lt fp.fptr hg.ssize_pos
  unfold sectorBytes
  split <;> omega

theorem direct_span (hbound : p % g.ssize = 0) (hn : p / g.ssize % g.csize + n ≤ g.csize) :
    p % g.bcs + g.ssize * n ≤ g.bcs := by
  rw [mod_bcs, hbound, Nat.add_zero, Nat.mul_comm g.ssize, ← Nat.add_mul, Geometry.bcs]
  exact Nat.mul_le_mul_right _ hn

theorem buffer_span (hg : g.Ok) (hn : p % g.ssize + n ≤ g.ssize) : p % g.bcs + n ≤ g.bcs := by
  have hlt : p / g.ssize % g.csize + 1 ≤ g.csize := Nat.mod_lt _ hg.csize_pos
  have hle := Nat.mul_le_mul_right g.ssize hlt
  rw [Nat.succ_mul] at hle
  rw [mod_bcs, Geometry.bcs]
  omega

theorem direct_byte (hg : g.Ok) (hbound : p % g.ssize = 0) (hn : p / g.ssize % g.csize + n ≤ g.csize)
    (hx : x < g.ssize * n) :
    x / g.ssize < n ∧ g.sectorOf l ((p + x) / g.ssize) = g.sectorOf l (p / g.ssize) + x / g.ssize ∧
      (p + x) % g.ssize = x % g.ssize := by
  have hlt : x / g.ssize < n := Nat.div_lt_of_lt_mul hx
  obtain ⟨q, rfl⟩ := Nat.dvd_of_mod_eq_zero hbound
  rw [Nat.mul_div_cancel_left _ hg.ssize_pos] at hn ⊢
  rw [Nat.mul_add_div hg.ssize_pos, Nat.mul_add_mod]
  exact ⟨hlt, sectorOf_add (by omega), rfl⟩

theorem direct_le (hp : p / g.bcs < l.length) (hn : p / g.ssize % g.csize + n ≤ g.csize) :
    p / g.ssize + n ≤ l.length * g.csize := by
  rw [div_bcs] at hp
  have hle := Nat.mul_le_mul_right g.csize (show p / g.ssize / g.csize + 1 ≤ l.length from hp)
  have hdiv := Nat.div_add_mod (p / g.ssize) g.csize
  rw [Nat.mul_comm] at hdiv
  rw [Nat.succ_mul] at hle
  omega

theorem direct_iff (hg : g.Ok) (hl : ∀ c ∈ l, 2 ≤ c ∧ c < g.nFatent) (hnodup : l.Nodup) (hbound : p % g.ssize = 0)
    (hp : p / g.bcs < l.length) (hn : p / g.ssize % g.csize + n ≤ g.csize) (ho : o / g.ssize < l.length * g.csize) :
    g.sectorOf l (p / g.ssize) ≤ g.sectorOf l (o / g.ssize) ∧
        g.sectorOf l (o / g.ssize) < g.sectorOf l (p / g.ssize) + n ↔ p ≤ o ∧ o < p + g.ssize * n := by
  constructor
  · rintro ⟨hge, hlt⟩
    obtain ⟨r, hr⟩ := Nat.exists_eq_add_of_le hge
    have hrn : r < n := by omega
    have hin := direct_le hp hn
    rw [← sectorOf_add (by omega)] at hr
    have heq := sectorOf_inj hg hl hnodup ho (by omega) hr
    obtain ⟨q, rfl⟩ := Nat.dvd_of_mod_eq_zero hbound
    rw [Nat.mul_div_cancel_left _ hg.ssize_pos] at heq
    have hdiv := Nat.div_add_mod o g.ssize
    have hmod := Nat.mod_lt o hg.ssize_pos
    rw [heq, Nat.mul_add] at hdiv
    have hle := Nat.mul_le_mul_left g.ssize (show r + 1 ≤ n from hrn)
    rw [Nat.mul_succ] at hle
    omega
  · rintro ⟨hge, hlt⟩
    obtain ⟨x, rfl⟩ := Nat.exists_eq_add_of_le hge
    obtain ⟨hxn, hsect, -⟩ := direct_byte (l := l) hg hbound hn (Nat.lt_of_add_lt_add_left hlt)
    generalize x / g.ssize = r at hxn hsect
    omega

end spans

/-! ## `f_read` -/

section reads

variable {a br k n pos : Nat} {m m' m'' src : Memory}

theorem memCpy_in {x : Nat} (hx : x < n) : memCpy m a n src (a + x) = src x := by
  rw [memCpy, if_pos (by omega), Nat.add_sub_cancel_left]

theorem memCpy_start {x : Nat} (hx : x < n) : memCpy m 0 n src x = src x := by
  have hin : memCpy m 0 n src (0 + x) = src x := memCpy_in hx
  rwa [Nat.zero_add] at hin

theorem memCpy_out {x : Nat} (hx : x < a ∨ a + n ≤ x) : memCpy m a n src x = m x := if_neg (by omega)

/-- Some bytes of the file were read, and nothing else was written to the user's buffer. -/
structure Copied (f : Content) (pos br n : Nat) (m m' : Memory) : Prop where
  data : ∀ x < n, ∀ b, f.data (pos + x) = some b → m' (br + x) = b
  rest : ∀ x, x < br ∨ br + n ≤ x → m' x = m x

theorem Copied.zero : Copied f pos br 0 m m := ⟨fun _ hx => absurd hx (Nat.not_lt_zero _), fun _ _ => rfl⟩

theorem Copied.trans (h : Copied f pos br n m m') (h' : Copied f (pos + n) (br + n) k m' m'') :
    Copied f pos br (n + k) m m'' := by
  refine ⟨fun x hx b hb => ?_, fun x hx => ?_⟩
  · by_cases hxn : x < n
    · rw [h'.rest _ (.inl (by omega))]
      exact h.data x hxn b hb
    · obtain ⟨y, rfl⟩ := Nat.exists_eq_add_of_le (Nat.not_lt.mp hxn)
      rw [← Nat.add_assoc] at hb ⊢
      exact h'.data y (by omega) b hb
  · rw [h'.rest x (by omega), h.rest x (by omega)]

theorem Drive.badIn_good {d : Drive} (h : ∀ s, d.bad s = false) (sect count : Nat) : d.badIn sect count = false := by
  rw [Drive.badIn, List.any_eq_false]
  intro r _
  rw [h]
  exact Bool.false_ne_true

theorem Drive.readSpan_good {d : Drive} {ssize sect count : Nat} (h : ∀ s, d.bad s = false) :
    d.readSpan ssize sect count = some fun a => d.sector (sect + a / ssize) (a % ssize) := by
  rw [Drive.readSpan, Drive.badIn_good h]
  rfl

theorem readDirect_spec (m : Memory) (br : Nat) (h : Steady table kept v) (hst : Stores v.fs fp l f) {btr : Nat}
    (hbound : fp.fptr % v.fs.ssize = 0) (hbtr : btr / v.fs.ssize ≠ 0) :
    ∃ m', readDirect v.fs fp m br btr (v.fs.sectorOf l (fp.fptr / v.fs.ssize)) =
        (m', .moved (v.fs.ssize * wholeSectors v.fs fp btr)) ∧
      Copied f fp.fptr br (v.fs.ssize * wholeSectors v.fs fp btr) m m' := by
  have hg := h.sound.geometry
  obtain ⟨-, hspan, -⟩ := wholeSectors_spec hg fp hbtr
  have hdirect {x : Nat} (hx : x < v.fs.ssize * wholeSectors v.fs fp btr) :=
    direct_byte (l := l) hg hbound hspan hx
  unfold readDirect
  dsimp only
  rw [Drive.readSpan_good h.drive_good]
  dsimp only
  generalize hsect : v.fs.sectorOf l (fp.fptr / v.fs.ssize) = sect at hdirect ⊢
  generalize wholeSectors v.fs fp btr = cc at hdirect ⊢
  have hdisk {x : Nat} (hx : x < v.fs.ssize * cc) {b : UInt8} (hb : f.data (fp.fptr + x) = some b)
      (hnew : fp.dirty = true → fp.sect ≠ sect + x / v.fs.ssize) :
      v.fs.drive.sector (sect + x / v.fs.ssize) (x % v.fs.ssize) = b := by
    obtain ⟨-, hs, hmod⟩ := hdirect hx
    have := hst.disk _ b hb
    rw [hs, hmod] at this
    exact this hnew
  split
  · rename_i hnewer
    obtain ⟨hdirty, hle, hlt⟩ := hnewer
    obtain ⟨q, hq⟩ := Nat.exists_eq_add_of_le hle
    rw [hq, Nat.add_sub_cancel_left] at hlt ⊢
    have hfit : v.fs.ssize * q + v.fs.ssize ≤ v.fs.ssize * cc := by
      rw [← Nat.mul_succ]
      exact Nat.mul_le_mul_left _ hlt
    rw [Nat.mul_comm q]
    refine ⟨_, rfl, fun x hx b hb => ?_, fun x hx => ?_⟩
    · obtain ⟨-, hs, hmod⟩ := hdirect hx
      have hdiv := Nat.div_add_mod x v.fs.ssize
      by_cases hxq : x / v.fs.ssize = q
      · have hbuf := hst.buf _ b hb
        rw [hs, hmod, hq, hxq] at hbuf
        rw [hxq] at hdiv
        rw [← hdiv, ← Nat.add_assoc, memCpy_in (Nat.mod_lt _ hg.ssize_pos)]
        exact hbuf rfl
      · have hout : x < v.fs.ssize * q ∨ v.fs.ssize * q + v.fs.ssize ≤ x := by
          rcases Nat.lt_or_gt_of_ne hxq with hlow | hhigh
          · refine .inl ?_
            rw [Nat.mul_comm]
            exact (Nat.div_lt_iff_lt_mul hg.ssize_pos).mp hlow
          · refine .inr ?_
            rw [← Nat.mul_succ, Nat.mul_comm]
            exact (Nat.le_div_iff_mul_le hg.ssize_pos).mp hhigh
        rw [memCpy_out (by omega), memCpy_in hx]
        exact hdisk hx hb fun _ heq => hxq (by omega)
    · rw [memCpy_out (by omega), memCpy_out (by omega)]
  · rename_i holder
    refine ⟨_, rfl, fun x hx b hb => ?_, fun x hx => memCpy_out hx⟩
    rw [memCpy_in hx]
    refine hdisk hx hb fun hdirty heq => holder ⟨hdirty, ?_⟩
    rw [heq, Nat.add_sub_cancel_left]
    exact ⟨Nat.le_add_right .., (hdirect hx).1⟩

theorem readBuffer_spec (m : Memory) (br : Nat) (hg : fs.toGeometry.Ok) (hst : Stores fs fp l f) {btr : Nat}
    (hbtr : 0 < btr)
    (hsect : fp.sect = fs.sectorOf l (fp.fptr / fs.ssize)) :
    ∃ m', readBuffer fs fp m br btr = (m', .moved (sectorBytes fs fp btr)) ∧
      Copied f fp.fptr br (sectorBytes fs fp btr) m m' := by
  obtain ⟨-, hin, -⟩ := sectorBytes_spec hg fp hbtr
  refine ⟨_, rfl, fun x hx b hb => ?_, fun x hx => memCpy_out hx⟩
  obtain ⟨hdiv, hmod⟩ := byte_in (show fp.fptr % fs.ssize + x < fs.ssize by omega)
  have hbuf := hst.buf _ b hb
  rw [hdiv, hmod] at hbuf
  rw [memCpy_in hx]
  exact hbuf hsect

theorem pred_within {p : Nat} (hin : p % g.ssize ≠ 0) : (p - 1) / g.bcs = p / g.bcs := by
  have hpos : 0 < p := Nat.pos_of_ne_zero fun hzero => hin (by rw [hzero, Nat.zero_mod])
  rw [pred_div hpos, if_neg]
  rintro ⟨q, hq⟩
  exact hin (by rw [hq, Geometry.bcs, Nat.mul_comm g.csize, Nat.mul_assoc, Nat.mul_mod_right])

theorem Located.clust_within (hloc : Located g fp l) (hin : fp.fptr % g.ssize ≠ 0) :
    l[fp.fptr / g.bcs]? = some fp.clust := by
  rw [← pred_within hin]
  exact hloc.clust (Nat.pos_of_ne_zero fun hzero => hin (by rw [hzero, Nat.zero_mod]))

theorem OwnSector.mine (hown : OwnSector v.fs.toGeometry fp (v.chains i)) (h : Steady table kept v)
    (hdirty : fp.dirty = true) : v.fs.database ≤ fp.sect ∧ Mine kept v i (v.fs.clusterOf fp.sect) := by
  obtain ⟨j, hj, hsect⟩ := hown hdirty
  obtain ⟨hge, -, hmem⟩ := h.chain_sector hj
  rw [hsect]
  exact ⟨hge, h.mine hmem⟩

/-- An open file between two rounds. -/
structure Active (table : Nat → Nat) (kept : Nat → Prop) (v : Volume ι) (i : ι) (fp : Fil) (f : Content) : Prop where
  steady : Steady table kept v
  stores : Stores v.fs fp (v.chains i) f
  located : Located v.fs.toGeometry fp (v.chains i)
  own : OwnSector v.fs.toGeometry fp (v.chains i)

/-- What a read may do to the file: the file pointer goes on, and the buffer is read from the drive. -/
structure Browsed (fp fp' : Fil) (n : Nat) : Prop where
  same : fp' = { fp with
    fptr := fp.fptr + n, clust := fp'.clust, sect := fp'.sect, buf := fp'.buf, dirty := fp'.dirty }
  dirty : fp'.dirty = true → fp.dirty = true

theorem Browsed.refl (fp : Fil) : Browsed fp fp 0 := ⟨rfl, id⟩

theorem Browsed.trans {fp' fp'' : Fil} (h : Browsed fp fp' n) (h' : Browsed fp' fp'' k) : Browsed fp fp'' (n + k) := by
  refine ⟨?_, fun hd => h.dirty (h'.dirty hd)⟩
  have hsame := h'.same
  rw [h.same] at hsame
  rw [← Nat.add_assoc]
  exact hsame

theorem Stores.move {fp' : Fil} (hst : Stores fs fp l f) (h : fp' = { fp with fptr := fp'.fptr, clust := fp'.clust }) :
    Stores fs fp' l f := by
  rw [h]
  exact ⟨hst.first, hst.size, hst.limit, hst.room, hst.buf, hst.disk⟩

/-- A round of `f_read` has read `n` bytes. -/
def ReadRound (table : Nat → Nat) (kept : Nat → Prop) (v : Volume ι) (i : ι) (fp : Fil) (f : Content) (m : Memory)
    (br btr : Nat) (r : Fatfs × Fil × Memory × Round) : Prop :=
  ∃ fs fp' m' n, r = (fs, fp', m', .moved n) ∧ 0 < n ∧ n ≤ btr ∧ Copied f fp.fptr br n m m' ∧
    Within kept v ⟨fs, v.chains⟩ i ∧ Active table kept ⟨fs, v.chains⟩ i { fp' with fptr := fp'.fptr + n } f ∧
    Browsed fp { fp' with fptr := fp'.fptr + n } n

variable {btr : Nat}

theorem readBuffer_round (m : Memory) (br : Nat) (h : Steady table kept v) (hst : Stores v.fs fp (v.chains i) f)
    (hown : OwnSector v.fs.toGeometry fp (v.chains i)) (hc : (v.chains i)[fp.fptr / v.fs.bcs]? = some fp.clust)
    (hsect : fp.sect = v.fs.sectorOf (v.chains i) (fp.fptr / v.fs.ssize)) (hbtr : 0 < btr) :
    ReadRound table kept v i fp f m br btr (v.fs, fp, readBuffer v.fs fp m br btr) := by
  have hg := h.sound.geometry
  obtain ⟨hpos, hin, hle⟩ := sectorBytes_spec hg fp hbtr
  obtain ⟨m', heq, hcopied⟩ := readBuffer_spec m br hg hst hbtr hsect
  rw [heq]
  refine ⟨v.fs, fp, m', _, rfl, hpos, hle, hcopied, .refl v i, ⟨h, hst.move rfl, ?_, hown⟩, rfl, id⟩
  refine .of_span rfl hpos (buffer_span hg hin) hc fun hne => ?_
  rw [div_stays hin hne]
  exact hsect

/-- The rest of a round at a sector boundary, when the cluster is known. -/
theorem readAligned_spec (m : Memory) (br : Nat) (h : Steady table kept v) (hst : Stores v.fs fp (v.chains i) f)
    (hown : OwnSector v.fs.toGeometry fp (v.chains i)) (hc : (v.chains i)[fp.fptr / v.fs.bcs]? = some fp.clust)
    (hbound : fp.fptr % v.fs.ssize = 0) (hbtr : 0 < btr) :
    ReadRound table kept v i fp f m br btr
      (readAligned v.fs fp m br btr (v.fs.sectorOf (v.chains i) (fp.fptr / v.fs.ssize))) := by
  have hg := h.sound.geometry
  unfold readAligned
  by_cases hwhole : btr / v.fs.ssize ≠ 0
  · obtain ⟨hpos, hspan, hle⟩ := wholeSectors_spec hg fp hwhole
    obtain ⟨m', heq, hcopied⟩ := readDirect_spec m br h hst hbound hwhole
    have hmoved := Nat.mul_pos hg.ssize_pos hpos
    rw [if_pos hwhole, heq]
    refine ⟨v.fs, fp, m', _, rfl, hmoved, hle, hcopied, .refl v i, ⟨h, hst.move rfl, ?_, hown⟩, rfl, id⟩
    refine .of_span rfl hmoved (direct_span hbound hspan) hc fun hin => absurd ?_ hin
    show (fp.fptr + v.fs.ssize * _) % v.fs.ssize = 0
    rw [Nat.add_mul_mod_self_left, hbound]
  · obtain ⟨fs, buf, dirty, heq, hsteady, hwithin, -, hst', hdirty⟩ :=
      loadSector_spec h hst (hown.mine h) (v.fs.sectorOf (v.chains i) (fp.fptr / v.fs.ssize))
    have hgeom : fs.toGeometry = v.fs.toGeometry := hwithin.geometry
    rw [if_neg hwhole, heq]
    dsimp only
    rw [if_neg (not_not.mpr rfl)]
    obtain ⟨fs', fp', m', n, heq', hpos, hle, hcopied, hwithin', hactive, hbrowsed⟩ :=
      readBuffer_round (v := ⟨fs, v.chains⟩) m br hsteady hst'
        (fun hd => by rw [hgeom, (hdirty hd).2]; exact hown (hdirty hd).1) (by rw [hgeom]; exact hc)
        (by rw [hgeom]) hbtr
    refine ⟨fs', fp', m', n, heq', hpos, hle, hcopied, hwithin.trans hwithin', hactive, ?_⟩
    exact ⟨hbrowsed.same, fun hd => (hdirty (hbrowsed.dirty hd)).1⟩

theorem readRound_spec (m : Memory) (br : Nat) (h : Active table kept v i fp f) (hlt : fp.fptr < f.size)
    (hbtr : 0 < btr) :
    ReadRound table kept v i fp f m br btr (readRound v.fs fp m br btr) := by
  obtain ⟨hsteady, hst, hloc, hown⟩ := h
  have hg := hsteady.sound.geometry
  unfold readRound
  by_cases hbound : fp.fptr % v.fs.ssize = 0
  · obtain ⟨fs, clst, heq, htouch, htable, hc⟩ := readSector_spec hsteady hst hloc hbound hlt
    have hgeom : fs.toGeometry = v.fs.toGeometry := htouch.geometry
    have hsteady' := hsteady.touch htouch htable
    have hst' : Stores fs { fp with clust := clst } (v.chains i) f := (hsteady.stores_touch htouch hst).move rfl
    rw [if_pos hbound, heq]
    dsimp only
    obtain ⟨fs', fp', m', n, heq', hpos, hle, hcopied, hwithin, hactive, hbrowsed⟩ :=
      readAligned_spec (v := ⟨fs, v.chains⟩) m br hsteady' hst'
        (by rw [hgeom]; exact hown) (by rw [hgeom]; exact hc) (by rw [hgeom]; exact hbound) hbtr
    rw [hgeom] at heq'
    refine ⟨fs', fp', m', n, heq', hpos, hle, hcopied, (Within.touch htouch).trans hwithin, hactive, ?_⟩
    exact ⟨hbrowsed.same, hbrowsed.dirty⟩
  · rw [if_neg hbound]
    exact readBuffer_round m br hsteady hst hown (hloc.clust_within hbound) (hloc.sect hbound) hbtr

theorem readLoop_spec {fuel : Nat} (m : Memory) (br : Nat) (h : Active table kept v i fp f)
    (hend : fp.fptr + btr ≤ f.size)
    (hfuel : btr ≤ fuel) :
    ∃ fs fp' m', readLoop fuel v.fs fp m br btr = (fs, fp', m', br + btr, .ok) ∧ Copied f fp.fptr br btr m m' ∧
      Within kept v ⟨fs, v.chains⟩ i ∧ Active table kept ⟨fs, v.chains⟩ i fp' f ∧ Browsed fp fp' btr := by
  induction fuel generalizing v fp m br btr with
  | zero =>
    obtain rfl : btr = 0 := by omega
    exact ⟨v.fs, fp, m, rfl, .zero, .refl v i, h, .refl fp⟩
  | succ fuel ih =>
    unfold readLoop
    by_cases hzero : btr = 0
    · rw [if_pos hzero]
      subst hzero
      exact ⟨v.fs, fp, m, rfl, .zero, .refl v i, h, .refl fp⟩
    · obtain ⟨fs, fp', m', n, heq, hpos, hle, hcopied, hwithin, hactive, hbrowsed⟩ :=
        readRound_spec m br h (by omega) (Nat.pos_of_ne_zero hzero)
      have hfptr : fp'.fptr + n = fp.fptr + n := congrArg Fil.fptr hbrowsed.same
      obtain ⟨k, rfl⟩ := Nat.exists_eq_add_of_le hle
      rw [if_neg hzero, heq]
      dsimp only
      rw [Nat.add_sub_cancel_left]
      obtain ⟨fs', fp'', m'', heq', hcopied', hwithin', hactive', hbrowsed'⟩ :=
        ih (v := ⟨fs, v.chains⟩) m' (br + n) hactive (show fp'.fptr + n + k ≤ f.size by omega) (by omega)
      dsimp only at hcopied'
      rw [hfptr] at hcopied'
      rw [Nat.add_assoc] at heq'
      exact ⟨fs', fp'', m'', heq', hcopied.trans hcopied', hwithin.trans hwithin', hactive', hbrowsed.trans hbrowsed'⟩

end reads

end ThyristorController.Fat
