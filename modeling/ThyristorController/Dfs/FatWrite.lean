import ThyristorController.Dfs.FatRead

/-!
# `f_write` on a good drive

A round may need a new cluster, and ends the loop when there is none. The bytes go past the buffer as whole sectors, or
into the buffer, which has the sector of the file pointer then.
-/

namespace ThyristorController.Fat

open Bytes Chain

variable {ι : Type} {table : Nat → Nat} {kept : Nat → Prop} {v v' : Volume ι} {i : ι} {fs : Fatfs} {fp : Fil}
  {l l' : List Nat} {f : Content}

/-! ## A cluster for the file pointer -/

/-- No cluster can be taken. -/
def Fatfs.Full (fs : Fatfs) : Prop := ∀ c, ¬ fs.Free c

/-- The volume after a cluster was asked for, as the `k`-th one of the file. -/
def Reached (table : Nat → Nat) (kept : Nat → Prop) (v : Volume ι) (i : ι) (k : Nat) (r : Fatfs × Nat) : Prop :=
  Touch v.fs r.1 ∧
    (r.2 = 0 ∧ r.1.table = v.fs.table ∧ v.fs.Full ∨
      ∃ v' : Volume ι, v'.fs = r.1 ∧ (∀ j, j ≠ i → v'.chains j = v.chains j) ∧ v.chains i <+: v'.chains i ∧
        (v'.chains i)[k]? = some r.2 ∧ Steady table kept v')

section clusters

theorem Fatfs.Full.congr {fs' : Fatfs} (h : fs.Full) (hgeom : fs'.toGeometry = fs.toGeometry)
    (htable : fs'.table = fs.table) : fs'.Full := by
  intro c hc
  refine h c ?_
  unfold Fatfs.Free at hc ⊢
  rwa [htable, hgeom] at hc

theorem Stores.grow (hst : Stores fs fp l f) (hl : l <+: l') : Stores fs { fp with sclust := l'.headD 0 } l' f := by
  obtain ⟨r, rfl⟩ := hl
  have hsect {o : Nat} {b : UInt8} (hb : f.data o = some b) :
      fs.sectorOf (l ++ r) (o / fs.ssize) = fs.sectorOf l (o / fs.ssize) :=
    sectorOf_append (div_lt_sectors (Nat.lt_of_lt_of_le (f.within o b hb) hst.room))
  refine ⟨rfl, hst.size, hst.limit, ?_, fun o b hb => ?_, fun o b hb => ?_⟩
  · rw [List.length_append, Nat.add_mul]
    exact Nat.le_add_right_of_le hst.room
  · rw [hsect hb]
    exact hst.buf o b hb
  · rw [hsect hb]
    exact hst.disk o b hb

theorem Reached.here (h : Steady table kept v) {k c : Nat} (hk : (v.chains i)[k]? = some c) :
    Reached table kept v i k (v.fs, c) :=
  ⟨.refl h.sound, .inr ⟨v, rfl, fun _ _ => rfl, List.prefix_rfl, hk, h⟩⟩

variable [DecidableEq ι]

theorem createChain_first (h : Steady table kept v) (hempty : v.chains i = []) :
    Reached table kept v i 0 (createChain v.fs 0) := by
  obtain ⟨htouch, hcreated⟩ := createChain_spec h.sound (Fatfs.robust_of_good h.good) 0
  obtain ⟨w, hstep⟩ : ∃ w, volumeStep v (.create i) = some w := ⟨_, if_pos hempty⟩
  have htidy := (h.toTidy.create hstep).1
  unfold volumeStep at hstep
  generalize createChain v.fs 0 = r at htouch hcreated hstep
  obtain ⟨fs, ncl⟩ := r
  obtain ⟨-, hstep⟩ := Option.ite_none_right_eq_some.mp hstep
  obtain rfl := Option.some.inj hstep
  dsimp only at htouch hcreated htidy
  refine ⟨htouch, ?_⟩
  cases hcreated with
  | follows hc => exact absurd rfl hc
  | took hin =>
    rw [htouch.geometry, if_pos hin] at htidy
    refine .inr ⟨_, rfl, fun j hj => Function.update_of_ne hj .., ?_, ?_, htidy, h.window.touch h.sound.geometry htouch⟩
    · dsimp only
      rw [hempty]
      exact List.nil_prefix
    · dsimp only
      rw [Function.update_self]
      rfl
  | full hfull htable => exact .inl ⟨rfl, htable, fun c hc => hfull c hc.1 hc.2.1 hc.2.2⟩
  | broken hbroken =>
    obtain ⟨hc, -⟩ | ⟨d, hd₂, hd, hone⟩ := hbroken
    · exact absurd rfl hc
    · exact absurd hone (h.ne_one ⟨hd₂, hd⟩)
  | faulty hbad => exact absurd hbad h.good

theorem createChain_behind (h : Steady table kept v) {k c : Nat} (hk : (v.chains i)[k]? = some c) :
    Reached table kept v i (k + 1) (createChain v.fs c) := by
  have hl := h.isChain i
  have hused := hl.used h.sound (List.mem_of_getElem? hk)
  have hrange := hl.range c (List.mem_of_getElem? hk)
  have hlt := (List.getElem?_eq_some_iff.mp hk).1
  obtain ⟨htouch, hcreated⟩ := createChain_spec h.sound (Fatfs.robust_of_good h.good) c
  obtain ⟨w, hstep⟩ : ∃ w, volumeStep v (.stretch i k) = some w := by
    dsimp only [volumeStep]
    rw [hk]
    exact ⟨_, rfl⟩
  have htidy := (h.toTidy.stretch hstep).1
  dsimp only [volumeStep] at hstep
  rw [hk] at hstep
  dsimp only at hstep
  generalize createChain v.fs c = r at htouch hcreated hstep
  obtain ⟨fs, ncl⟩ := r
  obtain rfl := Option.some.inj hstep
  dsimp only at htouch hcreated htidy
  have hmore := hl.more_iff hk
  refine ⟨htouch, ?_⟩
  cases hcreated with
  | follows hc hnext htable =>
    rw [htouch.geometry, if_neg fun hg => Nat.ne_of_lt (hmore.mp hnext.2) hg.1] at htidy
    have hd := List.getElem?_eq_getElem (hmore.mp hnext.2)
    have hwindow : Apart kept fs := h.window.touch h.sound.geometry htouch
    refine .inr ⟨⟨fs, v.chains⟩, rfl, fun _ _ => rfl, List.prefix_rfl, ?_, htidy, hwindow⟩
    rw [hl.table_eq hk hd]
    exact hd
  | took hin hzero hend =>
    have hlen : k + 1 = (v.chains i).length := by
      have := mt hmore.mpr (Nat.not_lt.mpr (hend (by omega)).2.2)
      omega
    rw [htouch.geometry, if_pos ⟨hlen, hin⟩] at htidy
    refine .inr ⟨_, rfl, fun j hj => Function.update_of_ne hj .., ?_, ?_, htidy, h.window.touch h.sound.geometry htouch⟩
    · dsimp only
      rw [Function.update_self]
      exact List.prefix_append ..
    · dsimp only
      rw [Function.update_self, hlen, List.getElem?_concat_length]
  | full hfull htable => exact .inl ⟨rfl, htable, fun c hc => hfull c hc.1 hc.2.1 hc.2.2⟩
  | broken hbroken =>
    obtain ⟨-, hlow⟩ | ⟨d, hd₂, hd, hone⟩ := hbroken
    · omega
    · exact absurd hone (h.ne_one ⟨hd₂, hd⟩)
  | faulty hbad => exact absurd hbad h.good

theorem writeCluster_spec (h : Active table kept v i fp f) (hbound : fp.fptr % v.fs.ssize = 0)
    (hcs : csect v.fs fp = 0) : Reached table kept v i (fp.fptr / v.fs.bcs) (writeCluster v.fs fp) := by
  obtain ⟨hsteady, hst, hloc, hown⟩ := h
  unfold writeCluster
  by_cases hzero : fp.fptr = 0
  · rw [if_pos hzero, hzero, Nat.zero_div, hst.first]
    have hrange := (hsteady.isChain i).range
    cases hchain : v.chains i with
    | nil => exact createChain_first hsteady hchain
    | cons c rest =>
      have hc := hrange c (by rw [hchain]; exact List.mem_cons_self ..)
      have hne : (c :: rest).headD 0 ≠ 0 := show c ≠ 0 by omega
      rw [if_neg hne]
      exact .here hsteady (by rw [hchain]; rfl)
  · obtain ⟨k, hk, hclust⟩ := hloc.clust_before hsteady.sound.geometry hbound hcs (Nat.pos_of_ne_zero hzero)
    rw [if_neg hzero, hk]
    exact createChain_behind hsteady hclust

/-- The file pointer has a cluster and a sector, and nothing dirty is in the buffer; or the volume is full. -/
def SectorReady (table : Nat → Nat) (kept : Nat → Prop) (v : Volume ι) (i : ι) (fp : Fil) (f : Content)
    (r : Fatfs × Fil × Except Round Nat) : Prop :=
  (∃ fs, r = (fs, fp, .error .full) ∧ Touch v.fs fs ∧ fs.table = v.fs.table ∧ v.fs.Full) ∨
    ∃ (v' : Volume ι) (fp' : Fil), r = (v'.fs, fp', .ok (v'.fs.sectorOf (v'.chains i) (fp.fptr / v'.fs.ssize))) ∧
      Within kept v v' i ∧ Steady table kept v' ∧ (v'.chains i)[fp.fptr / v'.fs.bcs]? = some fp'.clust ∧
      Stores v'.fs fp' (v'.chains i) f ∧ fp' = { fp with clust := fp'.clust, sclust := fp'.sclust, dirty := false }

omit [DecidableEq ι] in
theorem headD_grow (hl : l <+: l') (hne : l.headD 0 ≠ 0) : l'.headD 0 = l.headD 0 := by
  obtain ⟨r, rfl⟩ := hl
  cases l with
  | nil => exact absurd rfl hne
  | cons c l => rfl

omit [DecidableEq ι] in
theorem OwnSector.grow {g : Geometry} (hown : OwnSector g fp l) (hl : l <+: l') : OwnSector g fp l' := by
  intro hdirty
  obtain ⟨j, hj, hsect⟩ := hown hdirty
  obtain ⟨r, rfl⟩ := hl
  refine ⟨j, ?_, by rw [sectorOf_append hj]; exact hsect⟩
  rw [List.length_append, Nat.add_mul]
  exact Nat.lt_of_lt_of_le hj (Nat.le_add_right ..)

omit [DecidableEq ι] in
theorem Within.grow (htouch : Touch v.fs v'.fs) (hothers : ∀ j, j ≠ i → v'.chains j = v.chains j) :
    Within kept v v' i :=
  ⟨htouch.geometry, hothers, fun s hs => htouch.view s hs.1 hs.2.1 hs.2.2.1⟩

theorem writeSector_spec (h : Active table kept v i fp f) (hbound : fp.fptr % v.fs.ssize = 0) :
    SectorReady table kept v i fp f (writeSector v.fs fp) := by
  obtain ⟨hsteady, hst, hloc, hown⟩ := id h
  have hg := hsteady.sound.geometry
  have hreached : Reached table kept v i (fp.fptr / v.fs.bcs)
      (if csect v.fs fp = 0 then writeCluster v.fs fp else (v.fs, fp.clust)) := by
    split
    · exact writeCluster_spec h hbound ‹_›
    · exact .here hsteady (hloc.clust_same hg hbound ‹_›)
  have hkept : csect v.fs fp ≠ 0 →
      (if csect v.fs fp = 0 then writeCluster v.fs fp else (v.fs, fp.clust)).2 ≠ 0 := by
    intro hcs
    have hc := (hsteady.isChain i).range _ (List.mem_of_getElem? (hloc.clust_same hg hbound hcs))
    rw [if_neg hcs]
    show fp.clust ≠ 0
    omega
  unfold writeSector
  generalize (if csect v.fs fp = 0 then writeCluster v.fs fp else (v.fs, fp.clust)) = r at hreached hkept
  obtain ⟨fs, clst⟩ := r
  obtain ⟨htouch, hres⟩ := hreached
  dsimp only at htouch hres hkept ⊢
  have hgeom : fs.toGeometry = v.fs.toGeometry := htouch.geometry
  have hcs : csect fs fp = csect v.fs fp := by
    unfold csect
    rw [hgeom]
  rw [hcs]
  obtain ⟨rfl, htable, hfull⟩ | ⟨v', rfl, hothers, hprefix, hc, hsteady'⟩ := hres
  · have hzero : csect v.fs fp = 0 := by_contra fun hne => hkept hne rfl
    rw [if_pos ⟨hzero, rfl⟩]
    exact .inl ⟨fs, rfl, htouch, htable, hfull⟩
  · have hrange := (hsteady'.isChain i).range clst (List.mem_of_getElem? hc)
    have hbound := nFatent_lt hsteady'.sound
    have hsclust : (if csect v.fs fp = 0 ∧ fp.sclust = 0 then clst else fp.sclust) = (v'.chains i).headD 0 := by
      by_cases hnone : fp.sclust = 0
      · have hempty : fp.fptr = 0 := by
          refine Nat.eq_zero_of_not_pos fun hpos => ?_
          have hclust := hloc.clust hpos
          cases hchain : v.chains i with
          | nil => rw [hchain] at hclust; cases hclust
          | cons c rest =>
            have hc := (hsteady.isChain i).range c (by rw [hchain]; exact List.mem_cons_self ..)
            have hfirst : fp.sclust = c := by rw [hst.first, hchain]; rfl
            omega
        have hstart : csect v.fs fp = 0 := by
          unfold csect
          rw [hempty, Nat.zero_div, Nat.zero_and]
        rw [hempty, Nat.zero_div] at hc
        rw [if_pos ⟨hstart, hnone⟩, List.headD_eq_head?_getD, List.head?_eq_getElem?, hc]
        rfl
      · rw [if_neg fun hboth => hnone hboth.2, hst.first]
        exact (headD_grow hprefix (by rwa [← hst.first])).symm
    have hown' : OwnSector v'.fs.toGeometry fp (v'.chains i) := by
      rw [hgeom]
      exact hown.grow hprefix
    have hst' : Stores v'.fs { fp with clust := clst, sclust := (v'.chains i).headD 0 } (v'.chains i) f :=
      ((hsteady.stores_touch htouch hst).grow hprefix).move rfl
    obtain ⟨fs', heq, hsteady'', hwithin, -, hstores⟩ := flush_spec hsteady'
      { fp with clust := clst, sclust := (v'.chains i).headD 0 } (hown'.mine hsteady')
    have hgeom' : fs'.toGeometry = v'.fs.toGeometry := hwithin.geometry
    have hsector : v.fs.sectorOf (v'.chains i) (fp.fptr / v.fs.ssize) =
        clust2sect v.fs.toGeometry clst + csect v.fs fp := by
      rw [div_bcs] at hc
      rw [Geometry.sectorOf, getD_of_getElem? hc, csect_eq hg]
    rw [if_neg (by omega), if_neg (by omega), if_neg (by omega), hsclust, heq]
    dsimp only
    rw [if_neg (not_not.mpr rfl), hgeom', if_neg (clust2sect_pos hsteady'.sound.geometry hrange)]
    refine .inr ⟨⟨fs', v'.chains⟩, _, ?_, (Within.grow htouch hothers).trans hwithin, hsteady'', ?_, hstores _ _ hst',
      rfl⟩
    · dsimp only
      rw [hgeom', hgeom, hsector]
      unfold csect
      rw [hgeom', hgeom]
    · dsimp only
      rw [hgeom', hgeom]
      exact hc

end clusters

/-! ## The bytes of a round -/

section bytes

variable {g : Geometry} {b k n o p pos : Nat} {w : Memory}

theorem Content.write_zero (hpos : pos ≤ f.size) (src : Memory) : f.write pos 0 src = f := by
  refine Content.ext (Nat.max_eq_left hpos) (funext fun o => ?_)
  exact if_neg (show ¬ (pos ≤ o ∧ o < pos + 0) by omega)

theorem Content.write_write (f : Content) (pos b n k : Nat) (w : Memory) :
    (f.write pos n fun a => w (b + a)).write (pos + n) k (fun a => w (b + n + a)) =
      f.write pos (n + k) fun a => w (b + a) := by
  refine Content.ext ?_ (funext fun o => ?_)
  · show max (max f.size (pos + n)) (pos + n + k) = max f.size (pos + (n + k))
    omega
  · unfold Content.write
    dsimp only
    by_cases hlow : pos ≤ o ∧ o < pos + n
    · rw [if_neg (by omega), if_pos hlow, if_pos (by omega)]
    · by_cases hhigh : pos + n ≤ o ∧ o < pos + n + k
      · rw [if_pos hhigh, if_pos (by omega), show b + n + (o - (pos + n)) = b + (o - pos) by omega]
      · rw [if_neg hhigh, if_neg hlow, if_neg (by omega)]

theorem span_room (hp : p / g.bcs < l.length) (hn : p % g.bcs + n ≤ g.bcs) : p + n ≤ l.length * g.bcs := by
  have hle := Nat.mul_le_mul_right g.bcs (show p / g.bcs + 1 ≤ l.length from hp)
  have hdiv := Nat.div_add_mod p g.bcs
  rw [Nat.mul_comm] at hdiv
  rw [Nat.succ_mul] at hle
  omega

theorem pointer_lt (hg : fs.toGeometry.Ok) (hc : l[fp.fptr / fs.bcs]? = some fp.clust) :
    fp.fptr / fs.ssize < l.length * fs.csize :=
  direct_le (n := 1) (List.getElem?_eq_some_iff.mp hc).1 (Nat.mod_lt _ hg.csize_pos)

theorem Stores.write {fs' : Fatfs} {fp' : Fil} (hst : Stores fs fp l f)
    (hgeom : fs'.toGeometry = fs.toGeometry) (hp : p / fs.bcs < l.length) (hspan : p % fs.bcs + n ≤ fs.bcs)
    (hlimit : p + n ≤ 0xffffffff) (hfirst : fp'.sclust = fp.sclust) (hsize : fp'.objsize = max fp.objsize (p + n))
    (hbuf : ∀ o b, (f.write p n w).data o = some b → fp'.sect = fs.sectorOf l (o / fs.ssize) →
      fp'.buf (o % fs.ssize) = b)
    (hdisk : ∀ o b, (f.write p n w).data o = some b → (fp'.dirty = true → fp'.sect ≠ fs.sectorOf l (o / fs.ssize)) →
      fs'.drive.sector (fs.sectorOf l (o / fs.ssize)) (o % fs.ssize) = b) : Stores fs' fp' l (f.write p n w) := by
  refine ⟨hfirst.trans hst.first, by rw [hsize, hst.size]; rfl, Nat.max_le.mpr ⟨hst.limit, hlimit⟩, ?_, ?_, ?_⟩
  · rw [hgeom]
    exact Nat.max_le.mpr ⟨hst.room, span_room hp hspan⟩
  · rw [hgeom]
    exact hbuf
  · rw [hgeom]
    exact hdisk

theorem advance_size (fp : Fil) (n : Nat) : (fp.advance n).objsize = max fp.objsize (fp.fptr + n) := by
  unfold Fil.advance
  dsimp only
  split <;> omega

theorem Drive.writeSpan_good {d : Drive} {ssize sect count : Nat} {src : Memory} (h : ∀ s, d.bad s = false) :
    d.writeSpan ssize sect count src = some { d with
      sector := fun s =>
        if sect ≤ s ∧ s < sect + count then fun a => src ((s - sect) * ssize + a) else d.sector s } := by
  rw [Drive.writeSpan, Drive.badIn_good h]
  rfl

/-- A byte is written to a sector of the row, or is an old one of another sector. -/
theorem write_direct {c : UInt8} (hg : g.Ok) (hl : ∀ c ∈ l, 2 ≤ c ∧ c < g.nFatent) (hnodup : l.Nodup)
    (hbound : p % g.ssize = 0) (hp : p / g.bcs < l.length) (hn : p / g.ssize % g.csize + n ≤ g.csize)
    (ho : o / g.ssize < l.length * g.csize) (hc : (f.write p (g.ssize * n) fun a => w (b + a)).data o = some c) :
    let first := g.sectorOf l (p / g.ssize)
    let s := g.sectorOf l (o / g.ssize)
    (first ≤ s ∧ s < first + n) ∧ w (b + ((s - first) * g.ssize + o % g.ssize)) = c ∨
      ¬ (first ≤ s ∧ s < first + n) ∧ f.data o = some c := by
  have hiff := direct_iff hg hl hnodup hbound hp hn ho
  unfold Content.write at hc
  dsimp only at hc ⊢
  split at hc
  · rename_i hin
    obtain ⟨x, rfl⟩ := Nat.exists_eq_add_of_le hin.1
    obtain ⟨-, hs, hmod⟩ := direct_byte (l := l) hg hbound hn (Nat.lt_of_add_lt_add_left hin.2)
    refine .inl ⟨hiff.mpr hin, ?_⟩
    rw [Nat.add_sub_cancel_left] at hc
    rw [hs, hmod, Nat.add_sub_cancel_left, Nat.mul_comm, Nat.div_add_mod]
    exact Option.some.inj hc
  · rename_i hout
    exact .inr ⟨mt hiff.mp hout, hc⟩

/-- Whole sectors go to the drive, and to the buffer if it has one of them. -/
theorem writeDirect_spec (bw : Nat) {btw : Nat} (w : Memory) (h : Steady table kept v)
    (hst : Stores v.fs fp (v.chains i) f) (hclean : fp.dirty = false)
    (hc : (v.chains i)[fp.fptr / v.fs.bcs]? = some fp.clust) (hbound : fp.fptr % v.fs.ssize = 0)
    (hbtw : btw / v.fs.ssize ≠ 0) (hlimit : fp.fptr + btw ≤ 0xffffffff) :
    ∃ fs fp', writeDirect v.fs fp w bw btw (v.fs.sectorOf (v.chains i) (fp.fptr / v.fs.ssize)) =
        (fs, fp', .moved (v.fs.ssize * wholeSectors v.fs fp btw)) ∧ Steady table kept ⟨fs, v.chains⟩ ∧
      Within kept v ⟨fs, v.chains⟩ i ∧ fp' = { fp with buf := fp'.buf, dirty := false } ∧
      Stores fs (fp'.advance (v.fs.ssize * wholeSectors v.fs fp btw)) (v.chains i)
        (f.write fp.fptr (v.fs.ssize * wholeSectors v.fs fp btw) fun a => w (bw + a)) := by
  have hg := h.sound.geometry
  have hl := h.isChain i
  obtain ⟨hpos, hspan, hle⟩ := wholeSectors_spec hg fp hbtw
  have hp := (List.getElem?_eq_some_iff.mp hc).1
  have hfit := direct_span hbound hspan
  have hend := direct_le hp hspan
  have hlim : fp.fptr + v.fs.ssize * wholeSectors v.fs fp btw ≤ 0xffffffff := by omega
  have hroom : max f.size (fp.fptr + v.fs.ssize * wholeSectors v.fs fp btw) ≤ (v.chains i).length * v.fs.bcs :=
    Nat.max_le.mpr ⟨hst.room, span_room hp hfit⟩
  have hdata (o : Nat) (c : UInt8) (hc : _) := write_direct (o := o) (c := c) (w := w) (b := bw) (f := f) hg hl.range
    hl.nodup hbound hp hspan (div_lt_sectors (Nat.lt_of_lt_of_le (Content.within _ o c hc) hroom)) hc
  unfold writeDirect
  dsimp only
  rw [Drive.writeSpan_good h.drive_good]
  dsimp only
  dsimp only at hdata
  generalize wholeSectors v.fs fp btw = cc at *
  generalize hsect : v.fs.sectorOf (v.chains i) (fp.fptr / v.fs.ssize) = sect at *
  generalize hd : ({ v.fs.drive with
    sector := fun s =>
      if sect ≤ s ∧ s < sect + cc then fun a => w (bw + ((s - sect) * v.fs.ssize + a))
      else v.fs.drive.sector s } : Drive) = d
  have hin {s : Nat} (hs : sect ≤ s ∧ s < sect + cc) (a : Nat) :
      d.sector s a = w (bw + ((s - sect) * v.fs.ssize + a)) := by
    rw [← hd]
    exact congrFun (if_pos hs) a
  have hout {s : Nat} (hs : ¬ (sect ≤ s ∧ s < sect + cc)) : d.sector s = v.fs.drive.sector s := by
    rw [← hd]
    exact if_neg hs
  obtain ⟨hsteady, hwithin, -⟩ := h.writeData (i := i) (d := d) (by rw [← hd]) fun s _ => by
    by_cases hs : sect ≤ s ∧ s < sect + cc
    · obtain ⟨r, rfl⟩ := Nat.exists_eq_add_of_le hs.1
      rw [← hsect, ← sectorOf_add (by omega)]
      obtain ⟨hge, -, hmem⟩ := h.chain_sector (i := i) (j := fp.fptr / v.fs.ssize + r) (by omega)
      exact .inr ⟨hge, h.mine hmem⟩
    · exact .inl (hout hs)
  have hdisk (o : Nat) (c : UInt8) (hc : (f.write fp.fptr (v.fs.ssize * cc) fun a => w (bw + a)).data o = some c) :
      d.sector (v.fs.sectorOf (v.chains i) (o / v.fs.ssize)) (o % v.fs.ssize) = c := by
    obtain ⟨hrow, hw⟩ | ⟨hrow, hold⟩ := hdata o c hc
    · rw [hin hrow]
      exact hw
    · rw [hout hrow]
      exact hst.disk o c hold fun hd => absurd (hclean.symm.trans hd) Bool.false_ne_true
  by_cases hhit : sect ≤ fp.sect ∧ fp.sect - sect < cc
  · rw [if_pos hhit]
    refine ⟨_, _, rfl, hsteady, hwithin, rfl, ?_⟩
    refine hst.write rfl hp hfit hlim rfl (advance_size _ _) (fun o c hc hs => ?_) fun o c hc _ => hdisk o c hc
    have hs : fp.sect = v.fs.sectorOf (v.chains i) (o / v.fs.ssize) := hs
    obtain ⟨-, hw⟩ | ⟨hrow, -⟩ := hdata o c hc
    · rw [← hs, ← Nat.add_assoc] at hw
      show memCpy fp.buf 0 v.fs.ssize (fun a => w (bw + (fp.sect - sect) * v.fs.ssize + a)) _ = c
      rw [memCpy_start (Nat.mod_lt o hg.ssize_pos)]
      exact hw
    · rw [← hs] at hrow
      omega
  · rw [if_neg hhit]
    refine ⟨_, fp, rfl, hsteady, hwithin, by rw [← hclean], ?_⟩
    refine hst.write rfl hp hfit hlim rfl (advance_size _ _) (fun o c hc hs => ?_) fun o c hc _ => hdisk o c hc
    have hs : fp.sect = v.fs.sectorOf (v.chains i) (o / v.fs.ssize) := hs
    obtain ⟨hrow, -⟩ | ⟨-, hold⟩ := hdata o c hc
    · rw [← hs] at hrow
      omega
    · exact hst.buf o c hold hs

theorem writeBuffer_spec (bw : Nat) {btw : Nat} (w : Memory) (hg : fs.toGeometry.Ok) (hl : IsChain fs l)
    (hst : Stores fs fp l f) (hc : l[fp.fptr / fs.bcs]? = some fp.clust)
    (hsect : fp.sect = fs.sectorOf l (fp.fptr / fs.ssize)) (hbtw : 0 < btw) (hlimit : fp.fptr + btw ≤ 0xffffffff) :
    ∃ fp', writeBuffer fs fp w bw btw = (fp', .moved (sectorBytes fs fp btw)) ∧
      fp' = { fp with buf := fp'.buf, dirty := true } ∧
      Stores fs (fp'.advance (sectorBytes fs fp btw)) l
        (f.write fp.fptr (sectorBytes fs fp btw) fun a => w (bw + a)) := by
  obtain ⟨hpos, hin, hle⟩ := sectorBytes_spec hg fp hbtw
  have hp := (List.getElem?_eq_some_iff.mp hc).1
  have hfit := buffer_span hg hin
  have hroom : max f.size (fp.fptr + sectorBytes fs fp btw) ≤ l.length * fs.bcs :=
    Nat.max_le.mpr ⟨hst.room, span_room hp hfit⟩
  refine ⟨_, rfl, rfl, ?_⟩
  generalize sectorBytes fs fp btw = n at *
  have hdiv := Nat.div_add_mod fp.fptr fs.ssize
  have hlast : fp.fptr / fs.ssize < l.length * fs.csize := by
    have := span_room hp hfit
    exact div_lt_sectors (by omega)
  refine hst.write rfl hp hfit (by omega) rfl (advance_size _ n) (fun o c hc hs => ?_) fun o c hc hnew => ?_
  · have ho := div_lt_sectors (Nat.lt_of_lt_of_le (Content.within _ o c hc) hroom)
    have hs : fp.sect = fs.sectorOf l (o / fs.ssize) := hs
    have heq := sectorOf_inj hg hl.range hl.nodup hlast ho (hsect.symm.trans hs)
    have hdivo := Nat.div_add_mod o fs.ssize
    rw [← heq] at hdivo
    show memCpy fp.buf (fp.fptr % fs.ssize) n (fun a => w (bw + a)) (o % fs.ssize) = c
    unfold Content.write at hc
    dsimp only at hc
    split at hc
    · rename_i hrange
      rw [show o % fs.ssize = fp.fptr % fs.ssize + (o - fp.fptr) by omega, memCpy_in (by omega)]
      exact Option.some.inj hc
    · rw [memCpy_out (by omega)]
      exact hst.buf o c hc hs
  · have hnew : fp.sect ≠ fs.sectorOf l (o / fs.ssize) := hnew rfl
    unfold Content.write at hc
    dsimp only at hc
    split at hc
    · rename_i hrange
      obtain ⟨x, rfl⟩ := Nat.exists_eq_add_of_le hrange.1
      obtain ⟨hsame, -⟩ := byte_in (show fp.fptr % fs.ssize + x < fs.ssize by omega)
      exact absurd (by rw [hsame]; exact hsect) hnew
    · exact hst.disk o c hc fun _ => hnew

/-- The buffer gets the sector of the file pointer, but for what is not there yet. -/
theorem fillSector_spec (h : Steady table kept v) (hst : Stores v.fs fp (v.chains i) f) (hclean : fp.dirty = false)
    (hc : (v.chains i)[fp.fptr / v.fs.bcs]? = some fp.clust) (hbound : fp.fptr % v.fs.ssize = 0) :
    ∃ buf, fillSector v.fs fp (v.fs.sectorOf (v.chains i) (fp.fptr / v.fs.ssize)) =
        some { fp with buf := buf, sect := v.fs.sectorOf (v.chains i) (fp.fptr / v.fs.ssize) } ∧
      Stores v.fs { fp with buf := buf, sect := v.fs.sectorOf (v.chains i) (fp.fptr / v.fs.ssize) } (v.chains i) f := by
  have hdisk (o : Nat) (c : UInt8) (hc : f.data o = some c) :
      v.fs.drive.sector (v.fs.sectorOf (v.chains i) (o / v.fs.ssize)) (o % v.fs.ssize) = c :=
    hst.disk o c hc fun hd => absurd (hclean.symm.trans hd) Bool.false_ne_true
  have hlast := pointer_lt h.sound.geometry hc
  unfold fillSector
  by_cases hload : fp.sect ≠ v.fs.sectorOf (v.chains i) (fp.fptr / v.fs.ssize) ∧ fp.fptr < fp.objsize
  · rw [if_pos hload, Drive.read_good (h.drive_good _)]
    refine ⟨_, rfl, hst.first, hst.size, hst.limit, hst.room, fun o c hc hs => ?_, fun o c hc _ => hdisk o c hc⟩
    have hs : v.fs.sectorOf (v.chains i) (fp.fptr / v.fs.ssize) = v.fs.sectorOf (v.chains i) (o / v.fs.ssize) := hs
    rw [hs]
    exact hdisk o c hc
  · rw [if_neg hload]
    refine ⟨_, rfl, hst.first, hst.size, hst.limit, hst.room, fun o c hc hs => ?_, fun o c hc _ => hdisk o c hc⟩
    by_cases hsect : fp.sect = v.fs.sectorOf (v.chains i) (fp.fptr / v.fs.ssize)
    · exact hst.buf o c hc (hsect.trans hs)
    · -- on the growing edge the sector has no data
      have ho := f.within o c hc
      have hsize := hst.size
      have hl := h.isChain i
      have heq := sectorOf_inj h.sound.geometry hl.range hl.nodup hlast
        (div_lt_sectors (Nat.lt_of_lt_of_le ho hst.room)) hs
      have hdiv := Nat.div_add_mod fp.fptr v.fs.ssize
      have hdivo := Nat.div_add_mod o v.fs.ssize
      rw [← heq] at hdivo
      have hedge : ¬ fp.fptr < fp.objsize := fun hlt => hload ⟨hsect, hlt⟩
      omega

end bytes

/-! ## The loop -/

section loop

variable {k n : Nat} {w : Memory}

/-- What a write may do to the file. -/
structure Written (fp fp' : Fil) (n : Nat) : Prop where
  same : fp' = { fp with
    fptr := fp.fptr + n, objsize := fp'.objsize, sclust := fp'.sclust, clust := fp'.clust, sect := fp'.sect,
    buf := fp'.buf, dirty := fp'.dirty }

theorem Written.refl (fp : Fil) : Written fp fp 0 := ⟨rfl⟩

theorem Written.trans {fp' fp'' : Fil} (h : Written fp fp' n) (h' : Written fp' fp'' k) : Written fp fp'' (n + k) := by
  constructor
  have hsame := h'.same
  rw [h.same] at hsame
  rw [← Nat.add_assoc]
  exact hsame

/-- A round of `f_write` has written some bytes. -/
def WriteMoved (table : Nat → Nat) (kept : Nat → Prop) (v : Volume ι) (i : ι) (fp : Fil) (f : Content) (w : Memory)
    (bw btw : Nat) (r : Fatfs × Fil × Round) : Prop :=
  ∃ (v' : Volume ι) (fp' : Fil) (n : Nat), r = (v'.fs, fp', .moved n) ∧ 0 < n ∧ n ≤ btw ∧ Within kept v v' i ∧
    Active table kept v' i (fp'.advance n) (f.write fp.fptr n fun a => w (bw + a)) ∧ Written fp (fp'.advance n) n

variable {btw : Nat}

theorem writeBuffer_round (w : Memory) (bw : Nat) (h : Steady table kept v) (hst : Stores v.fs fp (v.chains i) f)
    (hc : (v.chains i)[fp.fptr / v.fs.bcs]? = some fp.clust)
    (hsect : fp.sect = v.fs.sectorOf (v.chains i) (fp.fptr / v.fs.ssize)) (hbtw : 0 < btw)
    (hlimit : fp.fptr + btw ≤ 0xffffffff) :
    WriteMoved table kept v i fp f w bw btw (v.fs, writeBuffer v.fs fp w bw btw) := by
  have hg := h.sound.geometry
  obtain ⟨hpos, hin, hle⟩ := sectorBytes_spec hg fp hbtw
  obtain ⟨fp', heq, hfp', hst'⟩ := writeBuffer_spec bw w hg (h.isChain i) hst hc hsect hbtw hlimit
  rw [heq]
  have hfptr : fp'.fptr = fp.fptr := by rw [hfp']
  have hclust : fp'.clust = fp.clust := by rw [hfp']
  have hsect' : fp'.sect = fp.sect := by rw [hfp']
  refine ⟨v, fp', _, rfl, hpos, hle, .refl v i, ⟨h, hst', ?_, fun _ => ?_⟩, ⟨?_⟩⟩
  · refine .of_span (congrArg (· + _) hfptr) hpos (buffer_span hg hin)
      (hc.trans (congrArg some hclust.symm)) fun hne => ?_
    show fp'.sect = _
    change (fp'.fptr + _) % _ ≠ 0 at hne
    rw [hfptr] at hne
    rw [hsect', show (fp'.advance _).fptr = fp.fptr + _ from congrArg (· + _) hfptr, div_stays hin hne]
    exact hsect
  · exact ⟨_, pointer_lt hg hc, hsect'.trans hsect⟩
  · rw [hfp']
    rfl

/-- Nothing of the file pointer has changed before the bytes are written. -/
theorem WriteMoved.of_ready {fp' : Fil} {bw : Nat} {r : Fatfs × Fil × Round} (hwithin : Within kept v v' i)
    (hfp' : fp' = { fp with
      clust := fp'.clust, sclust := fp'.sclust, sect := fp'.sect, buf := fp'.buf, dirty := fp'.dirty })
    (h : WriteMoved table kept v' i fp' f w bw btw r) : WriteMoved table kept v i fp f w bw btw r := by
  obtain ⟨v'', fp'', n, heq, hpos, hle, hwithin', hactive, hwritten⟩ := h
  have hfptr : fp'.fptr = fp.fptr := by rw [hfp']
  have hsame := hwritten.same
  rw [hfptr] at hactive
  rw [hfp'] at hsame
  exact ⟨v'', fp'', n, heq, hpos, hle, hwithin.trans hwithin', hactive, ⟨hsame⟩⟩

/-- The rest of a round at a sector boundary, when the cluster is known and the buffer is clean. -/
theorem writeAligned_spec (w : Memory) (bw : Nat) (h : Steady table kept v) (hst : Stores v.fs fp (v.chains i) f)
    (hclean : fp.dirty = false) (hc : (v.chains i)[fp.fptr / v.fs.bcs]? = some fp.clust)
    (hbound : fp.fptr % v.fs.ssize = 0) (hbtw : 0 < btw) (hlimit : fp.fptr + btw ≤ 0xffffffff) :
    WriteMoved table kept v i fp f w bw btw
      (writeAligned v.fs fp w bw btw (v.fs.sectorOf (v.chains i) (fp.fptr / v.fs.ssize))) := by
  have hg := h.sound.geometry
  unfold writeAligned
  by_cases hwhole : btw / v.fs.ssize ≠ 0
  · obtain ⟨hpos, hspan, hle⟩ := wholeSectors_spec hg fp hwhole
    obtain ⟨fs, fp', heq, hsteady, hwithin, hfp', hst'⟩ := writeDirect_spec bw w h hst hclean hc hbound hwhole hlimit
    have hgeom : fs.toGeometry = v.fs.toGeometry := hwithin.geometry
    have hmoved := Nat.mul_pos hg.ssize_pos hpos
    have hfptr : fp'.fptr = fp.fptr := by rw [hfp']
    have hclust : fp'.clust = fp.clust := by rw [hfp']
    have hdirty : fp'.dirty = false := by rw [hfp']
    rw [if_pos hwhole, heq]
    refine ⟨⟨fs, v.chains⟩, fp', _, rfl, hmoved, hle, hwithin, ⟨hsteady, hst', ?_, fun hd => ?_⟩, ⟨?_⟩⟩
    · dsimp only
      rw [hgeom]
      refine .of_span (congrArg (· + _) hfptr) hmoved (direct_span hbound hspan)
        (hc.trans (congrArg some hclust.symm)) fun hne => absurd ?_ hne
      show (fp'.fptr + v.fs.ssize * _) % v.fs.ssize = 0
      rw [hfptr, Nat.add_mul_mod_self_left, hbound]
    · exact absurd (hdirty.symm.trans hd) Bool.false_ne_true
    · rw [hfp']
      rfl
  · obtain ⟨buf, heq, hst'⟩ := fillSector_spec h hst hclean hc hbound
    rw [if_neg hwhole, heq]
    exact .of_ready (.refl v i) rfl (writeBuffer_round w bw h hst' hc rfl hbtw hlimit)

variable [DecidableEq ι]

theorem writeRound_spec (w : Memory) (bw : Nat) (h : Active table kept v i fp f) (hbtw : 0 < btw)
    (hlimit : fp.fptr + btw ≤ 0xffffffff) :
    (∃ fs, writeRound v.fs fp w bw btw = (fs, fp, .full) ∧ Touch v.fs fs ∧ fs.table = v.fs.table ∧ v.fs.Full) ∨
      WriteMoved table kept v i fp f w bw btw (writeRound v.fs fp w bw btw) := by
  unfold writeRound
  by_cases hbound : fp.fptr % v.fs.ssize = 0
  · obtain ⟨fs, heq, htouch, htable, hfull⟩ | ⟨v', fp', heq, hwithin, hsteady, hc, hst, hfp'⟩ :=
        writeSector_spec h hbound
    · rw [if_pos hbound, heq]
      exact .inl ⟨fs, rfl, htouch, htable, hfull⟩
    · have hgeom : v'.fs.toGeometry = v.fs.toGeometry := hwithin.geometry
      have hfptr : fp'.fptr = fp.fptr := by rw [hfp']
      rw [if_pos hbound, heq]
      rw [← hfptr] at hc hlimit hbound ⊢
      have hmoved := writeAligned_spec w bw hsteady hst (by rw [hfp']) hc (by rwa [hgeom]) hbtw hlimit
      exact .inr (.of_ready hwithin (by rw [hfp']) hmoved)
  · rw [if_neg hbound]
    exact .inr (writeBuffer_round w bw h.steady h.stores (h.located.clust_within hbound) (h.located.sect hbound) hbtw
      hlimit)

theorem writeLoop_spec {fuel : Nat} (w : Memory) (bw : Nat) (h : Active table kept v i fp f) (hpos : fp.fptr ≤ f.size)
    (hlimit : fp.fptr + btw ≤ 0xffffffff) (hfuel : btw ≤ fuel) :
    ∃ (v' : Volume ι) (fp' : Fil) (n : Nat),
      writeLoop fuel v.fs fp w bw btw = (v'.fs, { fp' with modified := true }, bw + n, .ok) ∧ n ≤ btw ∧
      (n = btw ∨ v'.fs.Full) ∧ Within kept v v' i ∧ Active table kept v' i fp' (f.write fp.fptr n fun a => w (bw + a)) ∧
      Written fp fp' n := by
  induction fuel generalizing v fp f bw btw with
  | zero =>
    obtain rfl : btw = 0 := by omega
    refine ⟨v, fp, 0, rfl, Nat.le_refl 0, .inl rfl, .refl v i, ?_, .refl fp⟩
    rwa [Content.write_zero hpos]
  | succ fuel ih =>
    unfold writeLoop
    by_cases hzero : btw = 0
    · rw [if_pos hzero]
      refine ⟨v, fp, 0, rfl, Nat.zero_le _, .inl hzero.symm, .refl v i, ?_, .refl fp⟩
      rwa [Content.write_zero hpos]
    · rw [if_neg hzero]
      obtain ⟨fs, heq, htouch, htable, hfull⟩ | ⟨v', fp', n, heq, hn, hle, hwithin, hactive, hwritten⟩ :=
        writeRound_spec w bw h (Nat.pos_of_ne_zero hzero) hlimit
      · rw [heq]
        refine ⟨⟨fs, v.chains⟩, fp, 0, rfl, Nat.zero_le _, .inr (hfull.congr htouch.geometry htable), .touch htouch,
          ?_, .refl fp⟩
        rw [Content.write_zero hpos]
        have hgeom : fs.toGeometry = v.fs.toGeometry := htouch.geometry
        refine ⟨h.steady.touch htouch htable, h.steady.stores_touch htouch h.stores, ?_, ?_⟩
        · dsimp only
          rw [hgeom]
          exact h.located
        · dsimp only
          rw [hgeom]
          exact h.own
      · have hfptr : fp'.fptr + n = fp.fptr + n := congrArg Fil.fptr hwritten.same
        obtain ⟨k, rfl⟩ := Nat.exists_eq_add_of_le hle
        rw [heq]
        dsimp only
        rw [Nat.add_sub_cancel_left]
        obtain ⟨v'', fp'', m, heq', hm, hend, hwithin', hactive', hwritten'⟩ :=
          ih (bw + n) hactive (show fp'.fptr + n ≤ max f.size (fp.fptr + n) by omega)
            (show fp'.fptr + n + k ≤ 0xffffffff by omega) (by omega)
        have hcontent : (fp'.advance n).fptr = fp.fptr + n := hfptr
        rw [hcontent, Content.write_write] at hactive'
        rw [Nat.add_assoc] at heq'
        exact ⟨v'', fp'', n + m, heq', Nat.add_le_add_left hm n, hend.imp_left (congrArg (n + ·)),
          hwithin.trans hwithin', hactive', hwritten.trans hwritten'⟩

end loop

end ThyristorController.Fat
