import ThyristorController.Dfs.FatWrite

/-!
# `f_lseek` and `f_truncate` on a good drive

A seek follows the chain, and stretches it when the file may be written. `f_truncate` gives back what is behind the file
pointer. The buffer may have a sector that is given back.
-/

namespace ThyristorController.Fat

open Bytes Chain

variable {ι : Type} {table : Nat → Nat} {kept : Nat → Prop} {v v' : Volume ι} {i : ι} {g : Geometry} {fs : Fatfs}
  {fp : Fil} {l l' : List Nat} {f : Content}

/-! ## `f_lseek` -/

section seek

variable {c ofs n p : Nat}

theorem Stores.longer (hst : Stores fs fp l f) (hl : l <+: l') (hne : fp.sclust ≠ 0) : Stores fs fp l' f := by
  have hgrow := hst.grow hl
  rw [headD_grow hl (by rwa [← hst.first]), ← hst.first] at hgrow
  exact hgrow

theorem sclust_ne_zero (hl : IsChain fs l) (hst : Stores fs fp l f) {k : Nat} (hk : l[k]? = some c) :
    fp.sclust ≠ 0 := by
  cases l with
  | nil => cases hk
  | cons d l =>
    have hd := hl.range d (List.mem_cons_self ..)
    have hfirst : fp.sclust = d := hst.first
    omega

theorem next_cluster (hg : g.Ok) (hp : p % g.bcs = 0) :
    (p + g.bcs) % g.bcs = 0 ∧ (p + g.bcs) / g.bcs = p / g.bcs + 1 ∧ (p + g.bcs - 1) / g.bcs = p / g.bcs := by
  refine ⟨?_, Nat.add_div_right p hg.bcs_pos, span_div hg.bcs_pos (by omega)⟩
  rw [Nat.add_mod_right]
  exact hp

/-- The file during a seek: the file pointer is at a cluster boundary. -/
structure Seeking (table : Nat → Nat) (kept : Nat → Prop) (v : Volume ι) (i : ι) (fp : Fil) (f : Content) : Prop where
  steady : Steady table kept v
  stores : Stores v.fs fp (v.chains i) f
  own : OwnSector v.fs.toGeometry fp (v.chains i)
  bound : fp.fptr % v.fs.bcs = 0

/-- What the cluster following loop does to the file. -/
structure Followed (fp fp' : Fil) : Prop where
  same : fp' = { fp with fptr := fp'.fptr, clust := fp'.clust }

/-- Where the loop ends: in the cluster of the offset, or with a full volume. -/
inductive Arrived (v : Volume ι) (i : ι) (fp : Fil) (ofs clst target : Nat) : Prop
  | found (hsum : fp.fptr + ofs = target) (hpos : 0 < ofs) (hle : ofs ≤ v.fs.bcs) (hclust : fp.clust = clst)
      (hc : (v.chains i)[fp.fptr / v.fs.bcs]? = some clst) : Arrived v i fp ofs clst target
  | full (hofs : ofs = 0) (hlt : fp.fptr < target) (hpos : 0 < fp.fptr) (hfull : v.fs.Full)
      (hc : (v.chains i)[(fp.fptr - 1) / v.fs.bcs]? = some fp.clust) : Arrived v i fp ofs clst target

theorem Seeking.touch (h : Seeking table kept v i fp f) (htouch : Touch v.fs fs) (htable : fs.table = v.fs.table) :
    Seeking table kept ⟨fs, v.chains⟩ i fp f := by
  have hgeom : fs.toGeometry = v.fs.toGeometry := htouch.geometry
  refine ⟨h.steady.touch htouch htable, h.steady.stores_touch htouch h.stores, ?_, ?_⟩
  · dsimp only
    rw [hgeom]
    exact h.own
  · dsimp only
    rw [hgeom]
    exact h.bound

variable [DecidableEq ι]

theorem seekNext_spec (h : Seeking table kept v i fp f) (hc : (v.chains i)[fp.fptr / v.fs.bcs]? = some c)
    (hmode : fp.write = true ∨ fp.fptr + v.fs.bcs < (v.chains i).length * v.fs.bcs) :
    Reached table kept v i (fp.fptr / v.fs.bcs + 1) (if fp.write then createChain v.fs c else getFat v.fs c) ∧
      (fp.write ≠ true → (if fp.write then createChain v.fs c else getFat v.fs c).2 ≠ 0) := by
  have hl := h.steady.isChain i
  by_cases hwrite : fp.write = true
  · rw [if_pos hwrite]
    exact ⟨createChain_behind h.steady hc, fun hne => absurd hwrite hne⟩
  · have hlast := hmode.resolve_left hwrite
    have hg := h.steady.sound.geometry
    have hlt : fp.fptr / v.fs.bcs + 1 < (v.chains i).length := by
      rw [← (next_cluster hg h.bound).2.1]
      exact (Nat.div_lt_iff_lt_mul hg.bcs_pos).mpr hlast
    have hd := List.getElem?_eq_getElem hlt
    have hrange := hl.range _ (List.mem_of_getElem? hd)
    obtain ⟨htouch, htable, -, hres⟩ := getFat_table h.steady.sound c
    have heq := (hres.resolve_right fun hbad => h.steady.good hbad.2).trans (hl.table_eq hc hd)
    rw [if_neg hwrite]
    refine ⟨⟨htouch, .inr ⟨⟨(getFat v.fs c).1, v.chains⟩, rfl, fun _ _ => rfl, List.prefix_rfl, ?_, ?_⟩⟩, fun _ => ?_⟩
    · rw [heq]
      exact hd
    · exact h.steady.touch htouch htable
    · omega

theorem seekLoop_spec {fuel : Nat} (h : Seeking table kept v i fp f) (hclust : fp.clust = c)
    (hc : (v.chains i)[fp.fptr / v.fs.bcs]? = some c) (hpos : 0 < ofs)
    (hmode : fp.write = true ∨ fp.fptr + ofs ≤ (v.chains i).length * v.fs.bcs) (hfuel : ofs ≤ fuel) :
    ∃ (v' : Volume ι) (fp' : Fil) (ofs' clst' : Nat), seekLoop fuel v.fs fp ofs c = (v'.fs, fp', ofs', clst', .ok) ∧
      Within kept v v' i ∧ Seeking table kept v' i fp' f ∧ Followed fp fp' ∧
      Arrived v' i fp' ofs' clst' (fp.fptr + ofs) := by
  induction fuel generalizing v fp c ofs with
  | zero => omega
  | succ fuel ih =>
    have hg := h.steady.sound.geometry
    unfold seekLoop
    by_cases hmore : ofs > v.fs.bcs
    · obtain ⟨hbound, hdiv, hpred⟩ := next_cluster hg h.bound
      obtain ⟨⟨htouch, hres⟩, hne⟩ := seekNext_spec h hc (hmode.imp_right fun hle => by omega)
      rw [if_pos hmore]
      dsimp only
      generalize (if fp.write = true then createChain v.fs c else getFat v.fs c) = r at htouch hres hne
      obtain ⟨fs, clst⟩ := r
      dsimp only at htouch hres hne ⊢
      have hgeom : fs.toGeometry = v.fs.toGeometry := htouch.geometry
      obtain ⟨rfl, htable, hfull⟩ | ⟨v', rfl, hothers, hprefix, hc', hsteady⟩ := hres
      · have hwrite : fp.write = true := by_contra fun hno => hne hno rfl
        obtain ⟨hsteady, hst, hown, -⟩ := h.touch htouch htable
        rw [if_pos ⟨hwrite, rfl⟩]
        refine ⟨⟨fs, v.chains⟩, _, 0, 0, rfl, .touch htouch, ⟨hsteady, hst.move rfl, hown, ?_⟩, ⟨rfl⟩,
          .full rfl ?_ ?_ ?_ ?_⟩
        · dsimp only
          rw [hgeom]
          exact hbound
        · exact Nat.add_lt_add_left hmore _
        · exact Nat.add_pos_right _ hg.bcs_pos
        · exact hfull.congr htouch.geometry htable
        · dsimp only
          rw [hgeom, hpred, hclust]
          exact hc
      · have hrange := (hsteady.isChain i).range clst (List.mem_of_getElem? hc')
        have hbig := nFatent_lt hsteady.sound
        have hst := (h.steady.stores_touch htouch h.stores).longer hprefix
          (sclust_ne_zero (h.steady.isChain i) h.stores hc)
        rw [if_neg (by omega), if_neg (by omega), if_neg (by omega)]
        have hbcs := hg.bcs_pos
        have hnext : Seeking table kept v' i { fp with fptr := fp.fptr + v.fs.bcs, clust := clst } f :=
          ⟨hsteady, hst.move rfl, by rw [hgeom]; exact h.own.grow hprefix, by rw [hgeom]; exact hbound⟩
        have hlen := Nat.mul_le_mul_right v.fs.bcs hprefix.length_le
        have hmode' : fp.write = true ∨
            fp.fptr + v.fs.bcs + (ofs - v.fs.bcs) ≤ (v'.chains i).length * v'.fs.bcs := by
          rw [hgeom]
          exact hmode.imp_right fun hle => by omega
        obtain ⟨v'', fp'', ofs', clst', heq, hwithin, hseeking, hfollowed, harrived⟩ :=
          ih hnext rfl (by rw [hgeom, hdiv]; exact hc') (show 0 < ofs - v.fs.bcs by omega) hmode' (by omega)
        refine ⟨v'', fp'', ofs', clst', heq, (Within.grow htouch hothers).trans hwithin, hseeking, ⟨hfollowed.same⟩, ?_⟩
        rwa [show fp.fptr + v.fs.bcs + (ofs - v.fs.bcs) = fp.fptr + ofs by omega] at harrived
    · rw [if_neg hmore]
      exact ⟨v, fp, ofs, c, rfl, .refl v i, h, ⟨rfl⟩, .found rfl hpos (Nat.not_lt.mp hmore) hclust hc⟩

omit [DecidableEq ι] in
theorem chain_nil (hl : IsChain fs l) (hst : Stores fs fp l f) (h : fp.sclust = 0) : l = [] := by
  cases hc : l with
  | nil => rfl
  | cons c rest =>
    have hfirst : l[0]? = some c := by rw [hc]; rfl
    exact absurd h (sclust_ne_zero hl hst hfirst)

/-- Where a seek begins, if there is a cluster at all. -/
structure Started (table : Nat → Nat) (kept : Nat → Prop) (v : Volume ι) (i : ι) (fp : Fil) (f : Content) (ofs : Nat)
    (v' : Volume ι) (fp' : Fil) (ofs' : Nat) : Prop where
  within : Within kept v v' i
  seeking : Seeking table kept v' i fp' f
  clust : (v'.chains i)[fp'.fptr / v'.fs.bcs]? = some fp'.clust
  sum : fp'.fptr + ofs' = ofs
  pos : 0 < ofs'
  same : fp' = { fp with fptr := fp'.fptr, sclust := fp'.sclust, clust := fp'.clust }
  first : fp'.sclust = fp.sclust ∨ fp.objsize = 0

/-- A seek begins in the cluster of the file pointer, or in the first one. -/
theorem seekStart_spec (h : Active table kept v i fp f) (hpos : 0 < ofs) :
    (∃ fs, seekStart v.fs fp ofs = (fs, { fp with fptr := 0, sclust := 0, clust := 0 }, ofs, 0, .ok) ∧ Touch v.fs fs ∧
      fs.table = v.fs.table ∧ v.fs.Full ∧ fp.sclust = 0) ∨
    ∃ (v' : Volume ι) (fp' : Fil) (ofs' : Nat), seekStart v.fs fp ofs = (v'.fs, fp', ofs', fp'.clust, .ok) ∧
      Started table kept v i fp f ofs v' fp' ofs' := by
  obtain ⟨hsteady, hst, hloc, hown⟩ := h
  have hl := hsteady.isChain i
  have hg := hsteady.sound.geometry
  unfold seekStart
  dsimp only
  by_cases hnear : fp.fptr > 0 ∧ (ofs - 1) / v.fs.bcs ≥ (fp.fptr - 1) / v.fs.bcs
  · rw [if_pos hnear]
    have hle : (fp.fptr - 1) / v.fs.bcs * v.fs.bcs ≤ ofs - 1 := (Nat.le_div_iff_mul_le hg.bcs_pos).mp hnear.2
    refine .inr ⟨v, _, _, rfl, .refl v i, ⟨hsteady, hst.move rfl, hown, Nat.mul_mod_left ..⟩, ?_, ?_, ?_, rfl, .inl rfl⟩
    · dsimp only
      rw [Nat.mul_div_cancel _ hg.bcs_pos]
      exact hloc.clust hnear.1
    · dsimp only
      omega
    · omega
  · rw [if_neg hnear]
    by_cases hnone : fp.sclust = 0
    · have hempty := chain_nil hl hst hnone
      have hsize : fp.objsize = 0 := by
        have := hst.room
        rw [hempty, List.length_nil, Nat.zero_mul] at this
        have := hst.size
        omega
      obtain ⟨htouch, hres⟩ := createChain_first hsteady hempty
      rw [if_pos hnone]
      generalize createChain v.fs 0 = r at htouch hres
      obtain ⟨fs, clst⟩ := r
      dsimp only at htouch hres ⊢
      obtain ⟨rfl, htable, hfull⟩ | ⟨v', rfl, hothers, hprefix, hc, hsteady'⟩ := hres
      · rw [if_neg (by omega), if_neg (by rw [noSector]; omega)]
        exact .inl ⟨fs, rfl, htouch, htable, hfull, hnone⟩
      · have hgeom : v'.fs.toGeometry = v.fs.toGeometry := htouch.geometry
        have hrange := (hsteady'.isChain i).range clst (List.mem_of_getElem? hc)
        have hbig := nFatent_lt hsteady'.sound
        have hst' := (hsteady.stores_touch htouch hst).grow hprefix
        have hfirst : (v'.chains i).headD 0 = clst := by rw [List.headD_eq_head?_getD, List.head?_eq_getElem?, hc]; rfl
        rw [hfirst] at hst'
        rw [if_neg (by omega), if_neg (by omega)]
        refine .inr ⟨v', _, _, rfl, .grow htouch hothers, ⟨hsteady', hst'.move rfl, ?_, Nat.zero_mod _⟩, ?_, ?_, hpos,
          rfl, .inr hsize⟩
        · rw [hgeom]
          exact hown.grow hprefix
        · rwa [Nat.zero_div]
        · exact Nat.zero_add ofs
    · have hc : (v.chains i)[0]? = some fp.sclust := by
        cases hchain : v.chains i with
        | nil =>
          rw [hchain] at hst
          exact absurd hst.first hnone
        | cons c rest =>
          rw [hchain] at hst
          exact congrArg some hst.first.symm
      rw [if_neg hnone]
      dsimp only
      rw [if_neg fun hboth => hnone hboth.1, if_neg fun hboth => hnone hboth.1]
      refine .inr ⟨v, _, _, rfl, .refl v i, ⟨hsteady, hst.move rfl, hown, Nat.zero_mod _⟩, ?_, ?_, hpos, rfl, .inl rfl⟩
      · rwa [Nat.zero_div]
      · exact Nat.zero_add ofs

/-- The file after the chain was followed. -/
structure Sought (table : Nat → Nat) (kept : Nat → Prop) (v : Volume ι) (i : ι) (fp : Fil) (f : Content) (ofs : Nat)
    (v' : Volume ι) (fp' : Fil) (nsect : Nat) : Prop where
  within : Within kept v v' i
  steady : Steady table kept v'
  stores : Stores v'.fs fp' (v'.chains i) f
  own : OwnSector v'.fs.toGeometry fp' (v'.chains i)
  clust : 0 < fp'.fptr → (v'.chains i)[(fp'.fptr - 1) / v'.fs.bcs]? = some fp'.clust
  sect : fp'.fptr % v'.fs.ssize ≠ 0 → nsect = v'.fs.sectorOf (v'.chains i) (fp'.fptr / v'.fs.ssize)
  same : fp' = { fp with fptr := fp'.fptr, sclust := fp'.sclust, clust := fp'.clust }
  first : fp'.sclust = fp.sclust ∨ fp.objsize = 0 ∧ 0 < fp'.fptr
  target : fp'.fptr = ofs ∨ fp'.fptr < ofs ∧ v'.fs.Full

omit [DecidableEq ι] in
theorem mod_cluster (hp : p % g.bcs = 0) (n : Nat) : (p + n) % g.ssize = n % g.ssize := by
  obtain ⟨q, rfl⟩ := Nat.dvd_of_mod_eq_zero hp
  rw [Geometry.bcs, Nat.mul_comm g.csize, Nat.mul_assoc, Nat.mul_add_mod]

omit [DecidableEq ι] in
theorem cluster_sector (hg : g.Ok) (hc : l[p / g.bcs]? = some c) (hp : p % g.bcs = 0) (hn : n < g.bcs) :
    g.sectorOf l ((p + n) / g.ssize) = clust2sect g c + n / g.ssize := by
  obtain ⟨q, rfl⟩ := Nat.dvd_of_mod_eq_zero hp
  rw [Nat.mul_div_cancel_left _ hg.bcs_pos] at hc
  have hsplit : g.bcs * q + n = g.ssize * (g.csize * q) + n := by rw [Geometry.bcs, Nat.mul_comm g.csize, Nat.mul_assoc]
  have hlt : n / g.ssize < g.csize := Nat.div_lt_of_lt_mul (by rwa [Nat.mul_comm])
  rw [hsplit, Nat.mul_add_div hg.ssize_pos, Geometry.sectorOf, Nat.mul_add_div hg.csize_pos, Nat.mul_add_mod,
    Nat.div_eq_of_lt hlt, Nat.mod_eq_of_lt hlt, Nat.add_zero, getD_of_getElem? hc]

theorem seekChain_spec (h : Active table kept v i fp f) (hpos : 0 < ofs) (hmode : fp.write = true ∨ ofs ≤ f.size) :
    ∃ (v' : Volume ι) (fp' : Fil) (nsect : Nat), seekChain v.fs fp ofs = (v'.fs, fp', nsect, .ok) ∧
      Sought table kept v i fp f ofs v' fp' nsect := by
  unfold seekChain
  obtain ⟨fs, heq, htouch, htable, hfull, hnone⟩ | ⟨v', fp', ofs', heq, hstart⟩ := seekStart_spec h hpos
  · have hgeom : fs.toGeometry = v.fs.toGeometry := htouch.geometry
    have hst : Stores fs { fp with fptr := 0, sclust := 0, clust := 0 } (v.chains i) f := by
      rw [← hnone]
      exact (h.steady.stores_touch htouch h.stores).move rfl
    rw [heq]
    refine ⟨⟨fs, v.chains⟩, _, 0, rfl, .touch htouch, h.steady.touch htouch htable, hst, ?_,
      fun hpos => absurd hpos (Nat.lt_irrefl 0), ?_, rfl, .inl hnone.symm,
      .inr ⟨hpos, hfull.congr htouch.geometry htable⟩⟩
    · dsimp only
      rw [hgeom]
      exact h.own
    · exact fun hne => absurd (Nat.zero_mod _) hne
  · have hg := hstart.seeking.steady.sound.geometry
    have hrange := (hstart.seeking.steady.isChain i).range _ (List.mem_of_getElem? hstart.clust)
    have hwrite : fp'.write = fp.write := by rw [hstart.same]
    have hmode' : fp'.write = true ∨ fp'.fptr + ofs' ≤ (v'.chains i).length * v'.fs.bcs := by
      rw [hwrite, hstart.sum]
      exact hmode.imp_right fun hle => Nat.le_trans hle hstart.seeking.stores.room
    obtain ⟨v'', fp'', ofs'', clst, heq', hwithin, hseeking, hfollowed, harrived⟩ :=
      seekLoop_spec hstart.seeking rfl hstart.clust hstart.pos hmode' (show ofs' ≤ ofs' from Nat.le_refl _)
    obtain ⟨hsteady, hst, hown, hbound⟩ := hseeking
    have hmod := mod_cluster hbound ofs''
    have hfirst : fp''.sclust = fp'.sclust := by rw [hfollowed.same]
    have hsame : { fp'' with fptr := fp''.fptr + ofs'' } = { fp with
        fptr := fp''.fptr + ofs'', sclust := fp''.sclust, clust := fp''.clust } := by
      rw [hfollowed.same, hstart.same]
    have hne : fp'.clust ≠ 0 := by omega
    rw [heq]
    dsimp only
    rw [if_neg hne, heq']
    dsimp only
    rw [hstart.sum] at harrived
    have hsought (nsect : Nat)
        (hnsect : ofs'' % v''.fs.ssize ≠ 0 →
          nsect = v''.fs.sectorOf (v''.chains i) ((fp''.fptr + ofs'') / v''.fs.ssize)) :
        Sought table kept v i fp f ofs v'' { fp'' with fptr := fp''.fptr + ofs'' } nsect := by
      have hend : (v''.chains i)[(fp''.fptr + ofs'' - 1) / v''.fs.bcs]? = some fp''.clust ∧ 0 < fp''.fptr + ofs'' ∧
          (fp''.fptr + ofs'' = ofs ∨ fp''.fptr + ofs'' < ofs ∧ v''.fs.Full) := by
        cases harrived with
        | found hsum hpos' hle hclust hc =>
          rw [span_div hpos' (by omega), hclust]
          exact ⟨hc, by omega, .inl hsum⟩
        | full hofs hlt hpos' hfull hc =>
          rw [hofs, Nat.add_zero]
          exact ⟨hc, hpos', .inr ⟨hlt, hfull⟩⟩
      obtain ⟨hc, hpos', htarget⟩ := hend
      refine ⟨hstart.within.trans hwithin, hsteady, hst.move rfl, hown, fun _ => hc, fun hin => hnsect ?_, hsame, ?_,
        htarget⟩
      · rwa [← hmod]
      · exact (hstart.first.imp_left hfirst.trans).imp_right fun hzero => ⟨hzero, hpos'⟩
    by_cases haligned : ofs'' % v''.fs.ssize = 0
    · rw [if_pos haligned]
      exact ⟨v'', _, 0, rfl, hsought 0 fun hin => absurd haligned hin⟩
    · cases harrived with
      | found hsum hpos' hle hclust hc =>
        have hin := (hsteady.isChain i).range _ (List.mem_of_getElem? hc)
        have hlt : ofs'' < v''.fs.bcs := Nat.lt_of_le_of_ne hle fun hall => haligned (by
          rw [hall, Geometry.bcs, Nat.mul_mod_left])
        rw [if_neg haligned, if_neg (clust2sect_pos hsteady.sound.geometry hin)]
        refine ⟨v'', _, _, rfl, hsought _ fun _ => ?_⟩
        exact (cluster_sector hsteady.sound.geometry hc hbound hlt).symm
      | full hofs =>
        rw [hofs, Nat.zero_mod] at haligned
        exact absurd rfl haligned

omit [DecidableEq ι] in
theorem Stores.extend (hst : Stores fs fp l f) (hlimit : n ≤ 0xffffffff) (hroom : n ≤ l.length * fs.bcs) :
    Stores fs (if n > fp.objsize then { fp with objsize := n, modified := true } else fp) l (f.extend n) := by
  have hsize := hst.size
  have hmax : (f.extend n).size = max f.size n := rfl
  split
  · refine ⟨hst.first, ?_, Nat.max_le.mpr ⟨hst.limit, hlimit⟩, Nat.max_le.mpr ⟨hst.room, hroom⟩, hst.buf, hst.disk⟩
    rw [hmax, ← hsize]
    dsimp only
    omega
  · refine ⟨hst.first, ?_, Nat.max_le.mpr ⟨hst.limit, hlimit⟩, Nat.max_le.mpr ⟨hst.room, hroom⟩, hst.buf, hst.disk⟩
    rw [hmax, ← hsize]
    omega

/-- What no call changes in a file, and what only a call that marks the file as modified may change. -/
structure Handled (fp fp' : Fil) : Prop where
  same : fp'.read = fp.read ∧ fp'.write = fp.write ∧ fp'.err = fp.err ∧ fp'.dirSect = fp.dirSect ∧
    fp'.dirPtr = fp.dirPtr
  quiet : fp'.modified = false → fp.modified = false ∧ fp'.sclust = fp.sclust ∧ fp'.objsize = fp.objsize ∧
    (fp'.dirty = true → fp.dirty = true)

/-- Where a seek should end. -/
def seekTarget (fp : Fil) (ofs : Nat) : Nat := if ofs > fp.objsize ∧ ¬ fp.write then fp.objsize else ofs

theorem seekBoth_spec (h : Active table kept v i fp f) (hmode : fp.write = true ∨ ofs ≤ f.size) :
    ∃ (v' : Volume ι) (fp' : Fil) (nsect : Nat),
      (if ofs = 0 then (v.fs, { fp with fptr := 0 }, 0, .ok) else seekChain v.fs fp ofs) = (v'.fs, fp', nsect, .ok) ∧
        Sought table kept v i fp f ofs v' fp' nsect := by
  by_cases hzero : ofs = 0
  · rw [if_pos hzero]
    refine ⟨v, _, 0, rfl, .refl v i, h.steady, h.stores.move rfl, h.own, fun hpos => absurd hpos (Nat.lt_irrefl 0),
      ?_, rfl, .inl rfl, .inl hzero.symm⟩
    exact fun hne => absurd (Nat.zero_mod _) hne
  · rw [if_neg hzero]
    exact seekChain_spec h (Nat.pos_of_ne_zero hzero) hmode

theorem fLseek_spec (h : Active table kept v i fp f) (herr : fp.err = .ok) (hofs : ofs ≤ 0xffffffff) :
    ∃ (v' : Volume ι) (fp' : Fil), fLseek v.fs fp ofs = (v'.fs, fp', .ok) ∧ Within kept v v' i ∧
      Active table kept v' i fp' (f.extend fp'.fptr) ∧ Handled fp fp' ∧
      (fp'.fptr = seekTarget fp ofs ∨ fp'.fptr < seekTarget fp ofs ∧ v'.fs.Full) := by
  have hle : seekTarget fp ofs ≤ 0xffffffff ∧ (fp.write = true ∨ seekTarget fp ofs ≤ f.size) := by
    have hlimit := h.stores.limit
    have hsize := h.stores.size
    unfold seekTarget
    split
    · exact ⟨by omega, .inr (Nat.le_of_eq hsize)⟩
    · rename_i hno
      refine ⟨hofs, by_contra fun hboth => hno ?_⟩
      obtain ⟨hw, hlt⟩ := not_or.mp hboth
      exact ⟨by omega, hw⟩
  obtain ⟨v', fp', nsect, heq, hsought⟩ := seekBoth_spec h hle.2
  have hroom : fp'.fptr ≤ (v'.chains i).length * v'.fs.bcs := by
    by_cases hzero : fp'.fptr = 0
    · rw [hzero]
      exact Nat.zero_le _
    · have hlt := (List.getElem?_eq_some_iff.mp (hsought.clust (Nat.pos_of_ne_zero hzero))).1
      have := (Nat.div_lt_iff_lt_mul hsought.steady.sound.geometry.bcs_pos).mp hlt
      omega
  have hlimit : fp'.fptr ≤ 0xffffffff := by
    obtain heq | ⟨hlt, -⟩ := hsought.target <;> omega
  have hst := hsought.stores.extend hlimit hroom
  have hsize : fp.objsize = f.size := h.stores.size
  unfold fLseek
  rw [if_neg (not_not.mpr herr)]
  dsimp only
  unfold seekTarget at heq hsought ⊢
  rw [heq]
  dsimp only
  rw [if_neg (not_not.mpr rfl)]
  have hown := hsought.own
  have hclust := hsought.clust
  have hsect := hsought.sect
  have hsame := hsought.same
  have hfirst := hsought.first
  have htarget := hsought.target
  -- the size follows the file pointer
  generalize hgrown :
    (if fp'.fptr > fp'.objsize then { fp' with objsize := fp'.fptr, modified := true } else fp') = fp'' at hst
  have hfptr : fp''.fptr = fp'.fptr := by
    rw [← hgrown]
    split <;> rfl
  rw [← hfptr] at hst
  have hkept : fp''.clust = fp'.clust ∧ fp''.sect = fp'.sect ∧ fp''.dirty = fp'.dirty := by
    rw [← hgrown]
    split <;> exact ⟨rfl, rfl, rfl⟩
  have hhandled : Handled fp fp'' := by
    rw [← hgrown, hsame]
    constructor
    · split <;> exact ⟨rfl, rfl, rfl, rfl, rfl⟩
    · intro hquiet
      split at hquiet
      · cases hquiet
      · rename_i hsmall
        rw [if_neg hsmall]
        dsimp only at hquiet hsmall ⊢
        refine ⟨hquiet, hfirst.resolve_right fun hzero => ?_, rfl, id⟩
        omega
  by_cases hin : fp''.fptr % v'.fs.ssize ≠ 0
  · have hown' : OwnSector v'.fs.toGeometry fp'' (v'.chains i) := by
      unfold OwnSector
      rw [hkept.2.1, hkept.2.2]
      exact hown
    obtain ⟨fs, buf, dirty, heq', hsteady, hwithin, htable, hst', hdirty⟩ :=
      loadSector_spec hsought.steady hst (hown'.mine hsought.steady) nsect
    have hgeom : fs.toGeometry = v'.fs.toGeometry := hwithin.geometry
    rw [if_pos hin, heq']
    dsimp only
    rw [if_neg (not_not.mpr rfl)]
    refine ⟨⟨fs, v'.chains⟩, _, rfl, hsought.within.trans hwithin,
      ⟨hsteady, hst', ⟨fun hpos => ?_, fun _ => ?_⟩, fun hd => ?_⟩, ⟨hhandled.same, fun hquiet => ?_⟩, ?_⟩
    · dsimp only at hpos ⊢
      rw [hgeom, hfptr, hkept.1]
      exact hclust (hfptr ▸ hpos)
    · dsimp only
      rw [hgeom, hfptr]
      exact hsect (by rwa [← hfptr])
    · dsimp only
      rw [hgeom, (hdirty hd).2]
      exact hown' (hdirty hd).1
    · obtain ⟨hmod, hsclust, hobj, hold⟩ := hhandled.quiet hquiet
      exact ⟨hmod, hsclust, hobj, fun hd => hold (hdirty hd).1⟩
    · dsimp only
      rw [hfptr]
      exact htarget.imp_right (And.imp_right fun hfull => hfull.congr hgeom htable)
  · rw [if_neg hin]
    refine ⟨v', fp'', rfl, hsought.within, ⟨hsought.steady, hst, ⟨fun hpos => ?_, fun hne => absurd hne hin⟩, ?_⟩,
      hhandled, ?_⟩
    · rw [hfptr, hkept.1]
      exact hclust (hfptr ▸ hpos)
    · unfold OwnSector
      rw [hkept.2.1, hkept.2.2]
      exact hown
    · rw [hfptr]
      exact htarget

end seek

/-! ## `f_truncate` -/

section truncate

variable {c n : Nat}

theorem Content.truncate_all (h : f.size ≤ n) (h' : n ≤ f.size) : f.truncate n = f := by
  refine Content.ext (Nat.le_antisymm h' h) (funext fun o => ?_)
  show (if o < n then f.data o else none) = f.data o
  split
  · rfl
  · cases hdata : f.data o with
    | none => rfl
    | some b =>
      have := f.within o b hdata
      omega

theorem Stores.shrink {fs' : Fatfs} (hst : Stores fs fp l f) (hgeom : fs'.toGeometry = fs.toGeometry)
    (hdisk : ∀ j < l'.length * fs.csize, fs'.drive.sector (fs.sectorOf l' j) = fs.drive.sector (fs.sectorOf l' j))
    (hl : l' <+: l) (hn : n ≤ f.size) (hroom : n ≤ l'.length * fs.bcs) {fp' : Fil}
    (hfp' : fp' = { fp with objsize := n, sclust := l'.headD 0, modified := fp'.modified }) :
    Stores fs' fp' l' (f.truncate n) := by
  have hsect {o : Nat} {b : UInt8} (hb : (f.truncate n).data o = some b) :
      o / fs.ssize < l'.length * fs.csize ∧ fs.sectorOf l (o / fs.ssize) = fs.sectorOf l' (o / fs.ssize) ∧
        f.data o = some b := by
    have ho := (f.truncate n).within o b hb
    have hlt := div_lt_sectors (Nat.lt_of_lt_of_le ho hroom)
    obtain ⟨r, rfl⟩ := hl
    exact ⟨hlt, sectorOf_append hlt, (if_pos ho).symm.trans hb⟩
  rw [hfp']
  refine ⟨rfl, rfl, Nat.le_trans hn hst.limit, by rw [hgeom]; exact hroom, ?_, ?_⟩
  · rw [hgeom]
    intro o b hb hs
    obtain ⟨-, hsame, hdata⟩ := hsect hb
    rw [← hsame] at hs
    exact hst.buf o b hdata hs
  · rw [hgeom]
    intro o b hb hnew
    obtain ⟨hlt, hsame, hdata⟩ := hsect hb
    rw [hdisk _ hlt, ← hsame]
    rw [← hsame] at hnew
    exact hst.disk o b hdata hnew

variable [DecidableEq ι]

/-- The chain ends with the cluster of the file pointer. -/
def Shortened (table : Nat → Nat) (kept : Nat → Prop) (v : Volume ι) (i : ι) (n : Nat) (v' : Volume ι) : Prop :=
  Touch v.fs v'.fs ∧ (∀ j, j ≠ i → v'.chains j = v.chains j) ∧ v'.chains i <+: v.chains i ∧
    n ≤ (v'.chains i).length * v.fs.bcs ∧ Steady table kept v'

theorem removeChain_all (h : Steady table kept v) (hc : (v.chains i).head? = some c) :
    ∃ v' : Volume ι, removeChain v.fs c 0 = (v'.fs, .ok) ∧ Shortened table kept v i 0 v' ∧ v'.chains i = [] := by
  obtain ⟨rest, hchain⟩ := List.head?_eq_some_iff.mp hc
  obtain ⟨w, hstep⟩ : ∃ w, volumeStep v (.drop i) = some w := by
    dsimp only [volumeStep]
    rw [hchain]
    exact ⟨_, rfl⟩
  have htidy := (h.toTidy.drop hstep).1
  dsimp only [volumeStep] at hstep
  rw [hchain] at hstep
  obtain rfl := Option.some.inj hstep
  have hl := h.isChain i
  rw [hchain] at hl
  obtain ⟨htouch, -, hremoved⟩ := removeChain_spec h.sound (Fatfs.robust_of_good h.good) hl
  have hok : (removeChain v.fs c 0).2 = .ok := by
    generalize (removeChain v.fs c 0).2 = res at hremoved
    cases hremoved with
    | ok => rfl
    | faulty hbad => exact absurd hbad h.good
  refine ⟨_, Prod.ext rfl hok, ⟨htouch, fun j hj => Function.update_of_ne hj .., ?_, Nat.zero_le _, htidy, ?_⟩, ?_⟩
  · dsimp only
    rw [Function.update_self]
    exact List.nil_prefix
  · exact h.window.touch h.sound.geometry htouch
  · exact Function.update_self ..

theorem removeChain_behind (h : Steady table kept v) {k d : Nat} (hc : (v.chains i)[k]? = some c)
    (hd : (v.chains i)[k + 1]? = some d) :
    ∃ v' : Volume ι, removeChain v.fs d c = (v'.fs, .ok) ∧ Shortened table kept v i ((k + 1) * v.fs.bcs) v' ∧
      v'.chains i = (v.chains i).take (k + 1) := by
  obtain ⟨w, hstep⟩ : ∃ w, volumeStep v (.cut i k) = some w := by
    dsimp only [volumeStep]
    rw [hc, hd]
    exact ⟨_, rfl⟩
  have htidy := (h.toTidy.cut hstep).1
  dsimp only [volumeStep] at hstep
  rw [hc, hd] at hstep
  dsimp only at hstep
  have hl := h.isChain i
  rw [getElem?_split₂ hc hd] at hl
  obtain ⟨htouch, -, hcut⟩ := removeChain_cut h.sound (Fatfs.robust_of_good h.good) hl
  have hnot : c ∉ d :: (v.chains i).drop (k + 2) := (List.nodup_cons.mp (List.nodup_append.mp hl.nodup).2.1).1
  have hok : (removeChain v.fs d c).2 = .ok ∧ v.fs.nFatent ≤ (removeChain v.fs d c).1.table c := by
    generalize (removeChain v.fs d c).2 = res at hcut
    cases hcut with
    | ok htable =>
      rw [htable, giveBack_of_notMem hnot, Function.update_self]
      exact ⟨rfl, mask_end h.sound⟩
    | faulty hbad => exact absurd hbad h.good
    | none hbad => exact absurd hbad h.good
  rw [htouch.geometry, if_neg (Nat.not_lt.mpr hok.2)] at hstep
  obtain rfl := Option.some.inj hstep
  have hlen : ((v.chains i).take (k + 1)).length = k + 1 := by
    rw [List.length_take]
    have := (List.getElem?_eq_some_iff.mp hd).1
    omega
  refine ⟨_, Prod.ext rfl hok.1, ⟨htouch, fun j hj => Function.update_of_ne hj .., ?_, ?_, htidy, ?_⟩, ?_⟩
  · dsimp only
    rw [Function.update_self]
    exact List.take_prefix ..
  · dsimp only
    rw [Function.update_self, hlen]
  · exact h.window.touch h.sound.geometry htouch
  · exact Function.update_self ..

theorem truncateChain_spec (h : Active table kept v i fp f) (hlt : fp.fptr < f.size) :
    ∃ v' : Volume ι, truncateChain v.fs fp = (v'.fs, { fp with sclust := (v'.chains i).headD 0 }, .ok) ∧
      Shortened table kept v i fp.fptr v' ∧ (0 < fp.fptr →
        (v'.chains i)[(fp.fptr - 1) / v.fs.bcs]? = some fp.clust) := by
  obtain ⟨hsteady, hst, hloc, hown⟩ := h
  have hl := hsteady.isChain i
  have hg := hsteady.sound.geometry
  unfold truncateChain
  by_cases hzero : fp.fptr = 0
  · have hhead : (v.chains i).head? = some fp.sclust := by
      have hroom := hst.room
      rw [hst.first]
      cases hchain : v.chains i with
      | nil =>
        rw [hchain, List.length_nil, Nat.zero_mul] at hroom
        omega
      | cons c rest => rfl
    obtain ⟨v', heq, hshort, hnil⟩ := removeChain_all hsteady hhead
    rw [if_pos hzero, heq, hzero]
    exact ⟨v', by rw [hnil]; rfl, hshort, fun hpos => absurd hpos (Nat.lt_irrefl 0)⟩
  · have hpos := Nat.pos_of_ne_zero hzero
    have hc := hloc.clust hpos
    have hmem := List.mem_of_getElem? hc
    have hused := hl.used hsteady.sound hmem
    have hlow : fp.fptr ≤ ((fp.fptr - 1) / v.fs.bcs + 1) * v.fs.bcs := by
      have hdiv : (fp.fptr - 1) / v.fs.bcs < (fp.fptr - 1) / v.fs.bcs + 1 := Nat.lt_succ_self _
      have := (Nat.div_lt_iff_lt_mul hg.bcs_pos).mp hdiv
      omega
    obtain ⟨htouch, htable, -, hres⟩ := getFat_table hsteady.sound fp.clust
    have hval : (getFat v.fs fp.clust).2 = v.fs.table fp.clust := hres.resolve_right fun hbad => hsteady.good hbad.2
    have hsteady' := hsteady.touch htouch htable
    have hmore := hl.more_iff hc
    have hgeom := htouch.geometry
    generalize getFat v.fs fp.clust = r at *
    obtain ⟨fs, ncl⟩ := r
    dsimp only at htouch htable hval hsteady' hgeom
    subst hval
    rw [if_neg hzero]
    dsimp only
    rw [if_neg (table_ne_noSector _ _), if_neg (by omega)]
    by_cases hnext : v.fs.table fp.clust < fs.nFatent
    · rw [if_pos hnext]
      rw [hgeom] at hnext
      have hd := List.getElem?_eq_getElem (hmore.mp hnext)
      obtain ⟨v', heq, hshort, htake⟩ := removeChain_behind (v := ⟨fs, v.chains⟩) (i := i) hsteady' hc hd
      obtain ⟨htouch', hothers, hprefix, hroom, hsteady''⟩ := hshort
      have hcut : (v'.chains i)[(fp.fptr - 1) / v.fs.bcs]? = some fp.clust := by
        rw [htake]
        exact (List.getElem?_take_of_lt (Nat.lt_succ_self _)).trans hc
      have hfirst : (v'.chains i).headD 0 = fp.sclust := by
        have hne : (v'.chains i).headD 0 ≠ 0 := by
          cases hchain : v'.chains i with
          | nil => rw [hchain] at hcut; cases hcut
          | cons c rest =>
            have := (hsteady''.isChain i).range c (by rw [hchain]; exact List.mem_cons_self ..)
            show c ≠ 0
            omega
        rw [hst.first]
        exact (headD_grow hprefix hne).symm
      rw [hl.table_eq hc hd, heq]
      refine ⟨v', by rw [hfirst], ⟨htouch.trans htouch', hothers, hprefix, ?_, hsteady''⟩, fun _ => hcut⟩
      rw [hgeom] at hroom
      exact Nat.le_trans hlow hroom
    · rw [if_neg hnext]
      refine ⟨⟨fs, v.chains⟩, by rw [← hst.first], ⟨htouch, fun _ _ => rfl, List.prefix_rfl, ?_, hsteady'⟩, fun _ => hc⟩
      exact Nat.le_trans (Nat.le_of_lt hlt) hst.room

theorem fTruncate_spec (h : Active table kept v i fp f) (herr : fp.err = .ok) (hwrite : fp.write = true)
    (hpos : fp.fptr ≤ f.size) :
    ∃ (v' : Volume ι) (fp' : Fil), fTruncate v.fs fp = (v'.fs, fp', .ok) ∧ Within kept v v' i ∧
      Active table kept v' i fp' (f.truncate fp.fptr) ∧ Handled fp fp' ∧ fp'.fptr = fp.fptr := by
  have hsize := h.stores.size
  unfold fTruncate
  rw [if_neg (not_not.mpr herr), if_neg (not_not.mpr hwrite)]
  by_cases hlt : fp.objsize > fp.fptr
  · obtain ⟨v', heq, ⟨htouch, hothers, hprefix, hroom, hsteady⟩, hclust⟩ := truncateChain_spec h (by omega)
    have hgeom : v'.fs.toGeometry = v.fs.toGeometry := htouch.geometry
    have hdisk (j : Nat) (hj : j < (v'.chains i).length * v.fs.csize) :
        v'.fs.drive.sector (v.fs.sectorOf (v'.chains i) j) = v.fs.drive.sector (v.fs.sectorOf (v'.chains i) j) := by
      obtain ⟨hge, hbig, hmem⟩ := hsteady.chain_sector (i := i) (j := j) (by rwa [hgeom])
      have hkept := (hsteady.mine hmem).1
      have hview := hsteady.window.sector_eq_view hge hbig hkept
      rw [hgeom] at hge hbig hkept hview
      obtain ⟨hcopy, htab⟩ := h.steady.not_table hge
      rw [h.steady.window.sector_eq_view hge hbig hkept, hview]
      exact htouch.view _ hbig hcopy htab
    have hst : Stores v'.fs { fp with sclust := (v'.chains i).headD 0, objsize := fp.fptr, modified := true }
        (v'.chains i) (f.truncate fp.fptr) :=
      h.stores.shrink hgeom hdisk hprefix hpos hroom rfl
    have hown (hd : fp.dirty = true) : v'.fs.database ≤ fp.sect ∧ Mine kept v' i (v'.fs.clusterOf fp.sect) := by
      obtain ⟨hge, hkept, hfree⟩ := h.own.mine h.steady hd
      rw [hgeom]
      refine ⟨hge, hkept, fun j hj => ?_⟩
      rw [hothers j hj]
      exact hfree j hj
    obtain ⟨fs, heq', hsteady', hwithin, -, hstores⟩ := flush_spec (i := i) hsteady
      { fp with sclust := (v'.chains i).headD 0, objsize := fp.fptr, modified := true } hown
    have hgeom' : fs.toGeometry = v'.fs.toGeometry := hwithin.geometry
    rw [if_pos hlt, heq]
    dsimp only
    rw [if_pos rfl, heq']
    dsimp only
    rw [if_neg (not_not.mpr rfl)]
    refine ⟨⟨fs, v'.chains⟩, _, rfl, (Within.grow htouch hothers).trans hwithin, ⟨hsteady', hstores _ _ hst, ?_, ?_⟩,
      ?_, rfl⟩
    · dsimp only
      rw [hgeom', hgeom]
      refine ⟨hclust, fun hin => ?_⟩
      have hc := hclust (Nat.pos_of_ne_zero fun hzero => hin (by rw [hzero]; exact Nat.zero_mod _))
      rw [pred_within hin] at hc
      obtain ⟨r, hr⟩ := hprefix
      have hsect := h.located.sect hin
      rw [← hr, sectorOf_append (pointer_lt h.steady.sound.geometry hc)] at hsect
      exact hsect
    · exact fun hd => absurd hd Bool.false_ne_true
    · exact ⟨⟨rfl, rfl, rfl, rfl, rfl⟩, fun hquiet => absurd hquiet Bool.true_eq_false.mp⟩
  · rw [if_neg hlt, Content.truncate_all (by omega) hpos]
    exact ⟨v, fp, rfl, .refl v i, h, ⟨⟨rfl, rfl, rfl, rfl, rfl⟩, fun hquiet => ⟨hquiet, rfl, rfl, id⟩⟩, rfl⟩

end truncate

end ThyristorController.Fat
