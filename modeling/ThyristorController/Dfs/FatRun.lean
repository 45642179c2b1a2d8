import ThyristorController.Dfs.FatSync
import ThyristorController.Lib.Run

/-!
# Files over whole runs

The calls on the open files of a volume in any order, on a drive that does not fail. `contents` is what every file holds
after a run, as its users know it from the calls: a read finds it, whatever the other files do. After `f_sync` the drive
alone has it, and a mount finds it again through the directory entry.
-/

namespace ThyristorController.Fat

open Bytes Chain Transition

variable {ι : Type} {table : Nat → Nat} {kept : Nat → Prop} {v v' : Volume ι} {i j : ι} {g : Geometry} {fs fs' : Fatfs}
  {fp fp' : Fil} {l : List Nat} {f f' : Content} {tm : Nat}

/-! ## The calls -/

section calls

variable {n : Nat}

theorem fRead_spec (m : Memory) (btr : Nat) (h : Active table kept v i fp f) (herr : fp.err = .ok)
    (hread : fp.read = true) (hpos : fp.fptr ≤ f.size) :
    ∃ fs fp' m', fRead v.fs fp m btr = (fs, fp', m', min btr (f.size - fp.fptr), .ok) ∧
      Copied f fp.fptr 0 (min btr (f.size - fp.fptr)) m m' ∧ Within kept v ⟨fs, v.chains⟩ i ∧
      Active table kept ⟨fs, v.chains⟩ i fp' f ∧ Browsed fp fp' (min btr (f.size - fp.fptr)) := by
  have hsize := h.stores.size
  have hlimit := h.stores.limit
  have hremain : (fp.objsize + 0x100000000 - fp.fptr) % 0x100000000 = f.size - fp.fptr := by omega
  have hmin : (if btr > f.size - fp.fptr then f.size - fp.fptr else btr) = min btr (f.size - fp.fptr) := by
    split <;> omega
  unfold fRead
  rw [if_neg (not_not.mpr herr), if_neg (not_not.mpr hread)]
  dsimp only
  rw [hremain, hmin]
  obtain ⟨fs, fp', m', heq, hrest⟩ := readLoop_spec m 0 h
    (show fp.fptr + min btr (f.size - fp.fptr) ≤ f.size by omega) (Nat.le_refl _)
  rw [Nat.zero_add] at heq
  exact ⟨fs, fp', m', heq, hrest⟩

/-- The number of bytes of a write that has room. -/
def writeTarget (fp : Fil) (btw : Nat) : Nat := min btw (0xffffffff - fp.fptr)

variable [DecidableEq ι]

theorem fWrite_spec (w : Memory) {btw : Nat} (h : Active table kept v i fp f) (herr : fp.err = .ok)
    (hwrite : fp.write = true) (hpos : fp.fptr ≤ f.size) (hbtw : btw < 0x100000000) :
    ∃ (v' : Volume ι) (fp' : Fil) (n : Nat), fWrite v.fs fp w btw = (v'.fs, fp', n, .ok) ∧ n ≤ writeTarget fp btw ∧
      (n = writeTarget fp btw ∨ v'.fs.Full) ∧ Within kept v v' i ∧ Active table kept v' i fp' (f.write fp.fptr n w) ∧
      Handled fp fp' ∧ fp'.fptr = fp.fptr + n := by
  have hlimit := h.stores.limit
  have htarget :
      (if (fp.fptr + btw) % 0x100000000 < fp.fptr then 0xffffffff - fp.fptr else btw) = writeTarget fp btw := by
    unfold writeTarget
    split <;> omega
  unfold fWrite
  rw [if_neg (not_not.mpr herr), if_neg (not_not.mpr hwrite)]
  dsimp only
  rw [htarget]
  obtain ⟨v', fp', n, heq, hle, hend, hwithin, hactive, hwritten⟩ := writeLoop_spec w 0 h hpos
    (show fp.fptr + writeTarget fp btw ≤ 0xffffffff by unfold writeTarget; omega) (Nat.le_refl _)
  have hsrc : (fun a => w (0 + a)) = w := funext fun a => by rw [Nat.zero_add]
  rw [hsrc] at hactive
  rw [Nat.zero_add] at heq
  obtain ⟨hsteady, hst, hloc, hown⟩ := hactive
  refine ⟨v', _, n, heq, hle, hend, hwithin, ⟨hsteady, ⟨hst.first, hst.size, hst.limit, hst.room, hst.buf, hst.disk⟩,
    ⟨hloc.clust, hloc.sect⟩, hown⟩, ⟨?_, fun hquiet => absurd hquiet.symm Bool.false_ne_true⟩, ?_⟩
  · rw [hwritten.same]
    exact ⟨rfl, rfl, rfl, rfl, rfl⟩
  · exact congrArg Fil.fptr hwritten.same

omit [DecidableEq ι] in
theorem Browsed.handled (h : Browsed fp fp' n) : Handled fp fp' := by
  have hdirty := h.dirty
  rw [h.same] at hdirty ⊢
  exact ⟨⟨rfl, rfl, rfl, rfl, rfl⟩, fun hquiet => ⟨hquiet, rfl, rfl, hdirty⟩⟩

end calls

/-! ## One call, and the other files -/

section frame

/-- The directory entries of the open files. -/
structure Placed (kept : Nat → Prop) (g : Geometry) (fil : ι → Fil) : Prop where
  info : g.fsType = .fat32 → g.volbase + 1 < g.fatbase
  listed : ∀ i, Listed kept g (fil i)
  distinct : ∀ i j, i ≠ j → (fil i).dirSect = (fil j).dirSect → (fil i).dirPtr ≠ (fil j).dirPtr

theorem Listed.foreign (h : Listed kept v.fs.toGeometry fp) (hg : v.fs.toGeometry.Ok) (i : ι) :
    Foreign kept v i fp.dirSect :=
  ⟨h.lt, (h.outside hg).1, (h.outside hg).2, fun hge => .inl (h.kept hge)⟩

theorem Saved.congr (h : Saved fs fp) (hgeom : fs'.toGeometry = fs.toGeometry)
    (hview : ∀ a, fp.dirPtr ≤ a → a < fp.dirPtr + 32 → fs'.view fp.dirSect a = fs.view fp.dirSect a) :
    Saved fs' fp := by
  have hload (k n : Nat) (hk : k + n ≤ 32) :
      load (fs'.view fp.dirSect) (fp.dirPtr + k) n = load (fs.view fp.dirSect) (fp.dirPtr + k) n :=
    load_congr fun a hle hlt => hview a (by omega) (by omega)
  unfold Saved ldClust ldWord ldDword at h ⊢
  rw [hgeom, hload 26 2 (by decide), hload 20 2 (by decide), hload 28 4 (by decide)]
  exact h

theorem Opened.frame (h : Opened v.fs fp (v.chains j) f) (hsteady : Steady table kept v)
    (hsteady' : Steady table kept v')
    (hgeom : v'.fs.toGeometry = v.fs.toGeometry) (hchain : v'.chains j = v.chains j)
    (hdata : ∀ s, v.fs.database ≤ s → s < noSector → v.fs.clusterOf s ∈ v.chains j → v'.fs.view s = v.fs.view s)
    (hdir : ∀ a, fp.dirPtr ≤ a → a < fp.dirPtr + 32 → v'.fs.view fp.dirSect a = v.fs.view fp.dirSect a) :
    Opened v'.fs fp (v'.chains j) f := by
  rw [hchain]
  refine ⟨h.toStores.congr hgeom fun k hk => ?_, ?_, h.err, h.pos, ?_, fun hquiet => ?_⟩
  · obtain ⟨hge, hlt, hmem⟩ := hsteady.chain_sector hk
    have hkept := (hsteady.mine hmem).1
    rw [hsteady.window.sector_eq_view hge hlt hkept, ← hdata _ hge hlt hmem]
    exact hsteady'.window.sector_eq_view (by rwa [hgeom]) hlt (by rwa [hgeom])
  · rw [hgeom]
    exact h.toLocated
  · rw [hgeom]
    exact h.own
  · exact (h.saved hquiet).imp_right fun hsaved => hsaved.congr hgeom hdir

theorem Opened.after (h : Opened v.fs fp (v.chains i) f) (hactive : Active table kept v' i fp' f')
    (hhandled : Handled fp fp') (hpos : fp'.fptr ≤ f'.size) (hgeom : v'.fs.toGeometry = v.fs.toGeometry)
    (hdir : v'.fs.view fp.dirSect = v.fs.view fp.dirSect) : Opened v'.fs fp' (v'.chains i) f' := by
  obtain ⟨-, -, herr, hsect, hptr⟩ := hhandled.same
  refine ⟨hactive.stores, hactive.located, herr.trans h.err, hpos, hactive.own, fun hquiet => ?_⟩
  obtain ⟨hmod, hsclust, hobj, hdirty⟩ := hhandled.quiet hquiet
  obtain ⟨hclean, hsaved⟩ := h.saved hmod
  refine ⟨Bool.eq_false_iff.mpr fun hd => absurd (hclean.symm.trans (hdirty hd)) Bool.false_ne_true, ?_⟩
  unfold Saved at hsaved ⊢
  rw [hsect, hptr, hsclust, hobj, hdir, hgeom]
  exact hsaved

theorem Opened.active (h : Opened v.fs fp (v.chains i) f)
    (hsteady : Steady table kept v) : Active table kept v i fp f :=
  ⟨hsteady, h.toStores, h.toLocated, h.own⟩

end frame

/-! ## The system -/

/-- The open files of a volume. -/
structure Files (ι : Type) where
  fs : Fatfs
  fil : ι → Fil

/-- The calls. The length of a write is a `UINT`, and an offset is a `DWORD`. -/
inductive FileCall (ι : Type) where
  | read (i : ι) (buff : Memory) (btr : Nat)
  | write (i : ι) (buff : Memory) (btw : Nat)
  | lseek (i : ι) (ofs : Nat)
  | truncate (i : ι)
  | sync (i : ι) (tm : Nat)

section system

variable [DecidableEq ι] {s s' : Files ι} {a : FileCall ι}

/-- The file `i` after a call. -/
def Files.put (s : Files ι) (i : ι) (fs : Fatfs) (fp : Fil) : Files ι := ⟨fs, Function.update s.fil i fp⟩

def filesStep (s : Files ι) : FileCall ι → Option (Files ι)
  | .read i buff btr =>
    let (fs, fp, _) := fRead s.fs (s.fil i) buff btr
    some (s.put i fs fp)
  | .write i buff btw =>
    if btw < 0x100000000 then
      let (fs, fp, _) := fWrite s.fs (s.fil i) buff btw
      some (s.put i fs fp)
    else none
  | .lseek i ofs =>
    if ofs < 0x100000000 then
      let (fs, fp, _) := fLseek s.fs (s.fil i) ofs
      some (s.put i fs fp)
    else none
  | .truncate i =>
    let (fs, fp, _) := fTruncate s.fs (s.fil i)
    some (s.put i fs fp)
  | .sync i tm =>
    let (fs, fp, _) := fSync s.fs (s.fil i) tm
    some (s.put i fs fp)

/-- What the files hold after a call, from what its user gave and got. -/
def after (f : ι → Content) (s : Files ι) : FileCall ι → ι → Content
  | .write i buff btw =>
    Function.update f i ((f i).write (s.fil i).fptr (fWrite s.fs (s.fil i) buff btw).2.2.1 buff)
  | .lseek i ofs => Function.update f i ((f i).extend (fLseek s.fs (s.fil i) ofs).2.1.fptr)
  | .truncate i => if (s.fil i).write then Function.update f i ((f i).truncate (s.fil i).fptr) else f
  | .read _ _ _ | .sync _ _ => f

/-- What the files hold after a run. -/
def contents (f : ι → Content) : History (Files ι) (FileCall ι) → ι → Content
  | [] => f
  | (s, a) :: h => after (contents f h) s a

/-- The open files hold their contents in some chains. -/
def Intact (table : Nat → Nat) (kept : Nat → Prop) (f : ι → Content) (s : Files ι) : Prop :=
  ∃ chains : ι → List Nat, Steady table kept ⟨s.fs, chains⟩ ∧ Placed kept s.fs.toGeometry s.fil ∧
    ∀ i, Opened s.fs (s.fil i) (chains i) (f i)

def filesSystem (table : Nat → Nat) (kept : Nat → Prop) (f : ι → Content) : System (Files ι) (FileCall ι) where
  init := Intact table kept f
  step := filesStep

omit [DecidableEq ι] in
theorem Placed.congr {fil fil' : ι → Fil} (h : Placed kept g fil)
    (hsame : ∀ i, (fil' i).dirSect = (fil i).dirSect ∧ (fil' i).dirPtr = (fil i).dirPtr) : Placed kept g fil' := by
  refine ⟨h.info, fun i => ?_, fun i j hij => ?_⟩
  · obtain ⟨habove, hlt, hkept, haligned⟩ := h.listed i
    obtain ⟨hsect, hptr⟩ := hsame i
    rw [← hsect] at habove hlt hkept
    exact ⟨habove, hlt, hkept, by rwa [hptr]⟩
  · rw [(hsame i).1, (hsame j).1, (hsame i).2, (hsame j).2]
    exact h.distinct i j hij

theorem put_same (hsame : fp'.dirSect = (s.fil i).dirSect ∧ fp'.dirPtr = (s.fil i).dirPtr) (j : ι) :
    ((s.put i fs fp').fil j).dirSect = (s.fil j).dirSect ∧ ((s.put i fs fp').fil j).dirPtr = (s.fil j).dirPtr := by
  show (Function.update s.fil i fp' j).dirSect = _ ∧ (Function.update s.fil i fp' j).dirPtr = _
  by_cases hj : j = i
  · subst hj
    rw [Function.update_self]
    exact hsame
  · rw [Function.update_of_ne hj]
    exact ⟨rfl, rfl⟩

theorem opened_update {f : ι → Content} {g' : Content} {fil : ι → Fil} {chains : ι → List Nat}
    (hself : Opened fs fp' (chains i) g') (hothers : ∀ j, j ≠ i → Opened fs (fil j) (chains j) (f j)) (j : ι) :
    Opened fs (Function.update fil i fp' j) (chains j) (Function.update f i g' j) := by
  by_cases hj : j = i
  · subst hj
    rw [Function.update_self, Function.update_self]
    exact hself
  · rw [Function.update_of_ne hj, Function.update_of_ne hj]
    exact hothers j hj

theorem Intact.put {f : ι → Content} {g' : Content} {chains : ι → List Nat} (hsteady : Steady table kept ⟨s.fs, chains⟩)
    (hplaced : Placed kept s.fs.toGeometry s.fil) (hopened : ∀ i, Opened s.fs (s.fil i) (chains i) (f i))
    (hwithin : Within kept ⟨s.fs, chains⟩ v' i) (hactive : Active table kept v' i fp' g')
    (hhandled : Handled (s.fil i) fp')
    (hpos : fp'.fptr ≤ g'.size) : Intact table kept (Function.update f i g') (s.put i v'.fs fp') := by
  have hgeom : v'.fs.toGeometry = s.fs.toGeometry := hwithin.geometry
  have hdir (j : ι) : v'.fs.view (s.fil j).dirSect = s.fs.view (s.fil j).dirSect :=
    hwithin.view _ ((hplaced.listed j).foreign hsteady.sound.geometry i)
  refine ⟨v'.chains, hactive.steady, ?_, opened_update ?_ fun j hj => ?_⟩
  · show Placed kept v'.fs.toGeometry _
    rw [hgeom]
    exact hplaced.congr (put_same hhandled.same.2.2.2)
  · exact Opened.after (v := ⟨s.fs, chains⟩) (hopened i) hactive hhandled hpos hgeom (hdir i)
  · refine Opened.frame (v := ⟨s.fs, chains⟩) (hopened j) hsteady hactive.steady hgeom (hwithin.others j hj) ?_ ?_
    · intro t hge hlt hmem
      obtain ⟨hcopy, htab⟩ := hsteady.not_table hge
      exact hwithin.view t ⟨hlt, hcopy, htab, fun _ => .inr ⟨j, hj, hmem⟩⟩
    · intro a _ _
      rw [hdir j]

omit [DecidableEq ι] in
theorem fSync_spec (h : Active table kept v i fp f) (hmod : fp.modified = true) (hlist : Listed kept v.fs.toGeometry fp)
    (hinfo : v.fs.fsType = .fat32 → v.fs.volbase + 1 < v.fs.fatbase) (tm : Nat) :
    ∃ fs, fSync v.fs fp tm = (fs, { fp with dirty := false, modified := false }, .ok) ∧
      Active table kept ⟨fs, v.chains⟩ i { fp with dirty := false, modified := false } f ∧ Clean fs ∧
      fs.toGeometry = v.fs.toGeometry ∧ Saved fs { fp with dirty := false, modified := false } ∧
      (∀ s, Foreign kept v i s → v.fs.fatbase ≤ s → ∀ a,
        (s = fp.dirSect → a < fp.dirPtr ∨ fp.dirPtr + 32 ≤ a) → fs.view s a = v.fs.view s a) := by
  obtain ⟨hsteady, hst, hloc, hown⟩ := h
  have hg := hsteady.sound.geometry
  obtain ⟨fs₁, heq, hsteady₁, hwithin, -, hstores⟩ := flush_spec hsteady fp (hown.mine hsteady)
  have hgeom₁ : fs₁.toGeometry = v.fs.toGeometry := hwithin.geometry
  have hst₁ := hstores _ _ hst
  have hlist₁ : Listed kept fs₁.toGeometry { fp with dirty := false } := by
    rw [hgeom₁]
    exact ⟨hlist.above, hlist.lt, hlist.kept, hlist.aligned⟩
  obtain ⟨hok, fs, heq', hsteady', hclean, hgeom, hdir, hview⟩ := writeEntry_spec tm hsteady₁ hlist₁ (by
    rw [hgeom₁]
    exact hinfo)
  rw [hgeom₁] at hgeom hdir hview
  dsimp only at hok heq' hdir hview
  have hdata := hg.database
  have hst' : Stores fs { fp with dirty := false } (v.chains i) f := by
    refine hst₁.congr (hgeom.trans hgeom₁.symm) fun j hj => ?_
    obtain ⟨hge, hlt, hmem⟩ := hsteady₁.chain_sector (i := i) hj
    have hkept := (hsteady₁.mine hmem).1
    have hsect := hsteady₁.window.sector_eq_view hge hlt hkept
    dsimp only at hge hlt hkept hsect ⊢
    rw [hgeom₁] at hge hlt hkept hsect ⊢
    rw [hsect, ← hview _ hlt (hsteady.not_table hge).1 (by omega) fun he => hkept (he ▸ hlist.kept (he ▸ hge))]
    have hgeom' : fs.toGeometry = v.fs.toGeometry := hgeom
    exact hsteady'.window.sector_eq_view (by rwa [hgeom']) hlt (by rwa [hgeom'])
  have hsclust : fp.sclust < v.fs.nFatent := by
    have hthree := hg.nFatent.1
    rw [hst.first]
    cases hchain : v.chains i with
    | nil => exact Nat.lt_of_lt_of_le (by decide) hthree
    | cons c rest => exact ((hsteady.isChain i).range c (by rw [hchain]; exact List.mem_cons_self ..)).2
  refine ⟨fs, ?_, ⟨hsteady', ⟨hst'.first, hst'.size, hst'.limit, hst'.room, hst'.buf, hst'.disk⟩, ?_, ?_⟩, hclean,
    hgeom, ?_, ?_⟩
  · unfold fSync
    rw [if_pos hmod, heq]
    dsimp only
    rw [if_pos hok, heq']
  · dsimp only
    rw [hgeom]
    exact ⟨hloc.clust, hloc.sect⟩
  · exact fun hd => absurd hd Bool.false_ne_true
  · unfold Saved
    dsimp only
    rw [hgeom, hdir]
    have hlimit := hst.limit
    have hsize := hst.size
    exact ⟨ldClust_entry _ hg hsclust, ldDword_entry _ (show fp.objsize ≤ 0xffffffff by omega)⟩
  · intro s hs hge a ha
    by_cases hsd : s = fp.dirSect
    · rw [hsd, hdir]
      refine (entry_outside { fp with dirty := false } (ha hsd)).trans ?_
      exact congrFun (hwithin.view _ (hlist.foreign hg i)) a
    · rw [hview s hs.1 hs.2.1 hge hsd]
      exact congrFun (hwithin.view _ hs) a

theorem put_self (s : Files ι) (i : ι) : s.put i s.fs (s.fil i) = s := by
  unfold Files.put
  rw [Function.update_eq_self]

section calls

variable {f : ι → Content} {i : ι}

theorem Intact.read {buff : Memory} {btr : Nat} (h : Intact table kept f s)
    (hstep : filesStep s (.read i buff btr) = some s') :
    Intact table kept (after f s (.read i buff btr)) s' := by
  obtain ⟨chains, hsteady, hplaced, hopened⟩ := id h
  have hactive : Active table kept ⟨s.fs, chains⟩ i (s.fil i) (f i) :=
    Opened.active (v := ⟨s.fs, chains⟩) (hopened i) hsteady
  have herr := (hopened i).err
  unfold filesStep at hstep
  dsimp only at hstep
  by_cases hread : (s.fil i).read = true
  · obtain ⟨fs, fp', m', heq, -, hwithin, hactive', hbrowsed⟩ :=
      fRead_spec buff btr hactive herr hread (hopened i).pos
    have hfptr : fp'.fptr = (s.fil i).fptr + min btr ((f i).size - (s.fil i).fptr) := congrArg Fil.fptr hbrowsed.same
    have hpos := (hopened i).pos
    have hput := Intact.put hsteady hplaced hopened hwithin hactive' hbrowsed.handled (by omega)
    rw [Function.update_eq_self] at hput
    dsimp only at heq
    rw [heq] at hstep
    obtain rfl := Option.some.inj hstep
    exact hput
  · have hdenied : fRead s.fs (s.fil i) buff btr = (s.fs, s.fil i, buff, 0, .denied) := by
      unfold fRead
      rw [if_neg (not_not.mpr herr), if_pos hread]
    rw [hdenied, put_self] at hstep
    obtain rfl := Option.some.inj hstep
    exact h

theorem Intact.write {buff : Memory} {btw : Nat} (h : Intact table kept f s)
    (hstep : filesStep s (.write i buff btw) = some s') :
    Intact table kept (after f s (.write i buff btw)) s' := by
  obtain ⟨chains, hsteady, hplaced, hopened⟩ := id h
  have hactive : Active table kept ⟨s.fs, chains⟩ i (s.fil i) (f i) :=
    Opened.active (v := ⟨s.fs, chains⟩) (hopened i) hsteady
  have herr := (hopened i).err
  unfold filesStep at hstep
  obtain ⟨hlen, hstep⟩ := Option.ite_none_right_eq_some.mp hstep
  dsimp only [after]
  by_cases hwrite : (s.fil i).write = true
  · obtain ⟨v', fp', n, heq, -, -, hwithin, hactive', hhandled, hfptr⟩ :=
      fWrite_spec buff hactive herr hwrite (hopened i).pos hlen
    dsimp only at heq
    rw [heq] at hstep ⊢
    obtain rfl := Option.some.inj hstep
    exact Intact.put hsteady hplaced hopened hwithin hactive' hhandled (hfptr ▸ Nat.le_max_right ..)
  · have hdenied : fWrite s.fs (s.fil i) buff btw = (s.fs, s.fil i, 0, .denied) := by
      unfold fWrite
      rw [if_neg (not_not.mpr herr), if_pos hwrite]
    rw [hdenied] at hstep ⊢
    dsimp only at hstep ⊢
    rw [put_self] at hstep
    obtain rfl := Option.some.inj hstep
    rwa [Content.write_zero (hopened i).pos, Function.update_eq_self]

theorem Intact.lseek {ofs : Nat} (h : Intact table kept f s) (hstep : filesStep s (.lseek i ofs) = some s') :
    Intact table kept (after f s (.lseek i ofs)) s' := by
  obtain ⟨chains, hsteady, hplaced, hopened⟩ := id h
  have hactive : Active table kept ⟨s.fs, chains⟩ i (s.fil i) (f i) :=
    Opened.active (v := ⟨s.fs, chains⟩) (hopened i) hsteady
  have herr := (hopened i).err
  unfold filesStep at hstep
  obtain ⟨hofs, hstep⟩ := Option.ite_none_right_eq_some.mp hstep
  dsimp only [after]
  obtain ⟨v', fp', heq, hwithin, hactive', hhandled, -⟩ := fLseek_spec hactive herr (Nat.le_of_lt_succ hofs)
  dsimp only at heq
  rw [heq] at hstep ⊢
  obtain rfl := Option.some.inj hstep
  exact Intact.put hsteady hplaced hopened hwithin hactive' hhandled (Nat.le_max_right ..)

theorem Intact.truncate (h : Intact table kept f s) (hstep : filesStep s (.truncate i) = some s') :
    Intact table kept (after f s (.truncate i)) s' := by
  obtain ⟨chains, hsteady, hplaced, hopened⟩ := id h
  have hactive : Active table kept ⟨s.fs, chains⟩ i (s.fil i) (f i) :=
    Opened.active (v := ⟨s.fs, chains⟩) (hopened i) hsteady
  have herr := (hopened i).err
  unfold filesStep at hstep
  dsimp only at hstep
  dsimp only [after]
  by_cases hwrite : (s.fil i).write = true
  · obtain ⟨v', fp', heq, hwithin, hactive', hhandled, hfptr⟩ :=
      fTruncate_spec hactive herr hwrite (hopened i).pos
    dsimp only at heq
    rw [heq] at hstep
    obtain rfl := Option.some.inj hstep
    rw [if_pos hwrite]
    exact Intact.put hsteady hplaced hopened hwithin hactive' hhandled (Nat.le_of_eq hfptr)
  · have hdenied : fTruncate s.fs (s.fil i) = (s.fs, s.fil i, .denied) := by
      unfold fTruncate
      rw [if_neg (not_not.mpr herr), if_pos hwrite]
    rw [hdenied, put_self] at hstep
    obtain rfl := Option.some.inj hstep
    rwa [if_neg hwrite]

theorem Intact.sync {tm : Nat} (h : Intact table kept f s) (hstep : filesStep s (.sync i tm) = some s') :
    Intact table kept (after f s (.sync i tm)) s' := by
  obtain ⟨chains, hsteady, hplaced, hopened⟩ := id h
  have hactive : Active table kept ⟨s.fs, chains⟩ i (s.fil i) (f i) :=
    Opened.active (v := ⟨s.fs, chains⟩) (hopened i) hsteady
  have herr := (hopened i).err
  unfold filesStep at hstep
  dsimp only at hstep
  by_cases hmod : (s.fil i).modified = true
  · obtain ⟨fs, heq, hactive', -, hgeom, hsaved, hview⟩ :=
      fSync_spec hactive hmod (hplaced.listed i) hplaced.info tm
    have hgeom : fs.toGeometry = s.fs.toGeometry := hgeom
    dsimp only at heq hactive' hview
    rw [heq] at hstep
    obtain rfl := Option.some.inj hstep
    refine ⟨chains, hactive'.steady, ?_, ?_⟩
    · show Placed kept fs.toGeometry _
      rw [hgeom]
      exact hplaced.congr (put_same ⟨rfl, rfl⟩)
    have hself : Opened fs { s.fil i with dirty := false, modified := false } (chains i) (f i) :=
      ⟨hactive'.stores, hactive'.located, herr, (hopened i).pos, hactive'.own, fun _ => ⟨rfl, hsaved⟩⟩
    have hothers (j : ι) (hj : j ≠ i) : Opened fs (s.fil j) (chains j) (f j) := by
      have hlow : s.fs.fatbase ≤ s.fs.database := Nat.le_trans (Nat.le_add_right ..) hsteady.sound.geometry.database
      have hlist := hplaced.listed
      have habove (k : ι) : s.fs.fatbase ≤ (s.fil k).dirSect := Nat.le_trans (Nat.le_add_right ..) (hlist k).above
      refine Opened.frame (v := ⟨s.fs, chains⟩) (hopened j) hsteady hactive'.steady hgeom rfl ?_ ?_
      · intro t hge hlt hmem
        obtain ⟨hcopy, htab⟩ := hsteady.not_table hge
        have hforeign : Foreign kept ⟨s.fs, chains⟩ i t := ⟨hlt, hcopy, htab, fun _ => .inr ⟨j, hj, hmem⟩⟩
        refine funext fun x => hview t hforeign (Nat.le_trans hlow hge) x fun ht => ?_
        exact absurd ((hlist i).kept (ht ▸ hge)) (ht ▸ (hsteady.mine hmem).1)
      · intro x hle hlt
        refine hview _ ((hlist j).foreign hsteady.sound.geometry i) (habove j) x fun hsame => ?_
        -- two entries of one sector are apart
        obtain ⟨p, hp⟩ := (hlist i).aligned
        obtain ⟨q, hq⟩ := (hlist j).aligned
        have hne := hplaced.distinct j i hj hsame
        omega
    have hopened' := opened_update hself hothers
    rwa [Function.update_eq_self] at hopened'
  · have hquiet : fSync s.fs (s.fil i) tm = (s.fs, s.fil i, .ok) := by
      unfold fSync
      rw [if_neg hmod]
    rw [hquiet, put_self] at hstep
    obtain rfl := Option.some.inj hstep
    exact h

end calls

/-- Every call keeps every file, with what the call itself does to the contents. -/
theorem Intact.step {f : ι → Content} (h : Intact table kept f s) (hstep : filesStep s a = some s') :
    Intact table kept (after f s a) s' := by
  cases a with
  | read i buff btr => exact h.read hstep
  | write i buff btw => exact h.write hstep
  | lseek i ofs => exact h.lseek hstep
  | truncate i => exact h.truncate hstep
  | sync i tm => exact h.sync hstep

/-! ## What every run has -/

variable {f : ι → Content} {h : History (Files ι) (FileCall ι)}

theorem run_intact (hrun : (filesSystem table kept f).Run h s) : Intact table kept (contents f h) s :=
  hrun.always (I := fun h s => Intact table kept (contents f h) s) (fun _ hinit => hinit)
    fun _ _ _ _ _ hintact hstep => hintact.step hstep

/-- No cluster is lost or in two files, and every file has the clusters for its size. -/
theorem clusters_run (hrun : (filesSystem table kept f).Run h s) :
    ∃ chains : ι → List Nat, Family s.fs.next s.fs.Used chains ∧
      (∀ i, (s.fil i).sclust = (chains i).headD 0 ∧ (s.fil i).objsize ≤ (chains i).length * s.fs.bcs) ∧
      ∀ c, s.fs.Used c → kept c ∧ (∀ i, c ∉ chains i) ∨ ∃ i, c ∈ chains i := by
  obtain ⟨chains, hsteady, -, hopened⟩ := run_intact hrun
  refine ⟨chains, hsteady.family, fun i => ⟨(hopened i).first, ?_⟩, fun c hc => ?_⟩
  · rw [(hopened i).size]
    exact (hopened i).room
  · exact (hsteady.whole c hc).imp_left fun hk => ⟨hk, (hsteady.apart c hk).2.2⟩

/-- A read finds what was written last, whatever was done to the other files, and stops at the end of the file. -/
theorem read_run (hrun : (filesSystem table kept f).Run h s) (i : ι) (hread : (s.fil i).read = true) (m : Memory)
    (btr : Nat) :
    let n := min btr ((contents f h i).size - (s.fil i).fptr)
    ∃ m', (fRead s.fs (s.fil i) m btr).2.2 = (m', n, .ok) ∧
      (∀ x < n, ∀ b, (contents f h i).data ((s.fil i).fptr + x) = some b → m' x = b) ∧ ∀ x, n ≤ x → m' x = m x := by
  obtain ⟨chains, hsteady, -, hopened⟩ := run_intact hrun
  have hactive := Opened.active (v := ⟨s.fs, chains⟩) (hopened i) hsteady
  obtain ⟨fs, fp', m', heq, hcopied, -⟩ := fRead_spec m btr hactive (hopened i).err hread (hopened i).pos
  dsimp only at heq
  rw [heq]
  refine ⟨m', rfl, fun x hx b hb => ?_, fun x hx => hcopied.rest x (.inr (by rwa [Nat.zero_add]))⟩
  have := hcopied.data x hx b hb
  rwa [Nat.zero_add] at this

/-- A write succeeds, and is complete as far as a file can grow and the volume has room. -/
theorem write_run (hrun : (filesSystem table kept f).Run h s) (i : ι) (hwrite : (s.fil i).write = true) (buff : Memory)
    (btw : Nat) (hbtw : btw < 0x100000000) :
    let r := fWrite s.fs (s.fil i) buff btw
    r.2.2.2 = .ok ∧ (r.2.2.1 = writeTarget (s.fil i) btw ∨ r.2.2.1 < writeTarget (s.fil i) btw ∧ r.1.Full) := by
  obtain ⟨chains, hsteady, -, hopened⟩ := run_intact hrun
  have hactive := Opened.active (v := ⟨s.fs, chains⟩) (hopened i) hsteady
  obtain ⟨v', fp', n, heq, hle, hend, -⟩ := fWrite_spec buff hactive (hopened i).err hwrite (hopened i).pos hbtw
  dsimp only at heq ⊢
  rw [heq]
  refine ⟨rfl, ?_⟩
  rcases Nat.lt_or_eq_of_le hle with hlt | heq
  · exact .inr ⟨hlt, hend.resolve_left (Nat.ne_of_lt hlt)⟩
  · exact .inl heq

/-- A seek succeeds, and goes where it should as far as the volume has room. -/
theorem seek_run (hrun : (filesSystem table kept f).Run h s) (i : ι) (ofs : Nat) (hofs : ofs < 0x100000000) :
    let r := fLseek s.fs (s.fil i) ofs
    r.2.2 = .ok ∧ (r.2.1.fptr = seekTarget (s.fil i) ofs ∨ r.2.1.fptr < seekTarget (s.fil i) ofs ∧ r.1.Full) := by
  obtain ⟨chains, hsteady, -, hopened⟩ := run_intact hrun
  have hactive := Opened.active (v := ⟨s.fs, chains⟩) (hopened i) hsteady
  obtain ⟨v', fp', heq, -, -, -, htarget⟩ := fLseek_spec hactive (hopened i).err (Nat.le_of_lt_succ hofs)
  dsimp only at heq ⊢
  rw [heq]
  exact ⟨rfl, htarget⟩

end system

/-! ## After a mount -/

section mount

/-- The drive was mounted again, with an empty window. -/
structure Mounted (fs fs' : Fatfs) : Prop where
  geometry : fs'.toGeometry = fs.toGeometry
  drive : fs'.drive = fs.drive
  winsect : fs'.winsect = noSector
  wflag : fs'.wflag = false

/-- The file object that `f_open` makes of the directory entry in the window. -/
def Fil.ofEntry (fs : Fatfs) (read write : Bool) (dirSect dirPtr : Nat) : Fil where
  read := read
  write := write
  modified := false
  dirty := false
  err := .ok
  fptr := 0
  objsize := ldDword fs.win (dirPtr + 28)
  sclust := ldClust fs.toGeometry fs.win dirPtr
  clust := 0
  sect := 0
  buf := fun _ => 0
  dirSect := dirSect
  dirPtr := dirPtr

theorem Steady.same_view (h : Steady table kept v) (hs : Sound fs) (hgeom : fs.toGeometry = v.fs.toGeometry)
    (hbad : fs.drive.bad = v.fs.drive.bad) (hview : ∀ s < noSector, ¬ v.fs.Copy s → fs.view s = v.fs.view s)
    (hwindow : Apart kept fs) : Steady table kept ⟨fs, v.chains⟩ := by
  have hg := h.sound.geometry
  have hthree := hg.nFatent.1
  have hentry (c : Nat) (hc : c < v.fs.nFatent) : fs.entry c = v.fs.entry c :=
    entry_of_view h.sound hgeom (fun s ht => hview s (hg.not_copy ht).1 (hg.not_copy ht).2.1) hc
  exact ⟨h.toTidy.congr hs hgeom (table_congr hgeom hentry) hbad fun c hc => hentry c (by omega), hwindow⟩

theorem Steady.mounted (h : Steady table kept v) (hclean : Clean v.fs) (hmount : Mounted v.fs fs) :
    Steady table kept ⟨fs, v.chains⟩ := by
  have hg := h.sound.geometry
  have hno := hg.noSector_not_copy
  refine h.same_view ⟨?_, fun _ hlt => ?_, fun hw => ?_, ?_⟩ hmount.geometry ?_ (fun s hlt hc => ?_) fun _ hlt => ?_
  · rw [hmount.geometry]
    exact hg
  · rw [hmount.winsect] at hlt
    exact absurd hlt (Nat.lt_irrefl _)
  · rw [hmount.wflag] at hw
    exact absurd hw Bool.false_ne_true
  · rw [hmount.geometry, hmount.winsect]
    exact hno
  · rw [hmount.drive]
  · have hne : s ≠ fs.winsect := by
      rw [hmount.winsect]
      exact Nat.ne_of_lt hlt
    rw [view_of_ne hne, hmount.drive]
    exact sector_of_clean hclean.sound hclean.wflag hlt
  · rw [hmount.winsect] at hlt
    exact absurd hlt (Nat.lt_irrefl _)

theorem Steady.look (h : Steady table kept v) (hlist : Listed kept v.fs.toGeometry fp) :
    (moveWindow v.fs fp.dirSect).2 = .ok ∧ Steady table kept ⟨(moveWindow v.fs fp.dirSect).1, v.chains⟩ ∧
      (moveWindow v.fs fp.dirSect).1.win = v.fs.view fp.dirSect ∧ Moves v.fs (moveWindow v.fs fp.dirSect).1 := by
  obtain ⟨hcopy, -⟩ := hlist.outside h.sound.geometry
  obtain ⟨hmoves, hsound, ⟨hok, hsect, hwin⟩ | ⟨-, hbad⟩⟩ := moveWindow_spec h.sound hlist.lt hcopy
  · refine ⟨hok, h.same_view hsound hmoves.geometry hmoves.bad hmoves.view ?_, hwin, hmoves⟩
    unfold Apart
    rw [hsect, hmoves.geometry]
    exact fun hge _ => hlist.kept hge
  · obtain ⟨hbad, -⟩ | ⟨hbad, -⟩ := hbad <;> exact absurd (hbad.symm.trans (h.drive_good _)) Bool.false_ne_true.symm

theorem Opened.reopened (h : Opened v.fs fp (v.chains i) f) (hsteady : Steady table kept v) (hclean : Clean v.fs)
    (hlist : Listed kept v.fs.toGeometry fp) (hquiet : fp.modified = false) (hmount : Mounted v.fs fs)
      (read write : Bool) :
    let fs' := (moveWindow fs fp.dirSect).1
    (moveWindow fs fp.dirSect).2 = .ok ∧
      Active table kept ⟨fs', v.chains⟩ i (Fil.ofEntry fs' read write fp.dirSect fp.dirPtr) f := by
  have hg := hsteady.sound.geometry
  have hmounted := hsteady.mounted hclean hmount
  have hlist' : Listed kept fs.toGeometry fp := by
    rw [hmount.geometry]
    exact hlist
  obtain ⟨hok, hlooked, hwin, hmoves⟩ := hmounted.look hlist'
  refine ⟨hok, ?_⟩
  obtain ⟨hdirty, hsclust, hobj⟩ := h.saved hquiet
  have hgeom : (moveWindow fs fp.dirSect).1.toGeometry = v.fs.toGeometry := hmoves.geometry.trans hmount.geometry
  have hview (s : Nat) (hlt : s < noSector) (hc : ¬ v.fs.Copy s) :
      (moveWindow fs fp.dirSect).1.view s = v.fs.view s := by
    have hcopy : ¬ fs.Copy s := by rwa [hmount.geometry]
    have hne : s ≠ fs.winsect := by
      rw [hmount.winsect]
      exact Nat.ne_of_lt hlt
    rw [hmoves.view s hlt hcopy, view_of_ne hne, hmount.drive]
    exact sector_of_clean hclean.sound hclean.wflag hlt
  have hwin' : (moveWindow fs fp.dirSect).1.win = v.fs.view fp.dirSect := by
    rw [hwin, view_of_ne (by rw [hmount.winsect]; exact Nat.ne_of_lt hlist.lt), hmount.drive]
    exact sector_of_clean hclean.sound hclean.wflag hlist.lt
  generalize (moveWindow fs fp.dirSect).1 = fs' at hlooked hgeom hview hwin'
  have hst : Stores fs' fp (v.chains i) f := by
    refine h.toStores.congr hgeom fun j hj => ?_
    obtain ⟨hge, hlt, hmem⟩ := hsteady.chain_sector (i := i) hj
    have hkept := (hsteady.mine hmem).1
    rw [hsteady.window.sector_eq_view hge hlt hkept, ← hview _ hlt (hsteady.not_table hge).1]
    exact hlooked.window.sector_eq_view (by rwa [hgeom]) hlt (by rwa [hgeom])
  refine ⟨hlooked, ⟨?_, ?_, hst.limit, hst.room, fun o b hb hs => ?_, fun o b hb _ => ?_⟩, ⟨?_, ?_⟩, ?_⟩
  · show ldClust fs'.toGeometry fs'.win fp.dirPtr = _
    rw [hgeom, hwin', hsclust, hst.first]
  · show ldDword fs'.win (fp.dirPtr + 28) = _
    rw [hwin', hobj, hst.size]
  · -- the sector 0 belongs to no file
    have hlt := div_lt_sectors (Nat.lt_of_lt_of_le (f.within o b hb) h.room)
    obtain ⟨hge, -⟩ := hsteady.chain_sector (i := i) hlt
    have hs : 0 = fs'.sectorOf (v.chains i) (o / fs'.ssize) := hs
    rw [hgeom] at hs
    have hpos := hg.database_pos
    omega
  · exact hst.disk o b hb fun hd => absurd (hdirty.symm.trans hd) Bool.false_ne_true
  · exact fun hpos => absurd hpos (Nat.lt_irrefl 0)
  · exact fun hne => absurd (Nat.zero_mod _) hne
  · exact fun hd => absurd hd Bool.false_ne_true

variable [DecidableEq ι] {s s' : Files ι} {f : ι → Content} {h : History (Files ι) (FileCall ι)}

/-- After `f_sync` of a modified file the drive alone has every file that is not modified since: a mount finds the same
size and the same bytes. -/
theorem sync_run (hrun : (filesSystem table kept f).Run h s) (hmod : (s.fil i).modified = true)
    (hstep : filesStep s (.sync i tm) = some s') (hquiet : (s'.fil j).modified = false) (hmount : Mounted s'.fs fs)
    (write : Bool) (m : Memory) (btr : Nat) :
    let mounted := (moveWindow fs (s'.fil j).dirSect).1
    let fp := Fil.ofEntry mounted true write (s'.fil j).dirSect (s'.fil j).dirPtr
    let n := min btr (contents f h j).size
    (moveWindow fs (s'.fil j).dirSect).2 = .ok ∧ fp.objsize = (contents f h j).size ∧
      ∃ m', (fRead mounted fp m btr).2.2 = (m', n, .ok) ∧
        ∀ x < n, ∀ b, (contents f h j).data x = some b → m' x = b := by
  have hrun' : (filesSystem table kept f).Run ((s, .sync i tm) :: h) s' := .step hrun hstep
  obtain ⟨chains, hsteady, hplaced, hopened⟩ := run_intact hrun'
  have hclean : Clean s'.fs := by
    obtain ⟨chains, hsteady, hplaced, hopened⟩ := run_intact hrun
    have hactive := Opened.active (v := ⟨s.fs, chains⟩) (hopened i) hsteady
    obtain ⟨fs, heq, -, hclean, -⟩ := fSync_spec hactive hmod (hplaced.listed i) hplaced.info tm
    dsimp only [filesStep] at hstep heq
    rw [heq] at hstep
    rw [← Option.some.inj hstep]
    exact hclean
  obtain ⟨hok, hactive⟩ := Opened.reopened (v := ⟨s'.fs, chains⟩) (hopened j) hsteady hclean (hplaced.listed j) hquiet
    hmount true write
  obtain ⟨fs', fp', m', heq, hcopied, -⟩ := fRead_spec m btr hactive rfl rfl (Nat.zero_le _)
  dsimp only at heq ⊢
  rw [show (Fil.ofEntry (moveWindow fs (s'.fil j).dirSect).1 true write (s'.fil j).dirSect (s'.fil j).dirPtr).fptr = 0
    from rfl, Nat.sub_zero] at heq hcopied
  refine ⟨hok, hactive.stores.size, m', by rw [heq]; rfl, fun x hx b hb => ?_⟩
  have := hcopied.data x hx b (by rwa [Nat.zero_add])
  rwa [Nat.zero_add] at this

end mount

/-! ## A small volume -/

/-- A small volume with a root directory, in front of the clusters. -/
def rootVolume : Fatfs :=
  ⟨⟨.fat12, 512, 1, 2, 4, 1, 0, 1, 4⟩, formatted, noSector, false, fun _ => 0, noSector, noSector, 0⟩

/-- A file that was just created. -/
def newFil : Fil := ⟨true, true, true, false, .ok, 0, 0, 0, 0, 0, fun _ => 0, 3, 0⟩

def newFiles : Files Unit := ⟨rootVolume, fun _ => newFil⟩

/-- Nothing was written. -/
def noContent : Content := ⟨0, fun _ => none, fun _ _ h => absurd h (Option.some_ne_none _).symm⟩

section small

theorem rootVolume_sound : Sound rootVolume := by
  have hg : rootVolume.Ok := ⟨by decide, ⟨0, rfl⟩, by decide, by decide, by decide, by decide, by decide⟩
  exact ⟨hg, fun _ h => absurd h (Nat.lt_irrefl _), fun h => absurd h Bool.false_ne_true, hg.noSector_not_copy⟩

theorem rootVolume_free (c : Nat) (hc : 2 ≤ c ∧ c < 4) : rootVolume.table c = 0 := by
  obtain rfl | rfl : c = 2 ∨ c = 3 := by omega
  · rfl
  · rfl

theorem rootVolume_steady :
    Steady (fun _ => 0) (fun _ => False) (⟨rootVolume, fun _ => []⟩ : Volume Unit) := by
  have hsafe : Safe (fun _ => 0) (fun _ => False) (⟨rootVolume, fun _ => []⟩ : Volume Unit) :=
    ⟨rootVolume_sound, ⟨fun _ => rfl, fun _ => List.nodup_nil, fun _ _ hc => absurd hc List.not_mem_nil,
      fun i j hij => absurd rfl hij⟩, fun _ hk => hk.elim⟩
  refine ⟨⟨hsafe, fun ⟨_, hbad⟩ => Bool.false_ne_true hbad, ⟨by decide +kernel, by decide +kernel⟩, fun c hc => ?_,
    fun _ hk => hk.elim⟩, fun _ hlt => absurd hlt (Nat.lt_irrefl _)⟩
  exact absurd (rootVolume_free c ⟨hc.1, hc.2.1⟩) hc.2.2

theorem newFiles_init : (filesSystem (fun _ => 0) (fun _ => False) fun _ => noContent).init newFiles := by
  refine ⟨fun _ => [], rootVolume_steady, ⟨fun htype => absurd htype (by decide), fun _ => ?_,
    fun i j hij => absurd rfl hij⟩,
    fun _ => ?_⟩
  · exact ⟨show 1 + 2 * 1 ≤ 3 by decide, show 3 < noSector by decide, fun hge => absurd hge (show ¬ 4 ≤ 3 by decide),
      ⟨0, rfl⟩⟩
  · refine ⟨⟨rfl, rfl, Nat.zero_le _, Nat.zero_le _, fun _ _ hb => ?_, fun _ _ hb => ?_⟩, ⟨?_, ?_⟩, rfl,
      Nat.le_refl 0, ?_, ?_⟩
    · exact absurd hb (Option.some_ne_none _).symm
    · exact absurd hb (Option.some_ne_none _).symm
    · exact fun hpos => absurd hpos (Nat.lt_irrefl 0)
    · exact fun hne => absurd (Nat.zero_mod _) hne
    · exact fun hd => absurd hd Bool.false_ne_true
    · exact fun hquiet => absurd hquiet.symm Bool.false_ne_true

/-- Three bytes. -/
def abc : Memory := fun a => UInt8.ofNat (65 + a)

/-- They were written. -/
def abcFiles : Files Unit := newFiles.put () (fWrite rootVolume newFil abc 3).1 (fWrite rootVolume newFil abc 3).2.1

theorem abcFiles_run :
    (filesSystem (fun _ => 0) (fun _ => False) fun _ => noContent).Run [(newFiles, .write () abc 3)] abcFiles :=
  .step (.init newFiles_init) rfl

theorem clusters_run_small :
    ∃ chains : Unit → List Nat, Family abcFiles.fs.next abcFiles.fs.Used chains ∧
      (∀ i, (abcFiles.fil i).sclust = (chains i).headD 0 ∧
        (abcFiles.fil i).objsize ≤ (chains i).length * abcFiles.fs.bcs) ∧
      ∀ c, abcFiles.fs.Used c → False ∧ (∀ i, c ∉ chains i) ∨ ∃ i, c ∈ chains i :=
  clusters_run abcFiles_run

/-- They are read from the beginning, and no more. -/
theorem read_run_small :
    let r := fLseek abcFiles.fs (abcFiles.fil ()) 0
    ∃ m', (fRead r.1 r.2.1 (fun _ => 0) 5).2.2 = (m', 3, .ok) ∧ m' 0 = 65 ∧ m' 1 = 66 ∧ m' 2 = 67 ∧ m' 3 = 0 := by
  have hrun : (filesSystem (fun _ => 0) (fun _ => False) fun _ => noContent).Run
      [(abcFiles, .lseek () 0), (newFiles, .write () abc 3)]
      (abcFiles.put () (fLseek abcFiles.fs (abcFiles.fil ()) 0).1 (fLseek abcFiles.fs (abcFiles.fil ()) 0).2.1) :=
    .step abcFiles_run rfl
  obtain ⟨m', heq, hdata, hrest⟩ := read_run hrun () rfl (fun _ => 0) 5
  exact ⟨m', heq, hdata 0 (by decide) 65 rfl, hdata 1 (by decide) 66 rfl, hdata 2 (by decide) 67 rfl,
    hrest 3 (by decide)⟩

/-- The small volume has room for two sectors. -/
theorem write_run_small :
    let r := fWrite rootVolume newFil abc 2000
    r.2.2.2 = .ok ∧ (r.2.2.1 = 2000 ∨ r.2.2.1 < 2000 ∧ r.1.Full) := by
  have hrun : (filesSystem (fun _ => 0) (fun _ => False) fun _ => noContent).Run [] newFiles := .init newFiles_init
  exact write_run hrun () rfl abc 2000 (by decide)

theorem seek_run_small :
    let r := fLseek abcFiles.fs (abcFiles.fil ()) 700
    r.2.2 = .ok ∧ (r.2.1.fptr = 700 ∨ r.2.1.fptr < 700 ∧ r.1.Full) :=
  seek_run abcFiles_run () 700 (by decide)

/-- The three bytes are found after a mount. -/
theorem sync_run_small :
    let r := fSync abcFiles.fs (abcFiles.fil ()) 77
    let mounted := (moveWindow { r.1 with winsect := noSector, wflag := false } 3).1
    ∃ m', (fRead mounted (Fil.ofEntry mounted true false 3 0) (fun _ => 0) 5).2.2 = (m', 3, .ok) ∧
      m' 0 = 65 ∧ m' 1 = 66 ∧ m' 2 = 67 := by
  have hstep : filesStep abcFiles (.sync () 77) = some (abcFiles.put () (fSync abcFiles.fs (abcFiles.fil ()) 77).1
      (fSync abcFiles.fs (abcFiles.fil ()) 77).2.1) := rfl
  have hmount : Mounted (fSync abcFiles.fs (abcFiles.fil ()) 77).1
      { (fSync abcFiles.fs (abcFiles.fil ()) 77).1 with winsect := noSector, wflag := false } := ⟨rfl, rfl, rfl, rfl⟩
  obtain ⟨-, -, m', heq, hdata⟩ := sync_run (j := ()) abcFiles_run rfl hstep rfl hmount false (fun _ => 0) 5
  exact ⟨m', heq, hdata 0 (by decide) 65 rfl, hdata 1 (by decide) 66 rfl, hdata 2 (by decide) 67 rfl⟩

end small

end ThyristorController.Fat
