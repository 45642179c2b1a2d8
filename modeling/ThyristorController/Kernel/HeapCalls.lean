import ThyristorController.Kernel.HeapUse

/-!
# What the calls of the heap promise

`rt_malloc` returns `RT_NULL` only "if no free memory was found", its search ends, and `rt_realloc` keeps the data. Each
of the three holds up to a condition on the size and on the heap, which is exact in every state that is reached before
`rt_calloc` has written beyond its block: the search does not look at a last block that the data would fill
(`malloc_complete_iff`), it runs into `heap_end` in a region that is smaller than the smallest block
(`search_ends_iff`), and sizes next to 2^32 are rounded to zero (`realloc_keeps_iff`).
-/

namespace ThyristorController.Heaps

open Bytes Transition

/-- The block is free, and has room for the data of a request. -/
def Room (size : BitVec 32) (b : Block) : Prop :=
  b.used = false ∧
    b.start.toNat + sizeofStructMem.toNat + max (rtAlign size rtAlignSize).toNat minSizeAligned.toNat ≤ b.stop.toNat

instance (size : BitVec 32) (b : Block) : Decidable (Room size b) := inferInstanceAs (Decidable (_ ∧ _))

/-- `rt_malloc` returns `RT_NULL` only if no block has room. -/
def MallocComplete (h : Heap) (size : BitVec 32) : Prop :=
  ∀ h', h.rtMalloc size = some (h', none) → ∀ b ∈ h.blocks, ¬ Room size b

/-- The data of the request would fill the last block. -/
def FillsLast (h : Heap) (size : BitVec 32) (b : Block) : Prop :=
  b.stop = h.heapEnd ∧
    b.start.toNat + sizeofStructMem.toNat + max (rtAlign size rtAlignSize).toNat minSizeAligned.toNat = b.stop.toNat

instance (h : Heap) (size : BitVec 32) (b : Block) : Decidable (FillsLast h size b) :=
  inferInstanceAs (Decidable (_ ∧ _))

/-- The search of `rt_malloc`, if the call gets so far, ends after some rounds. -/
def SearchEnds (h : Heap) (size : BitVec 32) : Prop :=
  size ≠ 0 → ¬ h.memSizeAligned < rtAlign size rtAlignSize → ∃ n r, h.search (dataSize size) n h.lfree = some r

/-- A pointer to the data of a used block. -/
def Heap.Holds (h : Heap) (p : BitVec 32) : Prop := ∃ stop, (p, stop) ∈ areas h.blocks

/-- If `rt_realloc` returns `RT_NULL`, the block is there as it was; if it returns a pointer, the data are there, and
the old block is gone if it is another one. -/
def ReallocKeeps (h : Heap) (p newsize : BitVec 32) : Prop :=
  ∀ h' r, h.rtRealloc (some p) newsize = some (h', r) →
    (r = none → h'.Holds p ∧ h'.blockSize p = h.blockSize p ∧
      ∀ i, i < h.blockSize p → h'.mem (p.toNat + i) = h.mem (p.toNat + i)) ∧
    ∀ q, r = some q → h'.Holds q ∧ (h'.Holds p → q = p) ∧
      ∀ i, i < min (h.blockSize p) newsize.toNat → h'.mem (q.toNat + i) = h.mem (p.toNat + i)

section calls

variable {usable size p q newsize : BitVec 32} {h : Heap} {l : List Block} {b : Block} {s : HeapState}
  {past : History HeapState HeapAction}

theorem room_iff : Room size b ↔ b.used = false ∧ b.start.toNat + 12 + (dataSize size).toNat ≤ b.stop.toNat := by
  unfold Room
  rw [dataSize_toNat, sizeofStructMem_eq, minSizeAligned_eq, max_comm]
  rfl

theorem rtAlign_le (hl : Layout h l) (hle : size ≤ h.memSizeAligned) :
    rtAlign size rtAlignSize ≤ h.memSizeAligned := by
  have haligned := hl.aligned
  have hle := BitVec.le_def.mp hle
  rw [BitVec.le_def, rtAlign_toNat]
  omega

/-! ## The search of `rt_malloc` -/

theorem Room.reached (hl : Layout h l) (hb : b ∈ l) (hroom : Room size b) :
    (dataSize size).toNat ≤ h.memSizeAligned.toNat ∧
      (b.start < h.memSizeAligned - dataSize size ↔ ¬ FillsLast h size b) := by
  obtain ⟨-, hfit⟩ := room_iff.mp hroom
  have hend := hl.heapEnd_toNat
  have hstop := (hl.shape.le_end hb).2
  have hle : (dataSize size).toNat ≤ h.memSizeAligned.toNat := by omega
  have hfills : FillsLast h size b ↔ b.start.toNat + (dataSize size).toNat = h.memSizeAligned.toNat := by
    have hmin : minSizeAligned.toNat = 12 := by
      rw [minSizeAligned_eq]
      rfl
    have hsizeof : sizeofStructMem.toNat = 12 := by
      rw [sizeofStructMem_eq]
      rfl
    unfold FillsLast
    rw [hsizeof, hmin, max_comm, ← dataSize_toNat]
    constructor
    · rintro ⟨hlast, hexact⟩
      rw [hlast] at hexact
      omega
    · intro hexact
      exact ⟨BitVec.eq_of_toNat_eq (by omega), by omega⟩
  rw [BitVec.lt_def, BitVec.toNat_sub_of_le (BitVec.le_def.mpr hle), hfills]
  omega

theorem HeapOk.malloc_complete (hl : HeapOk h l) (hpos : size ≠ 0) (hle : size ≤ h.memSizeAligned) :
    MallocComplete h size ↔ (∀ b ∈ l, ¬ Room size b) ∨ ∃ b ∈ l, Room size b ∧ ¬ FillsLast h size b := by
  have hle := rtAlign_le hl.toLayout hle
  unfold MallocComplete
  rw [hl.blocks_eq]
  constructor
  · intro hcomplete
    by_contra hnot
    push Not at hnot
    obtain ⟨⟨b, hb, hroom⟩, hfills⟩ := hnot
    obtain ⟨hdata, -⟩ := hroom.reached hl.toLayout hb
    rcases rtMalloc_cases hl size with ⟨-, hsearch, -⟩ | ⟨hnull, -⟩ | ⟨h', l', p, -, -, -, -, c, hc, hfree, hfit, hlt⟩
    · obtain ⟨r, hr⟩ := search_total hl.toLayout hdata (n := Heap.rounds) (hl.lfree ▸ hl.shape.lowest_mem) (by
        have := h.heapEnd.isLt
        unfold Heap.rounds
        omega)
      rw [hsearch] at hr
      cases hr
    · exact hcomplete h hnull b hb hroom
    · -- the block that was found is not the last one
      have hc' : Room size c := room_iff.mpr ⟨hfree, hfit⟩
      exact (hc'.reached hl.toLayout hc).2.mp hlt (hfills c hc hc')
  · rintro (hnone | ⟨c, hc, hroom, hfills⟩) h' hnull
    · exact hnone
    · obtain ⟨hfree, hfit⟩ := room_iff.mp hroom
      obtain ⟨h'', q, hsome⟩ := rtMalloc_finds hl hpos hle hc hfree hfit
        ((hroom.reached hl.toLayout hc).2.mpr hfills)
      rw [hnull] at hsome
      cases hsome

/-- In every state, a request of no more than the usable size is refused only if no block has room, exactly if there is
no such block, or one that the data would not fill up to `heap_end`. -/
theorem malloc_complete_iff (hrun : (heaps usable).Run past s)
    (hclear : Throughout (fun _ s a => ClearOk s.heap a) past)
    (hpos : size ≠ 0) (hle : size ≤ s.heap.memSizeAligned) : MallocComplete s.heap size ↔
      (∀ b ∈ s.heap.blocks, ¬ Room size b) ∨ ∃ b ∈ s.heap.blocks, Room size b ∧ ¬ FillsLast s.heap size b := by
  obtain ⟨l, hi⟩ := heapInv_run hrun hclear
  rw [hi.ok.blocks_eq]
  exact hi.ok.malloc_complete hpos hle

/-- A request of 20 bytes is met in a heap of 232 bytes; one of 232 bytes would not be. -/
theorem malloc_complete_iff_run : ∃ past s, (heaps 232).Run past s ∧ MallocComplete s.heap 20 ∧
    ¬ MallocComplete s.heap 232 := by
  have hrun : (heaps 232).Run [] heapStart := .init heapInit_start
  refine ⟨[], heapStart, hrun, ?_, ?_⟩
  · refine (malloc_complete_iff hrun throughout_nil (by decide) (by decide +kernel)).mpr (.inr ?_)
    decide +kernel
  · intro hcomplete
    rcases (malloc_complete_iff hrun throughout_nil (by decide) (by decide +kernel)).mp hcomplete with hnone | hother
    · exact absurd hnone (by decide +kernel)
    · exact absurd hother (by decide +kernel)

/-- A heap without allocations refuses the request that it could meet exactly. -/
theorem whole_heap_is_refused : (heaps 232).Run [] heapStart ∧
    (heapStart.heap.rtMalloc 232).map Prod.snd = some none ∧ (∃ b ∈ heapStart.heap.blocks, Room 232 b) ∧
    ¬ MallocComplete heapStart.heap 232 := by
  have hnull : (heapStart.heap.rtMalloc 232).map Prod.snd = some none := by decide +kernel
  have hroom : ∃ b ∈ heapStart.heap.blocks, Room 232 b := by decide +kernel
  refine ⟨.init heapInit_start, hnull, hroom, fun hcomplete => ?_⟩
  obtain ⟨⟨h', r⟩, hmalloc, rfl⟩ := Option.map_eq_some_iff.mp hnull
  obtain ⟨b, hb, hfits⟩ := hroom
  exact hcomplete h' hmalloc b hb hfits

theorem search_runs_on (hl : Layout h l) (hsmall : h.memSizeAligned.toNat < 12) (hdata : (dataSize size).toNat = 12)
    {ptr : BitVec 32} (hptr : ∃ b ∈ l, b.start = ptr) (n : Nat) : h.search (dataSize size) n ptr = none := by
  induction n generalizing ptr with
  | zero => rfl
  | succ n ih =>
    obtain ⟨b, hb, rfl⟩ := hptr
    have hend := hl.heapEnd_toNat
    obtain ⟨hstart, hstop⟩ := hl.shape.le_end hb
    -- the bound of the loop has wrapped
    have hlt : b.start < h.memSizeAligned - dataSize size := by
      rw [BitVec.lt_def, BitVec.toNat_sub, hdata]
      omega
    have htest : ¬ ((h.block b.start).used = 0 ∧
        dataSize size ≤ (h.block b.start).next - (b.start + sizeofStructMem)) := by
      rw [search_test hl hb, hdata]
      omega
    simp only [Heap.search]
    rw [if_pos hlt, if_neg htest, hl.written b hb]
    exact ih (hl.shape.stop_mem hb)

theorem HeapOk.search_ends (hl : HeapOk h l) (size : BitVec 32) : SearchEnds h size ↔
    minSizeAligned ≤ h.memSizeAligned ∨ size = 0 ∨ h.memSizeAligned < rtAlign size rtAlignSize := by
  have hlow : ∃ b ∈ l, b.start = h.lfree := hl.lfree ▸ hl.shape.lowest_mem
  have hmin : minSizeAligned ≤ h.memSizeAligned ↔ 12 ≤ h.memSizeAligned.toNat := by
    rw [minSizeAligned_eq]
    exact BitVec.le_def
  rw [hmin]
  constructor
  · intro hends
    by_contra hnot
    push Not at hnot
    obtain ⟨hsmall, hpos, hle⟩ := hnot
    obtain ⟨n, r, hr⟩ := hends hpos hle
    have hdata : (dataSize size).toNat = 12 := by
      have := BitVec.le_def.mp (BitVec.not_lt.mp hle)
      rw [dataSize_toNat]
      omega
    rw [search_runs_on hl.toLayout hsmall hdata hlow] at hr
    cases hr
  · rintro (hlarge | hzero | hlt) hpos hle
    · have hle := BitVec.le_def.mp (BitVec.not_lt.mp hle)
      refine ⟨h.heapEnd.toNat + 1, search_total hl.toLayout ?_ hlow (by omega)⟩
      rw [dataSize_toNat]
      omega
    · exact absurd hzero hpos
    · exact absurd hlt hle

/-- The search of `rt_malloc` ends exactly if the region has the size of the smallest data, or the request is
refused before. -/
theorem search_ends_iff (hrun : (heaps usable).Run past s) (hclear : Throughout (fun _ s a => ClearOk s.heap a) past)
    (size : BitVec 32) : SearchEnds s.heap size ↔
      minSizeAligned ≤ usable ∨ size = 0 ∨ usable < rtAlign size rtAlignSize := by
  obtain ⟨l, hi⟩ := heapInv_run hrun hclear
  rw [← hi.size]
  exact hi.ok.search_ends size

/-- The search ends for every request in a region of 232 bytes. -/
theorem search_ends_iff_run : ∃ past s, (heaps 232).Run past s ∧ s.live 12 = some 20 ∧ SearchEnds s.heap 4096 ∧
    SearchEnds s.heap 208 := by
  obtain ⟨past, s, hrun, hlive, hclear⟩ := System.exists_run (S := heaps 232) heapInit_start [.malloc 20]
    (fun past s => s.live 12 = some 20 ∧ Throughout (fun _ _ a => SizeOk a) past) (by decide +kernel)
  have hclear := hclear.mono fun _ s a hsize => (hsize.request s.heap).clear
  exact ⟨past, s, hrun, hlive, (search_ends_iff hrun hclear 4096).mpr (.inl (by decide)),
    (search_ends_iff hrun hclear 208).mpr (.inl (by decide))⟩

/-- A heap with a usable size of 8 bytes. -/
def smallHeap : HeapState where
  heap := (rtSystemHeapInit (fun _ => 0) 0x1000 0x1020).get (by decide +kernel)
  live _ := none

/-- `rt_system_heap_init` accepts the region, and the search for four bytes does not end. -/
theorem search_in_a_small_heap : (heaps 8).Run [] smallHeap ∧ (rtSystemHeapInit (fun _ => 0) 0x1000 0x1020).isSome ∧
    ¬ SearchEnds smallHeap.heap 4 := by
  have hinit : rtSystemHeapInit (fun _ => 0) 0x1000 0x1020 = some smallHeap.heap :=
    (Option.some_get (by decide +kernel)).symm
  refine ⟨.init ⟨⟨_, _, _, hinit⟩, by decide +kernel, fun _ => rfl⟩, by rw [hinit]; rfl, fun hends => ?_⟩
  exact absurd (((init_spec hinit).search_ends 4).mp hends) (by decide +kernel)

/-! ## `rt_realloc` -/

theorem HeapOk.holds_iff (hl : HeapOk h l) : h.Holds p ↔ ∃ stop, (p, stop) ∈ areas l := by
  unfold Heap.Holds
  rw [hl.blocks_eq]

theorem rtAlign_eq_zero_iff (hpos : newsize ≠ 0) : rtAlign newsize rtAlignSize = 0 ↔ 2 ^ 32 - 4 < newsize.toNat := by
  have hlt := newsize.isLt
  have hne : newsize.toNat ≠ 0 := fun hzero => hpos (BitVec.eq_of_toNat_eq hzero)
  have hzero : rtAlign newsize rtAlignSize = 0 ↔ (rtAlign newsize rtAlignSize).toNat = 0 :=
    ⟨fun h => by rw [h]; rfl, fun h => BitVec.eq_of_toNat_eq h⟩
  rw [hzero, rtAlign_toNat]
  omega

theorem HeapOk.realloc_keeps (hl : HeapOk h l) (hp : h.Holds p) (hpos : newsize ≠ 0)
    (hle : newsize.toNat ≤ 2 ^ 32 - 4) : ReallocKeeps h p newsize := by
  obtain ⟨stop, hmem⟩ := hl.holds_iff.mp hp
  obtain ⟨A, B, ha⟩ := List.append_of_mem hmem
  have hsize := Heap.blockSize_eq hl.toLayout hmem
  have hzero : rtAlign newsize rtAlignSize ≠ 0 := fun hzero =>
    absurd ((rtAlign_eq_zero_iff hpos).mp hzero) (Nat.not_lt.mpr hle)
  have hround := le_rtAlign hzero
  have hcases := rtRealloc_cases hl ha newsize
  intro h' r hr
  rw [hr] at hcases
  cases hcases with
  | null => exact ⟨fun _ => ⟨hp, rfl, fun _ _ => rfl⟩, nofun⟩
  | freed hn => exact absurd hn hzero
  | @inPlace _ l' stop' hn hl' hsame ha' hroom hstop hkeeps =>
    have hmem' : (p, stop') ∈ areas l' := by
      rw [ha']
      exact List.mem_append_right _ List.mem_cons_self
    refine ⟨nofun, fun q hq => ?_⟩
    obtain rfl := Option.some.inj hq
    refine ⟨hl'.holds_iff.mpr ⟨_, hmem'⟩, fun _ => rfl, fun i hi => ?_⟩
    exact hkeeps _ hmem' _ (Nat.le_add_right ..) (by dsimp only; omega)
  | moved hn hl' hsame hareas hnew hroom hkeeps hdata =>
    refine ⟨nofun, fun q hq => ?_⟩
    obtain rfl := Option.some.inj hq
    refine ⟨hl'.holds_iff.mpr ⟨_, (hareas _).mpr (.inl rfl)⟩, fun hold => ?_, fun i hi => ?_⟩
    · obtain ⟨stop', hold⟩ := hl'.holds_iff.mp hold
      rcases (hareas _).mp hold with heq | hrest
      · exact (congrArg Prod.fst heq).symm
      · exact (hl.not_mem_rest ha hrest rfl).elim
    · exact hdata i (by omega) (by omega)

theorem HeapOk.realloc_frees (hl : HeapOk h l) (hp : h.Holds p) (hzero : rtAlign newsize rtAlignSize = 0) :
    ∃ h', h.rtRealloc (some p) newsize = some (h', none) ∧ ¬ h'.Holds p := by
  obtain ⟨stop, hmem⟩ := hl.holds_iff.mp hp
  obtain ⟨A, B, ha⟩ := List.append_of_mem hmem
  obtain ⟨h', l', hfree, hok, -, hareas, -⟩ := free_spec hl ha
  have hrefused : ¬ h.memSizeAligned < 0 := fun hlt => absurd (BitVec.lt_def.mp hlt) (Nat.not_lt_zero _)
  refine ⟨h', ?_, fun hold => ?_⟩
  · unfold Heap.rtRealloc
    rw [hzero]
    dsimp only
    rw [if_neg hrefused, if_pos rfl, hfree]
    rfl
  · obtain ⟨stop', hold⟩ := hok.holds_iff.mp hold
    rw [hareas] at hold
    exact hl.not_mem_rest ha hold rfl

/-- In every state, `rt_realloc` keeps the data of an allocated block exactly if the size can be rounded up. -/
theorem realloc_keeps_iff (hrun : (heaps usable).Run past s) (hclear : Throughout (fun _ s a => ClearOk s.heap a) past)
    (hlive : (s.live p).isSome) (hpos : newsize ≠ 0) : ReallocKeeps s.heap p newsize ↔ newsize.toNat ≤ 2 ^ 32 - 4 := by
  obtain ⟨l, hi⟩ := heapInv_run hrun hclear
  have hp : s.heap.Holds p := hi.ok.holds_iff.mpr ((hi.live p).mp hlive)
  constructor
  · intro hkeeps
    by_contra hlarge
    obtain ⟨h', hr, hgone⟩ := hi.ok.realloc_frees hp ((rtAlign_eq_zero_iff hpos).mpr (Nat.lt_of_not_le hlarge))
    exact hgone ((hkeeps h' none hr).1 rfl).1
  · exact hi.ok.realloc_keeps hp hpos

/-- A block of 20 bytes is enlarged to 60. -/
theorem realloc_keeps_iff_run : ∃ past s, (heaps 232).Run past s ∧ s.live 12 = some 20 ∧
    ReallocKeeps s.heap 12 60 := by
  obtain ⟨past, s, hrun, hlive, hsizes⟩ := System.exists_run (S := heaps 232) heapInit_start [.malloc 20]
    (fun past s => s.live 12 = some 20 ∧ Throughout (fun _ _ a => SizeOk a) past) (by decide +kernel)
  exact ⟨past, s, hrun, hlive, (realloc_keeps_iff hrun (hsizes.mono fun _ s a hsize => (hsize.request s.heap).clear)
    (by rw [hlive]; rfl) (by decide)).mpr (by decide)⟩

/-- A request for 2^32 - 1 bytes fails, and the block is freed. -/
theorem huge_realloc_frees : ∃ past s h', (heaps 232).Run past s ∧ s.live 12 = some 20 ∧ s.heap.Holds 12 ∧
    s.heap.rtRealloc (some 12) 0xffffffff = some (h', none) ∧ ¬ h'.Holds 12 ∧
    ¬ ReallocKeeps s.heap 12 0xffffffff := by
  obtain ⟨past, s, hrun, hlive, hsizes⟩ := System.exists_run (S := heaps 232) heapInit_start [.malloc 20]
    (fun past s => s.live 12 = some 20 ∧ Throughout (fun _ _ a => SizeOk a) past) (by decide +kernel)
  obtain ⟨l, hi⟩ := heapInv_run hrun (hsizes.mono fun _ s a hsize => (hsize.request s.heap).clear)
  have hp : s.heap.Holds 12 := hi.ok.holds_iff.mpr ((hi.live 12).mp (by rw [hlive]; rfl))
  have hzero : rtAlign 0xffffffff rtAlignSize = 0 := by decide
  obtain ⟨h', hr, hgone⟩ := hi.ok.realloc_frees hp hzero
  exact ⟨past, s, h', hrun, hlive, hp, hr, hgone, fun hkeeps => hgone ((hkeeps h' none hr).1 rfl).1⟩

end calls

end ThyristorController.Heaps
