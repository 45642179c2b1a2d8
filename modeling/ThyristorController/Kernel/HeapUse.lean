import ThyristorController.Kernel.HeapAlloc
import ThyristorController.Lib.Run

/-!
# The users of the heap

The system of a heap, from `rt_system_heap_init` on, and of its users: they call `rt_malloc`, `rt_calloc`, `rt_realloc`
and `rt_free` with pointers that were returned and not freed, one call after the other, and write to the data of their
blocks.

`heap_invariant` is the invariant of the heap for requests that can be rounded up; `size_sound` says which calls
return fewer bytes than were requested.
-/

namespace ThyristorController.Heaps

open Bytes Transition

/-! ## The system -/

/-- How many bytes of data the block of a pointer has. -/
def Heap.blockSize (h : Heap) (p : BitVec 32) : Nat := (h.block (p - sizeofStructMem)).next.toNat - p.toNat

/-- The calls, and the write of one byte. -/
inductive HeapAction where
  | malloc (size : BitVec 32)
  | calloc (count size : BitVec 32)
  | realloc (rmem : Option (BitVec 32)) (newsize : BitVec 32)
  | free (rmem : Option (BitVec 32))
  | store (p : BitVec 32) (i : Nat) (v : UInt8)
deriving DecidableEq

namespace HeapAction

/-- What the code does; `none` if it does not return, or an assertion fails. -/
def run (h : Heap) : HeapAction → Option (Heap × Option (BitVec 32))
  | malloc size => h.rtMalloc size
  | calloc count size => h.rtCalloc count size
  | realloc rmem newsize => h.rtRealloc rmem newsize
  | free rmem => (h.rtFree rmem).map fun h => (h, none)
  | store p i v => some ({ h with mem := Function.update h.mem (p.toNat + i) v }, none)

/-- The argument that is a pointer. -/
def pointer : HeapAction → Option (BitVec 32)
  | realloc rmem _ | free rmem => rmem
  | store p _ _ => some p
  | malloc _ | calloc .. => none

/-- How many bytes the user asks for. -/
def request : HeapAction → Nat
  | malloc size => size.toNat
  | calloc count size => count.toNat * size.toNat
  | realloc _ newsize => newsize.toNat
  | free _ | store .. => 0

/-- The pointer that is freed if the call returns `r`: `rt_realloc` frees it unless it returns `RT_NULL`, and always
for the rounded size 0. -/
def frees (r : Option (BitVec 32)) : HeapAction → Option (BitVec 32)
  | realloc rmem newsize => if r = none ∧ rtAlign newsize rtAlignSize ≠ 0 then none else rmem
  | free rmem => rmem
  | malloc _ | calloc .. | store .. => none

end HeapAction

/-- The heap; and for each pointer that was returned and not freed, how many bytes were requested. -/
structure HeapState where
  heap : Heap
  live : BitVec 32 → Option Nat

/-- The pointer is `RT_NULL`, or was returned and not freed; a write is inside of the block. -/
def Allowed (s : HeapState) (a : HeapAction) : Prop :=
  (∀ p ∈ a.pointer, (s.live p).isSome) ∧
    match a with
    | .store p i _ => i < s.heap.blockSize p
    | _ => True

instance (s : HeapState) (a : HeapAction) : Decidable (Allowed s a) :=
  have : Decidable (∀ p ∈ a.pointer, (s.live p).isSome) :=
    Option.decidableForallMem a.pointer
  match a with
  | .store p i v => inferInstanceAs (Decidable ((∀ q ∈ (HeapAction.store p i v).pointer, (s.live q).isSome) ∧ _ < _))
  | .malloc _ | .calloc .. | .realloc .. | .free _ => inferInstanceAs (Decidable (_ ∧ True))

def heapStep (s : HeapState) (a : HeapAction) : Option HeapState :=
  if Allowed s a then
    (a.run s.heap).map fun r =>
      { heap := r.1
        live := fun p =>
          if r.2 = some p then some a.request else if a.frees r.2 = some p then none else s.live p }
  else none

/-- The heap of a region of memory with `usable` bytes, and no allocation. -/
structure HeapInit (usable : BitVec 32) (s : HeapState) : Prop where
  heap : ∃ m beginAddr endAddr, rtSystemHeapInit m beginAddr endAddr = some s.heap
  size : s.heap.memSizeAligned = usable
  live : ∀ p, s.live p = none

def heaps (usable : BitVec 32) : System HeapState HeapAction where
  init := HeapInit usable
  step := heapStep

/-! ## The invariant -/

/-- What the heap looks like: the blocks reached from `heap_ptr` tile the region up to `heap_end`, the fields `prev`
point back, no two free blocks follow each other, `lfree` is the lowest free block, and the data of the users are in
used blocks, apart from each other. -/
structure WellFormed (s : HeapState) : Prop where
  first : ∃ b ∈ s.heap.blocks.head?, b.start = 0
  next : s.heap.blocks.IsChain fun a b => a.stop = b.start ∧ a.start.toNat + sizeofStructMem.toNat ≤ a.stop.toNat
  last : ∃ b ∈ s.heap.blocks.getLast?, b.start = s.heap.heapEnd
  prev : s.heap.blocks.IsChain fun a b => b.start ≠ s.heap.heapEnd → b.prev = a.start
  noHoles : NoHoles s.heap.blocks
  lfree : s.heap.lfree = lowest s.heap.heapEnd s.heap.blocks
  inside : ∀ p n, s.live p = some n → ∃ b ∈ s.heap.blocks, b.used = true ∧
    b.start.toNat + sizeofStructMem.toNat = p.toNat ∧ p.toNat + n ≤ b.stop.toNat
  apart : ∀ p q m n, s.live p = some m → s.live q = some n → p ≠ q →
    p.toNat + m ≤ q.toNat ∨ q.toNat + n ≤ p.toNat

/-- The other allocations stay, with their bytes. -/
def OthersKept (s : HeapState) (a : HeapAction) : Prop :=
  ∀ s', heapStep s a = some s' → ∀ p n, s.live p = some n → a.pointer ≠ some p →
    s'.live p = some n ∧ ∀ i, i < n → s'.heap.mem (p.toNat + i) = s.heap.mem (p.toNat + i)

/-- The size can be rounded up; every size that a heap has can. -/
def SizeOk (a : HeapAction) : Prop := a.request ≤ 2 ^ 32 - 4

instance (a : HeapAction) : Decidable (SizeOk a) := inferInstanceAs (Decidable (_ ≤ _))

/-! ## The sizes -/

/-- A non-zero request that is met with a pointer gets as many bytes. -/
def Sound (h : Heap) (a : HeapAction) : Prop :=
  ∀ h' p, a.run h = some (h', some p) → a.request ≠ 0 → a.request ≤ h'.blockSize p

/-- The search of `rt_malloc` for data of this size stops at the block. -/
def Fits (h : Heap) (size : BitVec 32) (b : Block) : Prop :=
  b.used = false ∧ size ≤ b.stop - (b.start + sizeofStructMem) ∧ b.start < h.memSizeAligned - size

instance (h : Heap) (size : BitVec 32) (b : Block) : Decidable (Fits h size b) := inferInstanceAs (Decidable (_ ∧ _))

/-- There is no block for the argument `size` of `rt_malloc`. -/
def NoneFits (h : Heap) (size : BitVec 32) : Prop :=
  size = 0 ∨ h.memSizeAligned < rtAlign size rtAlignSize ∨ ∀ b ∈ h.blocks, ¬ Fits h (dataSize size) b

instance (h : Heap) (size : BitVec 32) : Decidable (NoneFits h size) := inferInstanceAs (Decidable (_ ∨ _))

/-- The size, or the product of the sizes, can be rounded up to an alignment; or there is no block for what is
left of it. -/
def RequestOk (h : Heap) : HeapAction → Prop
  | .malloc size => size.toNat ≤ 2 ^ 32 - 4 ∨ NoneFits h size
  | .calloc count size => count.toNat * size.toNat ≤ 2 ^ 32 - 4 ∨ NoneFits h (count * size)
  | .realloc .. | .free _ | .store .. => True

/-- `rt_calloc` does not write more zeros than the block has bytes. -/
def ClearOk (h : Heap) : HeapAction → Prop
  | .calloc count size => (count * size).toNat ≤ 2 ^ 32 - 4 ∨ NoneFits h (count * size)
  | .malloc _ | .realloc .. | .free _ | .store .. => True

/-! ## The list of the blocks -/

section layout

variable {h : Heap} {l pre post : List Block} {b : Block} {size : BitVec 32}

theorem Layout.blocksFrom_eq (hl : Layout h (pre ++ b :: post)) {n : Nat} (hn : h.heapEnd.toNat < n + b.start.toNat) :
    h.blocksFrom n b.start = b :: post := by
  induction n generalizing pre b post with
  | zero =>
    have := (hl.shape.le_end (b := b) (by simp)).1
    omega
  | succ n ih =>
    have hb : b ∈ pre ++ b :: post := by simp
    have hused : decide ((h.block b.start).used ≠ 0) = b.used := by
      cases hu : b.used with
      | false => simpa using (hl.used_eq_zero hb).mpr hu
      | true => simpa using fun hzero => by simp [(hl.used_eq_zero hb).mp hzero] at hu
    have hfirst : Block.mk b.start (h.block b.start).next (h.block b.start).prev
        (decide ((h.block b.start).used ≠ 0)) = b := by
      rw [hused, hl.written b hb]
      rfl
    rw [Heap.blocksFrom, hfirst]
    cases post with
    | nil => rw [if_pos hl.shape.last_of_nil.1]
    | cons c post =>
      have hchain := hl.shape.chain
      simp only [List.isChain_append_cons_cons] at hchain
      have hlt := hl.shape.split.2 c (by simp)
      have hend : b.start ≠ h.heapEnd := fun heq => by
        have := (hl.shape.le_end (b := c) (by simp)).1
        rw [← heq] at this
        omega
      have hnext : (h.block b.start).next = c.start := by
        rw [hl.written b hb]
        exact hchain.2.1.next
      rw [if_neg hend, hnext, ih (show Layout h ((pre ++ [b]) ++ c :: post) by simpa using hl) (by omega)]

theorem Layout.blocks_eq (hl : Layout h l) : h.blocks = l := by
  obtain ⟨b, hb, hstart, -⟩ := hl.shape.first
  obtain ⟨post, rfl⟩ : ∃ post, l = b :: post := ⟨_, (List.cons_head?_tail hb).symm⟩
  have hblocks := Layout.blocksFrom_eq (show Layout h ([] ++ b :: post) from hl) (n := Heap.rounds) (by
    have := h.heapEnd.isLt
    unfold Heap.rounds
    omega)
  rwa [hstart] at hblocks

theorem init_spec {m : Memory} {beginAddr endAddr : BitVec 32} (hi : rtSystemHeapInit m beginAddr endAddr = some h) :
    HeapOk h [{ start := 0, stop := h.heapEnd, prev := 0, used := false },
      { start := h.heapEnd, stop := h.heapEnd, prev := h.heapEnd, used := true }] := by
  unfold rtSystemHeapInit at hi
  dsimp only at hi
  have hbegin : (rtAlign beginAddr rtAlignSize).toNat % 4 = 0 := by
    rw [rtAlign_toNat]
    omega
  have hend : (rtAlignDown endAddr rtAlignSize).toNat % 4 = 0 ∧
      (rtAlignDown endAddr rtAlignSize).toNat ≤ 2 ^ 32 - 4 := by
    have := endAddr.isLt
    rw [rtAlignDown_toNat]
    omega
  generalize rtAlign beginAddr rtAlignSize = beginAlign at *
  generalize rtAlignDown endAddr rtAlignSize = endAlign at *
  split_ifs at hi with hsize
  obtain ⟨hlarge, hle⟩ := hsize
  have hlarge := BitVec.lt_def.mp hlarge
  have hle := BitVec.le_def.mp hle
  have htwo : (2 * sizeofStructMem).toNat = 24 := by
    rw [sizeofStructMem_eq]
    rfl
  rw [htwo] at hlarge
  rw [BitVec.toNat_sub_of_le (BitVec.le_def.mpr (by omega)), htwo] at hle
  set size := endAlign - beginAlign - 2 * sizeofStructMem with size_def
  have hsize : size.toNat = endAlign.toNat - beginAlign.toNat - 24 := by
    rw [size_def]
    bv_omega
  set h₁ : Heap := { mem := m, lfree := 0, memSizeAligned := size } with h₁_def
  have hheapEnd : h₁.heapEnd = size + sizeofStructMem := rfl
  have hstart : (size + sizeofStructMem).toNat = size.toNat + 12 := by
    rw [sizeofStructMem_eq]
    bv_omega
  simp only [Heap.block_modify_self] at hi
  obtain rfl := Option.some.inj hi
  set e := size + sizeofStructMem
  have hfirst : ((h₁.modify 0 fun _ => { magic := heapMagic, used := 0, next := e, prev := 0 }).modify e
      fun _ => { magic := heapMagic, used := 1, next := e, prev := e }).block 0 =
      { magic := heapMagic, used := 0, next := e, prev := 0 } := by
    rw [Heap.block_modify_apart (.inr (by change 0 + 12 ≤ _; omega)), Heap.block_modify_self]
  refine ⟨⟨fun b hb => ?_, ⟨⟨_, rfl, rfl, rfl⟩, ?_, ⟨_, rfl, rfl, rfl, rfl⟩⟩, ?_, ?_⟩, ?_, rfl,
    fun x hx => ?_⟩
  · rcases List.mem_cons.mp hb with rfl | hb
    · exact hfirst
    · obtain rfl := List.mem_singleton.mp hb
      exact Heap.block_modify_self
  · refine List.isChain_pair.mpr ⟨rfl, fun hne => absurd rfl hne, ?_, ?_⟩
    · change 0 + 12 ≤ e.toNat
      omega
    · change e.toNat % 4 = 0
      omega
  · change size.toNat % 4 = 0
    omega
  · change size.toNat + 24 < 2 ^ 32
    omega
  · exact List.isChain_pair.mpr (.inr rfl)
  · rw [areas_free rfl, areas_cons, if_neg fun hand => hand.2 rfl] at hx
    exact absurd hx List.not_mem_nil

end layout

/-! ## One call -/

/-- What a call that returns `r` does to the areas of the users. -/
structure Effect (h : Heap) (l : List Block) (a : HeapAction) (h' : Heap) (r : Option (BitVec 32)) (l' : List Block) :
    Prop extends HeapOk h' l' where
  size : h'.memSizeAligned = h.memSizeAligned
  users : ∃ stop, ∀ x, x ∈ areas l' ↔ (r = some x.1 ∧ x.2 = stop) ∨ (x ∈ areas l ∧ a.frees r ≠ some x.1)
  fresh : ∀ x ∈ areas l, r = some x.1 → a.frees r = some x.1
  room : RequestOk h a → ∀ x ∈ areas l', r = some x.1 → x.1.toNat + a.request ≤ x.2.toNat
  keeps : ∀ x ∈ areas l, a.pointer ≠ some x.1 → ∀ i, x.1.toNat ≤ i → i < x.2.toNat → h'.mem i = h.mem i

section effect

variable {h h' : Heap} {l l' : List Block} {A B : List (BitVec 32 × BitVec 32)} {a : HeapAction} {n : Nat}
  {p stop size count newsize : BitVec 32} {rmem r : Option (BitVec 32)}

theorem HeapAction.frees_pointer (hf : a.frees r = some p) : a.pointer = some p := by
  cases a with
  | malloc size => simp [frees] at hf
  | calloc count size => simp [frees] at hf
  | realloc rmem newsize =>
    rw [frees] at hf
    split_ifs at hf
    exact hf
  | free rmem => exact hf
  | store p i v => simp [frees] at hf

theorem Heap.blockSize_eq (hl : Layout h l) (hp : (p, stop) ∈ areas l) : h.blockSize p = stop.toNat - p.toNat :=
  congrArg (fun q => q.toNat - p.toNat) (hl.area_block hp).1

theorem Effect.refl (hl : HeapOk h l) (hf : a.frees none = none) : Effect h l a h none l where
  toHeapOk := hl
  size := rfl
  users := ⟨0, fun x => ⟨fun hx => .inr ⟨hx, by simp [hf]⟩, fun hx => (hx.resolve_left (by simp)).1⟩⟩
  fresh _ _ hr := absurd hr (by simp)
  room _ _ _ hr := absurd hr (by simp)
  keeps _ _ _ _ _ _ := rfl

theorem Effect.freed (hl : HeapOk h l) (hl' : HeapOk h' l') (hsize : h'.memSizeAligned = h.memSizeAligned)
    (ha : areas l = A ++ (p, stop) :: B) (ha' : areas l' = A ++ B) (hkeeps : Keeps h h' (A ++ B))
    (hp : a.pointer = some p) (hf : a.frees none = some p) : Effect h l a h' none l' := by
  refine ⟨hl', hsize, ⟨0, fun x => ?_⟩, nofun, nofun, fun x hx hne => ?_⟩
  · rw [ha', hl.mem_rest ha, hf]
    refine ⟨fun hx => .inr ⟨hx.1, fun heq => hx.2 (Option.some.inj heq).symm⟩, fun hx => ?_⟩
    obtain ⟨hx, hne⟩ := hx.resolve_left fun hnone => nomatch hnone.1
    exact ⟨hx, fun heq => hne (congrArg some heq.symm)⟩
  · rw [hp] at hne
    exact hkeeps x ((hl.mem_rest ha).mpr ⟨hx, fun heq => hne (congrArg some heq.symm)⟩)

theorem Effect.returned (hl' : HeapOk h' l') (hsize : h'.memSizeAligned = h.memSizeAligned)
    (hmem : ∀ x, x ∈ areas l' ↔ x = (p, stop) ∨ (x ∈ areas l ∧ a.frees (some p) ≠ some x.1))
    (hfresh : ∀ x ∈ areas l, x.1 = p → a.frees (some p) = some x.1)
    (hroom : RequestOk h a → p.toNat + a.request ≤ stop.toNat)
    (hkeeps : ∀ x ∈ areas l, a.pointer ≠ some x.1 → ∀ i, x.1.toNat ≤ i → i < x.2.toNat → h'.mem i = h.mem i) :
    Effect h l a h' (some p) l' where
  toHeapOk := hl'
  size := hsize
  users := ⟨stop, fun x => by rw [hmem, Prod.ext_iff, Option.some.injEq, eq_comm (a := p)]⟩
  fresh x hx hr := hfresh x hx (Option.some.inj hr).symm
  room hok x hx hr := by
    rcases (hmem x).mp hx with rfl | ⟨hx, hne⟩
    · exact hroom hok
    · exact absurd (hfresh x hx (Option.some.inj hr).symm) hne
  keeps := hkeeps

theorem le_dataSize (hsize : size.toNat ≤ 2 ^ 32 - 4) : size.toNat ≤ (dataSize size).toNat := by
  rw [dataSize_toNat, rtAlign_toNat]
  omega

theorem malloc_returned (hl : HeapOk h l) (hr : h.rtMalloc size = some (h', r)) :
    (h' = h ∧ r = none) ∨
      ∃ l' p, r = some p ∧ Allocated h l h' l' p (dataSize size).toNat ∧ ¬ NoneFits h size := by
  rcases rtMalloc_cases hl size with ⟨hnone, -⟩ | ⟨hnull, -⟩ |
    ⟨k, l', p, hsome, hallocated, hzero, hle, b, hb, hfree, hfit, hlt⟩
  · simp [hnone] at hr
  · rw [hnull] at hr
    obtain ⟨rfl, rfl⟩ := Prod.mk.inj (Option.some.inj hr)
    exact .inl ⟨rfl, rfl⟩
  · rw [hsome] at hr
    obtain ⟨rfl, rfl⟩ := Prod.mk.inj (Option.some.inj hr)
    refine .inr ⟨l', p, rfl, hallocated, ?_⟩
    rintro (hsize | hlarge | hnone)
    · exact hzero hsize
    · exact absurd hle (BitVec.not_le.mpr hlarge)
    · refine hnone b (hl.blocks_eq ▸ hb) ⟨hfree, BitVec.le_def.mpr ?_, hlt⟩
      rw [data_size (hl.shape.room_of_free hb hfree)]
      omega

theorem Allocated.effect {m : Memory} (ha : Allocated h l h' l' p n) (hfrees : a.frees (some p) = none)
    (hroom : RequestOk h a → a.request ≤ n)
    (hm : ∀ stop, (p, stop) ∈ areas l' → p.toNat + n ≤ stop.toNat →
      ∀ i, i < p.toNat ∨ stop.toNat ≤ i → m i = h'.mem i) :
    Effect h l a { h' with mem := m } (some p) l' := by
  obtain ⟨stop, hlarge, hmem, hnew⟩ := ha.added
  have hp : (p, stop) ∈ areas l' := (hmem _).mpr (.inl rfl)
  have hwrite := hm stop hp hlarge
  refine .returned (ha.toHeapOk.write hp hwrite) ha.size (fun x => ?_) (fun x hx heq => absurd heq (hnew x hx))
    (fun hok => (Nat.add_le_add_left (hroom hok) _).trans hlarge) fun x hx _ i hle hlt => ?_
  · rw [hmem, hfrees]
    simp
  · have hx' := (hmem x).mpr (.inr hx)
    have hapart := (ha.areas_apart hx' hp).resolve_left fun heq => hnew x hx (congrArg Prod.fst heq)
    rw [← ha.keeps x hx' i hle hlt]
    exact hwrite i (by dsimp only at hapart; omega)

theorem malloc_effect (hl : HeapOk h l) (hr : h.rtMalloc size = some (h', r)) :
    ∃ l', Effect h l (.malloc size) h' r l' := by
  rcases malloc_returned hl hr with ⟨rfl, rfl⟩ | ⟨l', p, rfl, hallocated, hfits⟩
  · exact ⟨l, .refl hl rfl⟩
  · exact ⟨l', hallocated.effect (m := h'.mem) rfl (fun hok => le_dataSize (hok.resolve_right hfits))
      fun _ _ _ _ _ => rfl⟩

theorem calloc_effect (hl : HeapOk h l) (hclear : ClearOk h (.calloc count size))
    (hr : h.rtCalloc count size = some (h', r)) : ∃ l', Effect h l (.calloc count size) h' r l' := by
  obtain ⟨⟨k, q⟩, hmalloc, hfill⟩ := Option.map_eq_some_iff.mp hr
  rcases malloc_returned hl hmalloc with ⟨rfl, rfl⟩ | ⟨l', p, rfl, hallocated, hfits⟩
  · obtain ⟨rfl, rfl⟩ := Prod.mk.inj hfill
    exact ⟨l, .refl hl rfl⟩
  · obtain ⟨rfl, rfl⟩ := Prod.mk.inj hfill
    have hle := le_dataSize (hclear.resolve_right hfits)
    refine ⟨l', hallocated.effect rfl (fun hok => ?_) fun stop _ hlarge i hi => fill_outside (by omega)⟩
    have hsmall := hok.resolve_right hfits
    refine le_trans (Nat.le_of_eq ?_) hle
    rw [BitVec.toNat_mul]
    exact (Nat.mod_eq_of_lt (show count.toNat * size.toNat < 2 ^ 32 by omega)).symm

theorem le_rtAlign (hn : rtAlign newsize rtAlignSize ≠ 0) : newsize.toNat ≤ (rtAlign newsize rtAlignSize).toNat := by
  have hne : (rtAlign newsize rtAlignSize).toNat ≠ 0 := fun hzero => hn (BitVec.eq_of_toNat_eq hzero)
  rw [rtAlign_toNat] at hne ⊢
  omega

theorem realloc_null_effect (hl : HeapOk h l) (hr : h.rtRealloc none newsize = some (h', r)) :
    ∃ l', Effect h l (.realloc none newsize) h' r l' := by
  have hnone (q : Option (BitVec 32)) : (HeapAction.realloc none newsize).frees q = none := ite_self none
  unfold Heap.rtRealloc at hr
  dsimp only [Heap.rtFree] at hr
  split_ifs at hr with hlarge hzero
  · obtain ⟨rfl, rfl⟩ := Prod.mk.inj (Option.some.inj hr)
    exact ⟨l, .refl hl (hnone _)⟩
  · obtain ⟨rfl, rfl⟩ := Prod.mk.inj (Option.some.inj hr)
    exact ⟨l, .refl hl (hnone _)⟩
  · rcases malloc_returned hl hr with ⟨rfl, rfl⟩ | ⟨l', p, rfl, hallocated, -⟩
    · exact ⟨l, .refl hl (hnone _)⟩
    · refine ⟨l', hallocated.effect (m := h'.mem) (hnone _) (fun _ => ?_) fun _ _ _ _ _ => rfl⟩
      have hdata : (rtAlign newsize rtAlignSize).toNat ≤ (dataSize (rtAlign newsize rtAlignSize)).toNat :=
        le_dataSize (by rw [rtAlign_toNat]; omega)
      exact (le_rtAlign hzero).trans hdata

theorem realloc_effect (hl : HeapOk h l) (hp : (p, stop) ∈ areas l)
    (hr : h.rtRealloc (some p) newsize = some (h', r)) : ∃ l', Effect h l (.realloc (some p) newsize) h' r l' := by
  obtain ⟨A, B, ha⟩ := List.append_of_mem hp
  have hfrees (q : BitVec 32) : (HeapAction.realloc (some p) newsize).frees (some q) = some p := by
    rw [HeapAction.frees, if_neg fun hand => nomatch hand.1]
  have hkeep (k : Heap) (hkeeps : Keeps h k (A ++ B)) : ∀ x ∈ areas l, some p ≠ some x.1 →
      ∀ i, x.1.toNat ≤ i → i < x.2.toNat → k.mem i = h.mem i := fun x hx hne =>
    hkeeps x ((hl.mem_rest ha).mpr ⟨hx, fun heq => hne (congrArg some heq.symm)⟩)
  have hmem (x : BitVec 32 × BitVec 32) : x ∈ A ++ B ↔ x ∈ areas l ∧ some p ≠ some x.1 := by
    rw [hl.mem_rest ha, ne_eq, ne_eq, Option.some.injEq, eq_comm]
  have hcases := rtRealloc_cases hl ha newsize
  rw [hr] at hcases
  cases hcases with
  | null hn => exact ⟨l, .refl hl (if_pos ⟨rfl, hn⟩)⟩
  | freed hn hl' hsame ha' hkeeps =>
    exact ⟨_, .freed hl hl' hsame ha ha' hkeeps rfl (if_neg fun hand => hand.2 hn)⟩
  | inPlace hn hl' hsame ha' hroom hstop hkeeps =>
    refine ⟨_, .returned hl' hsame (fun x => ?_) (fun x _ heq => (hfrees p).trans (congrArg some heq.symm))
      (fun _ => (Nat.add_le_add_left (le_rtAlign hn) _).trans hroom) (hkeep _ (hkeeps.mono fun x hx => ?_))⟩
    · rw [hfrees, ← hmem, ha', List.mem_append, List.mem_cons, List.mem_append]
      exact or_left_comm
    · rw [ha', List.mem_append, List.mem_cons]
      exact (List.mem_append.mp hx).imp_right .inr
  | moved hn hl' hsame ha' hnew hroom hkeeps hdata =>
    refine ⟨_, .returned hl' hsame (fun x => ?_) (fun x hx heq => absurd heq (hnew x hx))
      (fun _ => (Nat.add_le_add_left (le_rtAlign hn) _).trans hroom) (hkeep _ hkeeps)⟩
    rw [hfrees, ← hmem, ha']

theorem free_effect (hl : HeapOk h l) (hp : ∀ p ∈ rmem, ∃ stop, (p, stop) ∈ areas l)
    (hr : h.rtFree rmem = some h') : ∃ l', Effect h l (.free rmem) h' none l' := by
  cases rmem with
  | none =>
    obtain rfl := Option.some.inj hr
    exact ⟨l, .refl hl rfl⟩
  | some p =>
    obtain ⟨stop, hmem⟩ := hp p rfl
    obtain ⟨A, B, ha⟩ := List.append_of_mem hmem
    obtain ⟨k, l', hfree, hl', hsame, ha', hkeeps⟩ := free_spec hl ha
    obtain rfl := Option.some.inj (hr.symm.trans hfree)
    exact ⟨l', .freed hl hl' hsame ha ha' hkeeps rfl rfl⟩

theorem store_effect (hl : HeapOk h l) (hp : (p, stop) ∈ areas l) (hn : n < h.blockSize p) (v : UInt8) :
    Effect h l (.store p n v) { h with mem := Function.update h.mem (p.toNat + n) v } none l := by
  rw [Heap.blockSize_eq hl.toLayout hp] at hn
  refine ⟨hl.write hp fun i hi => Function.update_of_ne (by dsimp only at hi; omega) .., rfl,
    ⟨0, fun x => ⟨fun hx => .inr ⟨hx, nofun⟩, fun hx => (hx.resolve_left fun hnone => nomatch hnone.1).1⟩⟩, nofun,
    nofun, fun x hx hne i hle hlt => ?_⟩
  have hapart := (hl.areas_apart hx hp).resolve_left fun heq => hne (by rw [heq]; rfl)
  exact Function.update_of_ne (by dsimp only at hapart; omega) ..

end effect

/-! ## The invariant -/

/-- The areas of the blocks are those of the pointers that were returned and not freed. -/
structure HeapInv (usable : BitVec 32) (s : HeapState) (l : List Block) : Prop where
  ok : HeapOk s.heap l
  size : s.heap.memSizeAligned = usable
  live : ∀ p, (s.live p).isSome ↔ ∃ stop, (p, stop) ∈ areas l

/-- Every area has as many bytes as were requested. -/
def Enough (s : HeapState) (l : List Block) : Prop :=
  ∀ p n stop, s.live p = some n → (p, stop) ∈ areas l → p.toNat + n ≤ stop.toNat

section invariant

variable {usable : BitVec 32} {s s' : HeapState} {l l' : List Block} {a : HeapAction} {h : Heap}
  {r : Option (BitVec 32)} {past : History HeapState HeapAction}

theorem heapStep_cases (hs : heapStep s a = some s') : Allowed s a ∧ ∃ h r, a.run s.heap = some (h, r) ∧
    s' = { heap := h
           live := fun p => if r = some p then some a.request else if a.frees r = some p then none else s.live p } := by
  unfold heapStep at hs
  split_ifs at hs with hallowed
  obtain ⟨⟨h, r⟩, hrun, rfl⟩ := Option.map_eq_some_iff.mp hs
  exact ⟨hallowed, h, r, hrun, rfl⟩

theorem HeapInv.effect (hi : HeapInv usable s l) (hallowed : Allowed s a) (hclear : ClearOk s.heap a)
    (hr : a.run s.heap = some (h, r)) : ∃ l', Effect s.heap l a h r l' := by
  obtain ⟨hpointer, hstore⟩ := hallowed
  have hp : ∀ p ∈ a.pointer, ∃ stop, (p, stop) ∈ areas l := fun p hp => (hi.live p).mp (hpointer p hp)
  cases a with
  | malloc size => exact malloc_effect hi.ok hr
  | calloc count size => exact calloc_effect hi.ok hclear hr
  | realloc rmem newsize =>
    cases rmem with
    | none => exact realloc_null_effect hi.ok hr
    | some p =>
      obtain ⟨stop, hmem⟩ := hp p rfl
      exact realloc_effect hi.ok hmem hr
  | free rmem =>
    obtain ⟨k, hfree, hsame⟩ := Option.map_eq_some_iff.mp hr
    obtain ⟨rfl, rfl⟩ := Prod.mk.inj hsame
    exact free_effect hi.ok hp hfree
  | store p i v =>
    obtain ⟨rfl, rfl⟩ := Prod.mk.inj (Option.some.inj hr)
    obtain ⟨stop, hmem⟩ := hp p rfl
    exact ⟨l, store_effect hi.ok hmem hstore v⟩

theorem HeapInv.step (hi : HeapInv usable s l) (hclear : ClearOk s.heap a) (hs : heapStep s a = some s') :
    ∃ l', HeapInv usable s' l' ∧ (RequestOk s.heap a → Enough s l → Enough s' l') := by
  obtain ⟨hallowed, h, r, hr, rfl⟩ := heapStep_cases hs
  obtain ⟨l', he⟩ := hi.effect hallowed hclear hr
  obtain ⟨top, husers⟩ := he.users
  refine ⟨l', ⟨he.toHeapOk, he.size.trans hi.size, fun p => ?_⟩, fun hok henough p n stop hlive hmem => ?_⟩
  · dsimp only
    split_ifs with hnew hfreed
    · exact iff_of_true rfl ⟨top, (husers _).mpr (.inl ⟨hnew, rfl⟩)⟩
    · refine iff_of_false (by simp) ?_
      rintro ⟨stop, hmem⟩
      exact ((husers _).mp hmem).elim (fun hand => hnew hand.1) fun hand => hand.2 hfreed
    · rw [hi.live]
      exact exists_congr fun stop => ⟨fun hmem => (husers _).mpr (.inr ⟨hmem, hfreed⟩),
        fun hmem => (((husers _).mp hmem).resolve_left fun hand => hnew hand.1).1⟩
  · dsimp only at hlive
    split_ifs at hlive with hnew hfreed
    · obtain rfl := Option.some.inj hlive
      exact he.room hok _ hmem hnew
    · exact henough p n stop hlive (((husers _).mp hmem).resolve_left fun hand => hnew hand.1).1

theorem HeapInv.init (hi : HeapInit usable s) : ∃ l, HeapInv usable s l ∧ Enough s l := by
  obtain ⟨⟨m, beginAddr, endAddr, hinit⟩, hsize, hlive⟩ := hi
  have hok := init_spec hinit
  refine ⟨_, ⟨hok, hsize, fun p => ?_⟩, fun p n stop hsome => by simp [hlive] at hsome⟩
  rw [hlive, areas_free rfl, areas_cons, if_neg fun hand => hand.2 rfl]
  simp

theorem SizeOk.request (hsize : SizeOk a) (h : Heap) : RequestOk h a := by
  cases a with
  | malloc size => exact .inl hsize
  | calloc count size => exact .inl hsize
  | realloc rmem newsize => trivial
  | free rmem => trivial
  | store p i v => trivial

theorem RequestOk.clear {h : Heap} (hok : RequestOk h a) : ClearOk h a := by
  cases a with
  | calloc count size =>
    refine hok.imp_left fun hle => ?_
    rw [BitVec.toNat_mul]
    exact (Nat.mod_le ..).trans hle
  | malloc size => trivial
  | realloc rmem newsize => trivial
  | free rmem => trivial
  | store p i v => trivial

theorem heapInv_run (hrun : (heaps usable).Run past s) (hclear : Throughout (fun _ s a => ClearOk s.heap a) past) :
    ∃ l, HeapInv usable s l := by
  refine System.Run.invariant (I := fun _ s => ∃ l, HeapInv usable s l) (fun s hi => ?_) ?_ hrun hclear
  · obtain ⟨l, hinv, -⟩ := HeapInv.init hi
    exact ⟨l, hinv⟩
  · rintro _ s a s' - ⟨l, hi⟩ hg hs
    obtain ⟨l', hi', -⟩ := hi.step hg hs
    exact ⟨l', hi'⟩

theorem heapEnough_run (hrun : (heaps usable).Run past s) (hok : Throughout (fun _ s a => RequestOk s.heap a) past) :
    ∃ l, HeapInv usable s l ∧ Enough s l := by
  refine System.Run.invariant (I := fun _ s => ∃ l, HeapInv usable s l ∧ Enough s l) (fun s hi => HeapInv.init hi) ?_
    hrun hok
  rintro _ s a s' - ⟨l, hi, henough⟩ hg hs
  obtain ⟨l', hi', hkeep⟩ := hi.step hg.clear hs
  exact ⟨l', hi', hkeep hg henough⟩

theorem HeapInv.wellFormed (hi : HeapInv usable s l) (henough : Enough s l) : WellFormed s := by
  have hl := hi.ok
  have hblocks := hl.blocks_eq
  have harea {p : BitVec 32} {n : Nat} (hn : s.live p = some n) : ∃ stop, (p, stop) ∈ areas l :=
    (hi.live p).mp (by simp [hn])
  refine ⟨?_, ?_, ?_, ?_, ?_, ?_, fun p n hn => ?_, fun p q m n hm hn hne => ?_⟩
  · obtain ⟨b, hb, hstart, -⟩ := hl.shape.first
    exact ⟨b, hblocks ▸ hb, hstart⟩
  · rw [hblocks]
    refine hl.shape.chain.imp fun a b hab => ⟨hab.next, ?_⟩
    rw [sizeofStructMem_eq]
    exact hab.room
  · obtain ⟨b, hb, hstart, -⟩ := hl.shape.last
    exact ⟨b, hblocks ▸ hb, hstart⟩
  · rw [hblocks]
    exact hl.shape.chain.imp fun a b hab => hab.prev
  · rw [hblocks]
    exact hl.noHoles
  · rw [hblocks]
    exact hl.lfree
  · obtain ⟨stop, hmem⟩ := harea hn
    have hroom := henough p n stop hn hmem
    obtain ⟨b, hb, hused, -, hx⟩ := mem_areas.mp hmem
    obtain ⟨rfl, rfl⟩ := Prod.mk.inj hx
    refine ⟨b, hblocks ▸ hb, hused, ?_, hroom⟩
    rw [hl.data_start hb, sizeofStructMem_eq]
    rfl
  · obtain ⟨stop, hp⟩ := harea hm
    obtain ⟨stop', hq⟩ := harea hn
    have := henough p m stop hm hp
    have := henough q n stop' hn hq
    rcases hl.areas_apart hp hq with heq | hlt | hlt
    · exact absurd (congrArg Prod.fst heq) hne
    · exact .inl (by dsimp only at hlt; omega)
    · exact .inr (by dsimp only at hlt; omega)

theorem HeapInv.othersKept (hi : HeapInv usable s l) (henough : Enough s l) (hsize : SizeOk a) : OthersKept s a := by
  intro s' hs p n hn hne
  obtain ⟨hallowed, h, r, hr, rfl⟩ := heapStep_cases hs
  obtain ⟨l', he⟩ := hi.effect hallowed (hsize.request _).clear hr
  obtain ⟨stop, hmem⟩ := (hi.live p).mp (by simp [hn])
  have hroom := henough p n stop hn hmem
  have hfrees : a.frees r ≠ some p := fun hf => hne (HeapAction.frees_pointer hf)
  refine ⟨?_, fun i hlt => he.keeps _ hmem hne _ (Nat.le_add_right ..) (by dsimp only; omega)⟩
  dsimp only
  rw [if_neg fun heq => hfrees (he.fresh _ hmem heq), if_neg hfrees, hn]

theorem HeapInv.returns (hi : HeapInv usable s l) (hmin : minSizeAligned ≤ usable) (hallowed : Allowed s a) :
    ∃ s', heapStep s a = some s' := by
  have hmin : 12 ≤ s.heap.memSizeAligned.toNat := by
    rw [hi.size]
    exact BitVec.le_def.mp (minSizeAligned_eq ▸ hmin)
  have hp : ∀ p ∈ a.pointer, ∃ stop, (p, stop) ∈ areas l := fun p hp => (hi.live p).mp (hallowed.1 p hp)
  obtain ⟨r, hr⟩ : ∃ r, a.run s.heap = some r := by
    cases a with
    | malloc size => exact rtMalloc_returns hi.ok hmin size
    | calloc count size =>
      obtain ⟨r, hr⟩ := rtMalloc_returns hi.ok hmin (count * size)
      exact ⟨_, congrArg (Option.map _) hr⟩
    | realloc rmem newsize =>
      change ∃ r, s.heap.rtRealloc rmem newsize = some r
      cases rmem with
      | none =>
        unfold Heap.rtRealloc
        dsimp only [Heap.rtFree]
        split_ifs
        · exact ⟨_, rfl⟩
        · exact ⟨_, rfl⟩
        · exact rtMalloc_returns hi.ok hmin _
      | some p =>
        obtain ⟨stop, hmem⟩ := hp p rfl
        obtain ⟨A, B, ha⟩ := List.append_of_mem hmem
        have hcases := rtRealloc_cases hi.ok ha newsize
        cases hr : s.heap.rtRealloc (some p) newsize with
        | some r => exact ⟨r, rfl⟩
        | none =>
          rw [hr] at hcases
          cases hcases with
          | stuck hmalloc =>
            obtain ⟨r, hsome⟩ := rtMalloc_returns hi.ok hmin (rtAlign newsize rtAlignSize)
            simp [hmalloc] at hsome
    | free rmem =>
      cases rmem with
      | none => exact ⟨_, rfl⟩
      | some p =>
        obtain ⟨stop, hmem⟩ := hp p rfl
        obtain ⟨A, B, ha⟩ := List.append_of_mem hmem
        obtain ⟨h', l', hfree, -⟩ := free_spec hi.ok ha
        exact ⟨_, congrArg (Option.map _) hfree⟩
    | store p i v => exact ⟨_, rfl⟩
  exact ⟨_, (if_pos hallowed).trans (congrArg (Option.map _) hr)⟩

/-- If the size of every request can be rounded up, the heap is well-formed in every state, no operation changes the
bytes of another allocation, and every call returns. -/
theorem heap_invariant (hrun : (heaps usable).Run past s) (hmin : minSizeAligned ≤ usable)
    (hsizes : Throughout (fun _ _ a => SizeOk a) past) :
    WellFormed s ∧ ∀ a, SizeOk a → OthersKept s a ∧ (Allowed s a → ∃ s', heapStep s a = some s') := by
  obtain ⟨l, hi, henough⟩ := heapEnough_run hrun (hsizes.mono fun _ s a hsize => hsize.request s.heap)
  exact ⟨hi.wellFormed henough, fun a hsize => ⟨hi.othersKept henough hsize, hi.returns hmin⟩⟩

/-- A heap of 256 bytes. -/
def heapStart : HeapState where
  heap := (rtSystemHeapInit (fun _ => 0) 0x1000 0x1100).get (by decide +kernel)
  live _ := none

theorem heapInit_start : HeapInit 232 heapStart where
  heap := ⟨fun _ => 0, 0x1000, 0x1100, (Option.some_get (by decide +kernel)).symm⟩
  size := by decide +kernel
  live _ := rfl

/-- Two blocks are allocated, the first one is written and moves. -/
theorem heap_invariant_run :
    ∃ past s, (heaps 232).Run past s ∧ s.live 12 = none ∧ s.live 68 = some 60 ∧ WellFormed s ∧
      OthersKept s (.free (some 44)) ∧ ∃ s', heapStep s (.free (some 44)) = some s' := by
  obtain ⟨past, s, hrun, hfirst, hmoved, hsizes, hallowed⟩ := System.exists_run (S := heaps 232) heapInit_start
    [.malloc 20, .calloc 2 5, .store 12 3 7, .realloc (some 12) 60]
    (fun past s => s.live 12 = none ∧ s.live 68 = some 60 ∧ Throughout (fun _ _ a => SizeOk a) past ∧
      Allowed s (.free (some 44))) (by decide +kernel)
  obtain ⟨hwell, hnext⟩ := heap_invariant hrun (by decide) hsizes
  obtain ⟨hkept, hreturns⟩ := hnext (.free (some 44)) (by decide)
  exact ⟨past, s, hrun, hfirst, hmoved, hwell, hkept, hreturns hallowed⟩

/-! ## The sizes of the blocks -/

/-- A block that is found has less than 2^32 - 12 bytes, and its structure is in front of them. -/
theorem malloc_found {size : BitVec 32} (hl : HeapOk h l) (hfits : ¬ NoneFits h size) :
    ∃ h' p, h.rtMalloc size = some (h', some p) ∧ h'.blockSize p < 2 ^ 32 - 12 ∧
      (p - sizeofStructMem).toNat + 12 = p.toNat := by
  obtain ⟨hzero, hle, b, hb, hfree, hfit, hlt⟩ : size ≠ 0 ∧ ¬ h.memSizeAligned < rtAlign size rtAlignSize ∧
      ∃ b ∈ l, Fits h (dataSize size) b := by
    unfold NoneFits at hfits
    rw [hl.blocks_eq] at hfits
    push Not at hfits
    exact hfits
  have hfit := BitVec.le_def.mp hfit
  have hroom := hl.shape.room_of_free hb hfree
  rw [data_size hroom, dataSize_toNat] at hfit
  obtain ⟨h', p, hsome⟩ := rtMalloc_finds hl hzero (BitVec.not_lt.mp hle) hb hfree (by rw [dataSize_toNat]; omega) hlt
  refine ⟨h', p, hsome, ?_⟩
  rcases malloc_returned hl hsome with ⟨-, hnull⟩ | ⟨l', q, hq, hallocated, -⟩
  · simp at hnull
  · obtain rfl := Option.some.inj hq
    obtain ⟨stop, -, hmem, -⟩ := hallocated.added
    have hp : (p, stop) ∈ areas l' := (hmem _).mpr (.inl rfl)
    obtain ⟨c, hc, -, -, hx⟩ := mem_areas.mp hp
    obtain ⟨rfl, rfl⟩ := Prod.mk.inj hx
    have hstop := (hallocated.shape.le_end hc).2
    have hend := hallocated.heapEnd_toNat
    have hbound := hallocated.bound
    rw [Heap.blockSize_eq hallocated.toLayout hp, hallocated.data_start hc]
    refine ⟨by omega, ?_⟩
    rw [show c.start + sizeofStructMem - sizeofStructMem = c.start from BitVec.add_sub_cancel ..]

/-- In a heap that is well-formed, a call is sound exactly if the size can be rounded up, or is refused. -/
theorem HeapInv.sound_iff (hi : HeapInv usable s l) (hallowed : Allowed s a) : Sound s.heap a ↔ RequestOk s.heap a := by
  constructor
  · intro hsound
    cases a with
    | malloc size =>
      refine or_iff_not_imp_right.mpr fun hfits => ?_
      obtain ⟨h', p, hsome, hsmall, -⟩ := malloc_found hi.ok hfits
      have hzero : size.toNat ≠ 0 := fun hzero => hfits (.inl (BitVec.eq_of_toNat_eq hzero))
      have hlarge : size.toNat ≤ h'.blockSize p := hsound h' p hsome hzero
      omega
    | calloc count size =>
      refine or_iff_not_imp_right.mpr fun hfits => ?_
      obtain ⟨h', p, hsome, hsmall, hstart⟩ := malloc_found hi.ok hfits
      have hzero : count.toNat * size.toNat ≠ 0 := fun hzero => hfits (.inl (BitVec.eq_of_toNat_eq (by
        rw [BitVec.toNat_mul, hzero]
        rfl)))
      have hlarge := hsound _ p (congrArg (Option.map _) hsome) hzero
      -- the zeros are written behind the structure
      have hsame : ({ h' with mem := fill h'.mem p.toNat (count * size).toNat 0 } : Heap).blockSize p =
          h'.blockSize p :=
        congrArg (fun x : HeapMem => x.next.toNat - p.toNat)
          (heapMem_congr fun x _ hlt => fill_outside (.inl (by omega)))
      change count.toNat * size.toNat ≤ _ at hlarge
      omega
    | realloc rmem newsize => trivial
    | free rmem => trivial
    | store p i v => trivial
  · intro hok h' p hr hzero
    obtain ⟨l', he⟩ := hi.effect hallowed hok.clear hr
    obtain ⟨top, husers⟩ := he.users
    have hp : (p, top) ∈ areas l' := (husers _).mpr (.inl ⟨rfl, rfl⟩)
    have := he.room hok _ hp rfl
    rw [Heap.blockSize_eq he.toLayout hp]
    dsimp only at this
    omega

/-- All calls are sound exactly if the size of each request, or the product of its sizes, can be rounded up, or the
request is refused; so it is for the next call, in every state that is reached before `rt_calloc` writes beyond its
block. -/
theorem size_sound (hrun : (heaps usable).Run past s) :
    (Throughout (fun _ s a => Sound s.heap a) past ↔ Throughout (fun _ s a => RequestOk s.heap a) past) ∧
      (Throughout (fun _ s a => ClearOk s.heap a) past → ∀ a, Allowed s a → (Sound s.heap a ↔ RequestOk s.heap a)) := by
  refine ⟨?_, fun hclear a hallowed => ?_⟩
  · induction hrun with
    | init => exact Iff.rfl
    | step hr hs ih =>
      rw [throughout_cons, throughout_cons, ih]
      refine and_congr_left fun hpast => ?_
      obtain ⟨l, hi⟩ := heapInv_run hr (hpast.mono fun _ _ _ hok => hok.clear)
      exact hi.sound_iff (heapStep_cases hs).1
  · obtain ⟨l, hi⟩ := heapInv_run hrun hclear
    exact hi.sound_iff hallowed

/-- Requests of all kinds are met with enough bytes; one of 2^32 - 1 bytes would not be. -/
theorem size_sound_run :
    ∃ past s, (heaps 232).Run past s ∧ past.length = 3 ∧ Throughout (fun _ s a => Sound s.heap a) past ∧
      ¬ Sound s.heap (.malloc 0xffffffff) := by
  obtain ⟨past, s, hrun, hlength, hsizes, hallowed, hfits⟩ := System.exists_run (S := heaps 232) heapInit_start
    [.malloc 20, .calloc 2 5, .realloc (some 12) 60]
    (fun past s => past.length = 3 ∧ Throughout (fun _ _ a => SizeOk a) past ∧ Allowed s (.malloc 0xffffffff) ∧
      ¬ NoneFits s.heap 0xffffffff) (by decide +kernel)
  have hok : Throughout (fun _ s a => RequestOk s.heap a) past :=
    hsizes.mono fun _ s a hsize => hsize.request s.heap
  obtain ⟨hiff, hnext⟩ := size_sound hrun
  refine ⟨past, s, hrun, hlength, hiff.mpr hok, fun hsound => ?_⟩
  rcases (hnext (hok.mono fun _ _ _ hreq => hreq.clear) _ hallowed).mp hsound with hle | hnone
  · exact absurd hle (by decide)
  · exact hfits hnone

/-- A request of 2^32 - 1 bytes is rounded to 0, and met with twelve. -/
theorem huge_request_gets_twelve_bytes :
    (heaps 232).Run [] heapStart ∧
      (∃ h, heapStart.heap.rtMalloc 0xffffffff = some (h, some 12) ∧ h.blockSize 12 = 12) ∧
      ¬ Sound heapStart.heap (.malloc 0xffffffff) := by
  obtain ⟨h, hmalloc, hsize⟩ : ∃ h, heapStart.heap.rtMalloc 0xffffffff = some (h, some 12) ∧ h.blockSize 12 = 12 := by
    have hany : ((heapStart.heap.rtMalloc 0xffffffff).any fun r =>
        decide (r.2 = some 12 ∧ r.1.blockSize 12 = 12)) = true := by decide +kernel
    obtain ⟨⟨h, p⟩, hmalloc, hr⟩ := (Option.any_eq_true _ _).mp hany
    obtain ⟨rfl, hsize⟩ := of_decide_eq_true hr
    exact ⟨h, hmalloc, hsize⟩
  refine ⟨.init heapInit_start, ⟨h, hmalloc, hsize⟩, fun hsound => ?_⟩
  have hlarge := hsound h 12 hmalloc (by decide)
  rw [hsize] at hlarge
  exact absurd hlarge (by decide)

end invariant

end ThyristorController.Heaps
