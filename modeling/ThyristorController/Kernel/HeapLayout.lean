import ThyristorController.Kernel.Heap

/-!
# The blocks of a heap

`Layout` relates a heap to the list of its blocks, from `heap_ptr` to `heap_end`: their structures are in memory, each
block ends where the next one starts, and `prev` points back, but for that of `heap_end`, which nothing reads. For each
function of `mem.c` a lemma says what it does to the list, to `lfree`, and to the bytes of the users. While
`plug_holes` has not run, two free blocks may follow each other; `NoHoles` says that none do.
-/

namespace ThyristorController.Heaps

open Bytes

/-- A block: where its structure is, the fields `next` and `prev`, and whether it is used. -/
structure Block where
  start : BitVec 32
  stop : BitVec 32
  prev : BitVec 32
  used : Bool
deriving DecidableEq

/-- The structure of the block. -/
def Block.heapMem (b : Block) : HeapMem where
  magic := heapMagic
  used := if b.used then 1 else 0
  next := b.stop
  prev := b.prev

/-- The blocks reached by following `next` from `p` on, until `heap_end`. -/
def Heap.blocksFrom (h : Heap) : Nat → BitVec 32 → List Block
  | 0, _ => []
  | n + 1, p =>
    let x := h.block p
    { start := p, stop := x.next, prev := x.prev, used := decide (x.used ≠ 0) } ::
      if p = h.heapEnd then [] else h.blocksFrom n x.next

/-- The blocks reached by following `next` from `heap_ptr` on. -/
def Heap.blocks (h : Heap) : List Block := h.blocksFrom rounds 0

/-! ## Lists of blocks -/

/-- A block and the one behind it; `e` is `heap_end`. -/
structure Link (e : BitVec 32) (a b : Block) : Prop where
  next : a.stop = b.start
  prev : b.start ≠ e → b.prev = a.start
  room : a.start.toNat + 12 ≤ a.stop.toNat
  aligned : b.start.toNat % 4 = 0

/-- The blocks from `heap_ptr` to `heap_end`. -/
structure Shape (e : BitVec 32) (l : List Block) : Prop where
  first : ∃ b ∈ l.head?, b.start = 0 ∧ b.prev = 0
  chain : l.IsChain (Link e)
  last : ∃ b ∈ l.getLast?, b.start = e ∧ b.stop = e ∧ b.used = true

/-- No two free blocks follow each other. -/
def NoHoles (l : List Block) : Prop := l.IsChain fun a b => a.used = true ∨ b.used = true

/-- The start of the first free block; `e` if there is none. -/
def lowest (e : BitVec 32) : List Block → BitVec 32
  | [] => e
  | b :: l => if b.used = true then lowest e l else b.start

/-- The data of the used blocks but `heap_end`: from where, until where. -/
def areas (l : List Block) : List (BitVec 32 × BitVec 32) :=
  (l.filter fun b => b.used = true ∧ b.start ≠ b.stop).map fun b => (b.start + sizeofStructMem, b.stop)

section lists

variable {e p : BitVec 32} {a b c d : Block} {l pre post : List Block} {R : Block → Block → Prop}

theorem chain_last (h : (pre ++ [a]).IsChain R) (hR : ∀ x, R x a → R x b) : (pre ++ [b]).IsChain R := by
  rw [List.isChain_append] at h ⊢
  refine ⟨h.1, .singleton b, fun x hx y hy => ?_⟩
  obtain rfl : b = y := by simpa using hy
  exact hR x (h.2.2 x hx a (by simp))

theorem chain_head (h : (a :: post).IsChain R) (hR : ∀ x, R a x → R b x) : (b :: post).IsChain R := by
  cases post with
  | nil => exact .singleton b
  | cons c post =>
    rw [List.isChain_cons_cons] at h ⊢
    exact ⟨hR c h.1, h.2⟩

/-- What holds of the first block of a list still does when a block is replaced. -/
theorem head_replace {P : Block → Prop} {l' : List Block} (h : ∃ c ∈ (pre ++ a :: l).head?, P c) (hP : P a → P b) :
    ∃ c ∈ (pre ++ b :: l').head?, P c := by
  obtain ⟨c, hc, hfirst⟩ := h
  cases pre with
  | nil =>
    obtain rfl : a = c := by simpa using hc
    exact ⟨b, rfl, hP hfirst⟩
  | cons x pre => exact ⟨c, by simpa using hc, hfirst⟩

/-- The same for the last block, which is behind the replaced one or is the replaced one itself. -/
theorem last_replace {P : Block → Prop} {l' : List Block} (post : List Block) (hl : a :: post <:+ l)
    (hl' : b :: post <:+ l') (h : ∃ c ∈ l.getLast?, P c) (hP : P a → P b) : ∃ c ∈ l'.getLast?, P c := by
  obtain ⟨pre, rfl⟩ := hl
  obtain ⟨pre', rfl⟩ := hl'
  obtain ⟨c, hc, hlast⟩ := h
  cases post with
  | nil =>
    obtain rfl : a = c := by simpa using hc
    exact ⟨b, by simp, hP hlast⟩
  | cons x post => exact ⟨c, by simpa using hc, hlast⟩

@[simp] theorem lowest_nil : lowest e [] = e := rfl

theorem lowest_append : lowest e (pre ++ post) = lowest (lowest e post) pre := by
  induction pre with
  | nil => rfl
  | cons b pre ih =>
    rw [List.cons_append, lowest, lowest, ih]

/-- A free block of the list is the lowest one, or what is behind the list decides. -/
theorem lowest_cases (l : List Block) :
    (∀ e, lowest e l = e) ∧ (∀ b ∈ l, b.used = true) ∨
      ∃ b ∈ l, b.used = false ∧ ∀ e, lowest e l = b.start := by
  induction l with
  | nil => exact .inl ⟨fun _ => rfl, nofun⟩
  | cons b l ih =>
    by_cases hb : b.used = true
    · simp only [lowest, if_pos hb]
      rcases ih with ⟨hsame, hall⟩ | ⟨c, hc, hfree, hlow⟩
      · exact .inl ⟨hsame, List.forall_mem_cons.mpr ⟨hb, hall⟩⟩
      · exact .inr ⟨c, List.mem_cons_of_mem _ hc, hfree, hlow⟩
    · exact .inr ⟨b, List.mem_cons_self .., by simpa using hb, fun e => if_neg hb⟩

@[simp] theorem areas_nil : areas [] = [] := rfl

@[simp] theorem areas_append : areas (pre ++ post) = areas pre ++ areas post := by
  simp [areas]

theorem areas_cons : areas (b :: l) =
    if b.used = true ∧ b.start ≠ b.stop then (b.start + sizeofStructMem, b.stop) :: areas l else areas l := by
  by_cases hb : b.used = true ∧ b.start ≠ b.stop
  · simp [areas, hb]
  · rw [if_neg hb, areas, List.filter_cons_of_neg (by simpa using hb)]
    rfl

theorem areas_free (hb : b.used = false) : areas (b :: l) = areas l := by
  rw [areas_cons, if_neg (by simp [hb])]

theorem areas_used (hb : b.used = true) (hne : b.start ≠ b.stop) :
    areas (b :: l) = (b.start + sizeofStructMem, b.stop) :: areas l := by
  rw [areas_cons, if_pos ⟨hb, hne⟩]

theorem areas_prev {q : BitVec 32} : areas ({ b with prev := q } :: l) = areas (b :: l) := by
  rw [areas_cons, areas_cons]

theorem mem_areas {x : BitVec 32 × BitVec 32} :
    x ∈ areas l ↔ ∃ b ∈ l, b.used = true ∧ b.start ≠ b.stop ∧ x = (b.start + sizeofStructMem, b.stop) := by
  simp only [areas, List.mem_map, List.mem_filter, decide_eq_true_eq]
  constructor
  · rintro ⟨b, ⟨hb, hused, hne⟩, rfl⟩
    exact ⟨b, hb, hused, hne, rfl⟩
  · rintro ⟨b, hb, hused, hne, rfl⟩
    exact ⟨b, ⟨hb, hused, hne⟩, rfl⟩

/-! ### The order of the blocks -/

theorem Shape.order (hs : Shape e l) :
    l.Pairwise fun a b => a.start.toNat + 12 ≤ a.stop.toNat ∧ a.stop.toNat ≤ b.start.toNat := by
  let R (a b : Block) : Prop := a.start.toNat + 12 ≤ a.stop.toNat ∧ a.stop.toNat ≤ b.start.toNat
  have : Trans R R R := ⟨fun {a b c} hab hbc => ⟨hab.1, by have := hab.2; have := hbc.1; have := hbc.2; omega⟩⟩
  exact List.isChain_iff_pairwise.mp (hs.chain.imp fun a b hab => ⟨hab.room, by rw [hab.next]⟩)

theorem Shape.split (hs : Shape e (pre ++ b :: post)) :
    (∀ a ∈ pre, a.start.toNat + 12 ≤ a.stop.toNat ∧ a.stop.toNat ≤ b.start.toNat) ∧
      ∀ c ∈ post, b.start.toNat + 12 ≤ b.stop.toNat ∧ b.stop.toNat ≤ c.start.toNat := by
  obtain ⟨-, hpost, hcross⟩ := List.pairwise_append.mp hs.order
  exact ⟨fun a ha => hcross a ha b (List.mem_cons_self ..), (List.pairwise_cons.mp hpost).1⟩

theorem Shape.last_of_nil (hs : Shape e (pre ++ [b])) : b.start = e ∧ b.stop = e ∧ b.used = true := by
  obtain ⟨c, hc, hlast⟩ := hs.last
  obtain rfl : b = c := by simpa using hc
  exact hlast

theorem Shape.next_of_ne (hs : Shape e (pre ++ b :: post)) (hne : b.start ≠ b.stop ∨ b.used = false) :
    ∃ c post', post = c :: post' := by
  cases post with
  | nil =>
    obtain ⟨hstart, hstop, hused⟩ := hs.last_of_nil
    simp [hstart, hstop, hused] at hne
  | cons c post' => exact ⟨c, post', rfl⟩

theorem Shape.le_end (hs : Shape e l) (hb : b ∈ l) : b.start.toNat ≤ e.toNat ∧ b.stop.toNat ≤ e.toNat := by
  obtain ⟨c, hc, hstart, hstop, -⟩ := hs.last
  obtain ⟨body, rfl⟩ : ∃ body, l = body ++ [c] := List.getLast?_eq_some_iff.mp hc
  rcases List.mem_append.mp hb with hb | hb
  · have hcb := (List.pairwise_append.mp hs.order).2.2 b hb c (by simp)
    rw [hstart] at hcb
    omega
  · obtain rfl : b = c := by simpa using hb
    rw [hstart, hstop]
    omega

theorem Shape.aligned (hs : Shape e l) (hb : b ∈ l) : b.start.toNat % 4 = 0 := by
  obtain ⟨pre, post, rfl⟩ := List.append_of_mem hb
  rcases List.eq_nil_or_concat pre with rfl | ⟨pre', a, rfl⟩
  · obtain ⟨c, hc, hstart, -⟩ := hs.first
    obtain rfl : b = c := by simpa using hc
    rw [hstart]
    rfl
  · have hchain := hs.chain
    simp only [List.concat_eq_append, List.append_assoc, List.singleton_append,
      List.isChain_append_cons_cons] at hchain
    exact hchain.2.1.aligned

theorem Shape.stop_mem (hs : Shape e l) (hb : b ∈ l) : ∃ c ∈ l, c.start = b.stop := by
  obtain ⟨pre, post, rfl⟩ := List.append_of_mem hb
  cases post with
  | nil =>
    obtain ⟨hstart, hstop, -⟩ := hs.last_of_nil
    exact ⟨b, by simp, hstart.trans hstop.symm⟩
  | cons c post =>
    have hchain := hs.chain
    simp only [List.isChain_append_cons_cons] at hchain
    exact ⟨c, by simp, hchain.2.1.next.symm⟩

theorem Shape.apart (hs : Shape e l) (hb : b ∈ l) (hc : c ∈ l) : b = c ∨
    (b.start.toNat + 12 ≤ b.stop.toNat ∧ b.stop.toNat ≤ c.start.toNat) ∨
      (c.start.toNat + 12 ≤ c.stop.toNat ∧ c.stop.toNat ≤ b.start.toNat) := by
  obtain ⟨pre, post, rfl⟩ := List.append_of_mem hb
  obtain ⟨hpre, hpost⟩ := hs.split
  rcases List.mem_append.mp hc with hc | hc
  · exact .inr (.inr (hpre c hc))
  · rcases List.mem_cons.mp hc with rfl | hc
    · exact .inl rfl
    · exact .inr (.inl (hpost c hc))

/-- The data of a used block is apart from the structures of all blocks. -/
theorem Shape.data_apart (hs : Shape e l) {x : BitVec 32 × BitVec 32} (hx : x ∈ areas l) (hb : b ∈ l) {i : Nat}
    (hle : x.1.toNat ≤ i) (hlt : i < x.2.toNat) : i < b.start.toNat ∨ b.start.toNat + 12 ≤ i := by
  obtain ⟨c, hc, -, hne, rfl⟩ := mem_areas.mp hx
  have hroom : c.start.toNat + 12 ≤ c.stop.toNat := by
    obtain ⟨pre, post, rfl⟩ := List.append_of_mem hc
    obtain ⟨d, post', rfl⟩ := hs.next_of_ne (.inl hne)
    exact (hs.split.2 d (by simp)).1
  have hstop := c.stop.isLt
  have hdata : (c.start + sizeofStructMem).toNat = c.start.toNat + 12 := by
    rw [sizeofStructMem_eq]
    bv_omega
  dsimp only at hle hlt
  rw [hdata] at hle
  rcases hs.apart hb hc with rfl | h | h
  · omega
  · omega
  · omega

end lists

/-! ## Lists of blocks in memory -/

section memory

variable {h : Heap} {p q : BitVec 32} {f : HeapMem → HeapMem} {a b c d : Block} {l pre post : List Block}

@[simp] theorem Heap.modify_lfree : (h.modify p f).lfree = h.lfree := rfl

@[simp] theorem Heap.modify_memSizeAligned : (h.modify p f).memSizeAligned = h.memSizeAligned := rfl

@[simp] theorem Heap.modify_heapEnd : (h.modify p f).heapEnd = h.heapEnd := rfl

@[simp] theorem Heap.block_modify_self : (h.modify p f).block p = f (h.block p) := heapMem_put ..

theorem Heap.block_modify_apart (hpq : p.toNat + 12 ≤ q.toNat ∨ q.toNat + 12 ≤ p.toNat) :
    (h.modify p f).block q = h.block q :=
  heapMem_congr fun _ _ _ => putHeapMem_outside (by omega)

theorem Heap.mem_modify {x : Nat} (hx : x < p.toNat ∨ p.toNat + 12 ≤ x) : (h.modify p f).mem x = h.mem x :=
  putHeapMem_outside hx

/-- The structures of the blocks are in memory. -/
def Written (h : Heap) (l : List Block) : Prop := ∀ b ∈ l, h.block b.start = b.heapMem

/-- The structures of the blocks do not overlap. -/
def Spread (l : List Block) : Prop := (l.map Block.start).Pairwise fun p q => p.toNat + 12 ≤ q.toNat

theorem Spread.congr {l' : List Block} (hs : Spread l) (hl : l'.map Block.start = l.map Block.start) : Spread l' := by
  unfold Spread at hs ⊢
  rwa [hl]

theorem Shape.spread {e : BitVec 32} (hs : Shape e l) : Spread l :=
  List.pairwise_map.mpr (hs.order.imp fun hab => by omega)

theorem Spread.apart (hs : Spread (pre ++ b :: post)) {c : Block} (hc : c ∈ pre ++ post) :
    b.start.toNat + 12 ≤ c.start.toNat ∨ c.start.toNat + 12 ≤ b.start.toNat := by
  unfold Spread at hs
  rw [List.map_append, List.map_cons, List.pairwise_append, List.pairwise_cons] at hs
  obtain ⟨-, ⟨hpost, -⟩, hpre⟩ := hs
  rcases List.mem_append.mp hc with hc | hc
  · exact .inr (hpre _ (List.mem_map_of_mem hc) _ (List.mem_cons_self ..))
  · exact .inl (hpost _ (List.mem_map_of_mem hc))

theorem Written.insert (hw : Written h (pre ++ post)) (hs : Spread (pre ++ b :: post))
    (hf : f (h.block b.start) = b.heapMem) : Written (h.modify b.start f) (pre ++ b :: post) := by
  have hother : ∀ c ∈ pre ++ post, (h.modify b.start f).block c.start = c.heapMem := by
    intro c hc
    rw [Heap.block_modify_apart (hs.apart hc)]
    exact hw c hc
  intro c hc
  rcases List.mem_append.mp hc with hc | hc
  · exact hother c (List.mem_append_left _ hc)
  · rcases List.mem_cons.mp hc with rfl | hc
    · rw [Heap.block_modify_self, hf]
    · exact hother c (List.mem_append_right _ hc)

theorem Written.sublist {l' : List Block} (hw : Written h l) (hl : l'.Sublist l) : Written h l' :=
  fun b hb => hw b (hl.subset hb)

theorem Written.modify (hw : Written h (pre ++ a :: post)) (hs : Spread (pre ++ a :: post))
    (hf : f a.heapMem = b.heapMem) (hab : b.start = a.start) : Written (h.modify a.start f) (pre ++ b :: post) := by
  have hrest : Written h (pre ++ post) := hw.sublist ((List.sublist_cons_self a post).append_left pre)
  have hs' : Spread (pre ++ b :: post) := hs.congr (by simp [hab])
  rw [← hab]
  refine hrest.insert hs' ?_
  rw [hab, hw a (by simp), hf]

theorem Written.outside (hw : Written h l) (hp : ∀ b ∈ l, p.toNat + 12 ≤ b.start.toNat ∨ b.start.toNat + 12 ≤ p.toNat) :
    Written (h.modify p f) l := fun b hb => by
  rw [Heap.block_modify_apart (hp b hb)]
  exact hw b hb

/-- The bytes of these areas are the same. -/
def Keeps (h h' : Heap) (A : List (BitVec 32 × BitVec 32)) : Prop :=
  ∀ x ∈ A, ∀ i, x.1.toNat ≤ i → i < x.2.toNat → h'.mem i = h.mem i

section keeps

variable {h' h'' : Heap} {A B : List (BitVec 32 × BitVec 32)}

theorem Keeps.refl (h : Heap) (A : List (BitVec 32 × BitVec 32)) : Keeps h h A := fun _ _ _ _ _ => rfl

theorem Keeps.trans (hk : Keeps h h' A) (hk' : Keeps h' h'' A) : Keeps h h'' A :=
  fun x hx i hle hlt => (hk' x hx i hle hlt).trans (hk x hx i hle hlt)

theorem Keeps.mono (hk : Keeps h h' A) (hB : ∀ x ∈ B, x ∈ A) : Keeps h h' B := fun x hx => hk x (hB x hx)

theorem Keeps.modify {e : BitVec 32} (hk : Keeps h h' (areas l)) (hs : Shape e l) (hb : b ∈ l) :
    Keeps h (h'.modify b.start f) (areas l) :=
  hk.trans fun _ hx _ hle hlt => Heap.mem_modify (hs.data_apart hx hb hle hlt)

end keeps

end memory

/-- The list of the blocks of a heap. -/
structure Layout (h : Heap) (l : List Block) : Prop where
  written : Written h l
  shape : Shape h.heapEnd l
  aligned : h.memSizeAligned.toNat % 4 = 0
  bound : h.memSizeAligned.toNat + 24 < 2 ^ 32

/-- The heap between two calls. -/
structure HeapOk (h : Heap) (l : List Block) : Prop extends Layout h l where
  noHoles : NoHoles l
  lfree : h.lfree = lowest h.heapEnd l
  data : ∀ x ∈ areas l, x.1.toNat < x.2.toNat

section unite

variable {e : BitVec 32} {h : Heap} {a b d : Block} {pre post l : List Block}

theorem Shape.unite (hs : Shape e (pre ++ a :: b :: d :: post)) :
    Shape e (pre ++ { a with stop := b.stop } :: { d with prev := a.start } :: post) where
  first := head_replace hs.first id
  chain := by
    have hchain := hs.chain
    simp only [List.isChain_append_cons_cons, List.isChain_cons_cons] at hchain ⊢
    obtain ⟨hpre, hab, hbd, hpost⟩ := hchain
    refine ⟨chain_last hpre fun x hx => ⟨hx.next, hx.prev, hx.room, hx.aligned⟩, ?_,
      chain_head hpost fun x hx => ⟨hx.next, hx.prev, hx.room, hx.aligned⟩⟩
    have := hab.room
    have := congrArg BitVec.toNat hab.next
    have := hbd.room
    exact ⟨hbd.next, fun _ => rfl, by dsimp only; omega, hbd.aligned⟩
  last := last_replace (a := d) (b := { d with prev := a.start }) post ⟨pre ++ [a, b], by simp⟩
    ⟨pre ++ [{ a with stop := b.stop }], by simp⟩ hs.last id

theorem Written.unite (hw : Written h (pre ++ a :: b :: d :: post)) (hs : Spread (pre ++ a :: b :: d :: post))
    (hbd : b.stop = d.start) : Written (h.unite a.start b.start)
      (pre ++ { a with stop := b.stop } :: { d with prev := a.start } :: post) := by
  unfold Heap.unite
  dsimp only
  set h₀ := if h.lfree = b.start then { h with lfree := a.start } else h with h₀_def
  have hw₀ : Written h₀ (pre ++ a :: b :: d :: post) := fun c hc => by
    rw [h₀_def]
    split_ifs
    all_goals exact hw c hc
  have hnext : (h₀.block b.start).next = b.stop := by rw [hw₀ b (by simp)]; rfl
  have hw₁ := hw₀.modify (f := fun x => { x with next := (h₀.block b.start).next }) (b := { a with stop := b.stop }) hs
    (by rw [hnext]; rfl) rfl
  have hs₁ : Spread (pre ++ { a with stop := b.stop } :: b :: d :: post) := hs.congr (by simp)
  set h₁ := h₀.modify a.start fun x => { x with next := (h₀.block b.start).next }
  have hnext₁ : (h₁.block b.start).next = d.start := by rw [hw₁ b (by simp)]; exact hbd
  rw [hnext₁]
  have hw₂ := Written.modify (f := fun x => { x with prev := a.start }) (b := { d with prev := a.start })
    (show Written h₁ ((pre ++ [{ a with stop := b.stop }, b]) ++ d :: post) by simpa using hw₁) (by simpa using hs₁) rfl
    rfl
  refine hw₂.sublist ?_
  rw [List.append_assoc]
  exact List.Sublist.append_left (List.Sublist.cons_cons _ (List.Sublist.cons _ (.refl _))) pre

@[simp] theorem Heap.unite_memSizeAligned (h : Heap) (p q : BitVec 32) :
    (h.unite p q).memSizeAligned = h.memSizeAligned := by
  unfold Heap.unite
  split_ifs
  all_goals rfl

@[simp] theorem Heap.unite_heapEnd (h : Heap) (p q : BitVec 32) : (h.unite p q).heapEnd = h.heapEnd :=
  congrArg (· + sizeofStructMem) (h.unite_memSizeAligned p q)

theorem Heap.unite_lfree {p q : BitVec 32} (hne : h.lfree ≠ q) : (h.unite p q).lfree = h.lfree := by
  unfold Heap.unite
  rw [if_neg hne]
  rfl

theorem Keeps.unite (hw : Written h (pre ++ a :: b :: d :: post))
    (hs : Shape e (pre ++ a :: b :: d :: post)) : Keeps h (h.unite a.start b.start)
      (areas (pre ++ { a with stop := b.stop } :: { d with prev := a.start } :: post)) := by
  have hbd : b.stop = d.start := by
    have hchain := hs.chain
    simp only [List.isChain_append_cons_cons, List.isChain_cons_cons] at hchain
    exact hchain.2.2.1.next
  have hba : a.start.toNat + 12 ≤ b.start.toNat := by
    have := hs.split.2 b (by simp)
    omega
  have hnext (h₀ : Heap) (hblock : h₀.block b.start = h.block b.start) (f : HeapMem → HeapMem) :
      ((h₀.modify a.start f).block b.start).next = d.start := by
    rw [Heap.block_modify_apart (.inl hba), hblock, hw b (by simp)]
    exact hbd
  unfold Heap.unite
  dsimp only
  rw [hnext _ (by split_ifs <;> rfl)]
  have hstart : Keeps h (if h.lfree = b.start then { h with lfree := a.start } else h)
      (areas (pre ++ { a with stop := b.stop } :: { d with prev := a.start } :: post)) := fun x _ i _ _ => by
    split_ifs
    all_goals rfl
  exact (hstart.modify (b := { a with stop := b.stop }) hs.unite (by simp)).modify
    (b := { d with prev := a.start }) hs.unite (by simp)

/-- A heap that is described by the list `l` of its blocks becomes one with the list `l'`; the users see no
difference. -/
structure Became (h : Heap) (l : List Block) (h' : Heap) (l' : List Block) : Prop extends Layout h' l' where
  lfree : h'.lfree = lowest h'.heapEnd l'
  size : h'.memSizeAligned = h.memSizeAligned
  areas : areas l' = areas l
  keeps : Keeps h h' (Heaps.areas l')

theorem Became.refl (hl : Layout h l) (hlow : h.lfree = lowest h.heapEnd l) : Became h l h l :=
  ⟨hl, hlow, rfl, rfl, Keeps.refl _ _⟩

theorem Became.trans {h' h'' : Heap} {l' l'' : List Block} (hb : Became h l h' l') (hb' : Became h' l' h'' l'') :
    Became h l h'' l'' :=
  ⟨hb'.toLayout, hb'.lfree, hb'.size.trans hb.size, hb'.areas.trans hb.areas,
    (hb'.areas ▸ hb.keeps).trans hb'.keeps⟩

theorem unite_spec (hl : Layout h (pre ++ a :: b :: d :: post))
    (hlow : h.lfree = lowest h.heapEnd (pre ++ a :: b :: d :: post)) (ha : a.used = false) (hb : b.used = false) :
    Became h (pre ++ a :: b :: d :: post) (h.unite a.start b.start)
      (pre ++ { a with stop := b.stop } :: { d with prev := a.start } :: post) := by
  have hlowest (x : BitVec 32) : lowest x (pre ++ a :: b :: d :: post) = lowest a.start pre := by
    rw [lowest_append, lowest, if_neg (by simp [ha])]
  have hbd : b.stop = d.start := by
    have hchain := hl.shape.chain
    simp only [List.isChain_append_cons_cons, List.isChain_cons_cons] at hchain
    exact hchain.2.2.1.next
  have hne : h.lfree ≠ b.start := by
    rw [hlow, hlowest]
    have hab := hl.shape.split.2 b (by simp)
    rcases lowest_cases pre with ⟨hsame, -⟩ | ⟨c, hc, -, hsame⟩
    · rw [hsame]
      intro heq
      rw [heq] at hab
      omega
    · rw [hsame]
      have hca := hl.shape.split.1 c hc
      intro heq
      rw [heq] at hca
      omega
  refine ⟨⟨hl.written.unite hl.shape.spread hbd, ?_, ?_, ?_⟩, ?_, Heap.unite_memSizeAligned .., ?_,
    Keeps.unite hl.written hl.shape⟩
  · rw [Heap.unite_heapEnd]
    exact hl.shape.unite
  · rw [Heap.unite_memSizeAligned]
    exact hl.aligned
  · rw [Heap.unite_memSizeAligned]
    exact hl.bound
  · rw [Heap.unite_lfree hne, hlow, hlowest, lowest_append, lowest, if_neg (by simp [ha])]
  · rw [areas_append, areas_append, areas_free (by exact ha), areas_prev, areas_free ha, areas_free hb]

theorem Layout.used_eq_zero (hl : Layout h l) (hb : b ∈ l) : (h.block b.start).used = 0 ↔ b.used = false := by
  rw [hl.written b hb, Block.heapMem]
  cases b.used with
  | false => simp
  | true => simp

theorem plugForward_spec (hl : Layout h (pre ++ b :: post)) (hlow : h.lfree = lowest h.heapEnd (pre ++ b :: post))
    (hfree : b.used = false) (hpost : NoHoles post) :
    ∃ b' post', Became h (pre ++ b :: post) (h.plugForward b.start) (pre ++ b' :: post') ∧ b'.start = b.start ∧
      b'.used = false ∧ NoHoles (b' :: post') := by
  obtain ⟨c, post, rfl⟩ := hl.shape.next_of_ne (.inr hfree)
  have hchain := hl.shape.chain
  simp only [List.isChain_append_cons_cons] at hchain
  obtain ⟨-, hbc, -⟩ := hchain
  have hlt := hl.shape.split.2 c (by simp)
  have hnext : (h.block b.start).next = c.start := by rw [hl.written b (by simp)]; exact hbc.next
  have hne : b.start ≠ c.start := fun heq => by
    rw [heq] at hlt
    omega
  unfold Heap.plugForward
  dsimp only
  rw [hnext]
  have hused := hl.used_eq_zero (b := c) (by simp)
  by_cases hc : c.used = false
  · -- the free block `c` is not `heap_end`, and the one behind it is used
    obtain ⟨d, post, rfl⟩ := (show Shape h.heapEnd ((pre ++ [b]) ++ c :: post) by simpa using hl.shape).next_of_ne
      (.inr hc)
    have hend : c.start ≠ h.heapEnd := fun heq => by
      have hcd := (show Shape h.heapEnd ((pre ++ [b]) ++ c :: d :: post) by simpa using hl.shape).split.2 d (by simp)
      have := (hl.shape.le_end (b := c) (by simp)).2
      rw [← heq] at this
      omega
    rw [if_pos ⟨hne, hused.mpr hc, hend⟩]
    refine ⟨_, _, unite_spec hl hlow hfree hc, rfl, hfree, ?_⟩
    unfold NoHoles at hpost ⊢
    rw [List.isChain_cons_cons] at hpost ⊢
    have hd : d.used = true := hpost.1.resolve_left (by simp [hc])
    exact ⟨.inr hd, chain_head hpost.2 fun x hx => hx⟩
  · rw [if_neg fun hand => hc (hused.mp hand.2.1)]
    refine ⟨b, c :: post, .refl hl hlow, rfl, hfree, List.isChain_cons_cons.mpr ⟨.inr (by simpa using hc), hpost⟩⟩

theorem plugBackward_spec (hl : Layout h (pre ++ b :: post)) (hlow : h.lfree = lowest h.heapEnd (pre ++ b :: post))
    (hfree : b.used = false) (hpre : NoHoles pre) (hpost : NoHoles (b :: post)) :
    ∃ l, Became h (pre ++ b :: post) (h.plugBackward b.start) l ∧ NoHoles l := by
  have hprev : (h.block b.start).prev = b.prev := by rw [hl.written b (by simp)]; rfl
  unfold Heap.plugBackward
  dsimp only
  rw [hprev]
  rcases List.eq_nil_or_concat pre with rfl | ⟨pre, a, rfl⟩
  · -- the first block is its own predecessor
    obtain ⟨c, hc, hstart, hzero⟩ := hl.shape.first
    obtain rfl : b = c := by simpa using hc
    rw [if_neg fun hand => hand.1 (hzero.trans hstart.symm)]
    exact ⟨_, .refl hl hlow, hpost⟩
  · obtain ⟨d, post, rfl⟩ := hl.shape.next_of_ne (.inr hfree)
    simp only [List.concat_eq_append, List.append_assoc, List.singleton_append] at hl hlow hpre ⊢
    have hchain := hl.shape.chain
    simp only [List.isChain_append_cons_cons, List.isChain_cons_cons] at hchain
    obtain ⟨-, hab, hbd, -⟩ := hchain
    have hend : b.start ≠ h.heapEnd := fun heq => by
      have := (hl.shape.le_end (b := b) (by simp)).2
      have := hbd.room
      rw [← heq] at *
      omega
    have hlt := hab.room
    have hne : a.start ≠ b.start := fun heq => by
      rw [hab.next, heq] at hlt
      omega
    rw [hab.prev hend]
    have hused := hl.used_eq_zero (b := a) (by simp)
    unfold NoHoles at hpre hpost ⊢
    rw [List.isChain_cons_cons] at hpost
    have hd : d.used = true := hpost.1.resolve_left (by simp [hfree])
    by_cases ha : a.used = false
    · rw [if_pos ⟨hne, hused.mpr ha⟩]
      refine ⟨_, unite_spec hl hlow ha hfree, ?_⟩
      rw [List.isChain_append_cons_cons]
      exact ⟨chain_last hpre fun x hx => hx, .inr hd, chain_head hpost.2 fun x hx => hx⟩
    · rw [if_neg fun hand => ha (hused.mp hand.2)]
      refine ⟨_, .refl hl hlow, ?_⟩
      rw [List.isChain_append_cons_cons, List.isChain_cons_cons]
      exact ⟨hpre, .inl (by simpa using ha), hpost⟩

theorem plugHoles_spec (hl : Layout h (pre ++ b :: post)) (hlow : h.lfree = lowest h.heapEnd (pre ++ b :: post))
    (hfree : b.used = false) (hpre : NoHoles pre) (hpost : NoHoles post) :
    ∃ h' l, h.plugHoles b.start = some h' ∧ Became h (pre ++ b :: post) h' l ∧ NoHoles l := by
  have hb : b ∈ pre ++ b :: post := by simp
  have hlt : b.start < h.heapEnd := by
    obtain ⟨c, post, rfl⟩ := hl.shape.next_of_ne (.inr hfree)
    have hbc := hl.shape.split.2 c (by simp)
    have := (hl.shape.le_end hb).2
    exact BitVec.lt_def.mpr (by omega)
  obtain ⟨b', post', hforward, hstart, hfree', hpost'⟩ := plugForward_spec hl hlow hfree hpost
  obtain ⟨l, hbackward, hholes⟩ := plugBackward_spec hforward.toLayout hforward.lfree hfree' hpre hpost'
  rw [hstart] at hbackward
  exact ⟨_, l, if_pos ⟨hlt, (hl.used_eq_zero hb).mpr hfree⟩, hforward.trans hbackward, hholes⟩

/-! ## `rt_free` -/

theorem Shape.setUsed (hs : Shape e (pre ++ b :: d :: post)) (u : Bool) :
    Shape e (pre ++ { b with used := u } :: d :: post) where
  first := head_replace hs.first id
  chain := by
    have hchain := hs.chain
    simp only [List.isChain_append_cons_cons] at hchain ⊢
    obtain ⟨hpre, hbd, hpost⟩ := hchain
    exact ⟨chain_last hpre fun x hx => ⟨hx.next, hx.prev, hx.room, hx.aligned⟩,
      ⟨hbd.next, hbd.prev, hbd.room, hbd.aligned⟩, hpost⟩
  last := by
    obtain ⟨c, hc, hlast⟩ := hs.last
    exact ⟨c, by simpa using hc, hlast⟩

theorem lowest_min (hs : Shape e (pre ++ b :: d :: post)) :
    (if b.start < lowest (lowest e (d :: post)) pre then b.start else lowest (lowest e (d :: post)) pre) =
      lowest b.start pre := by
  have hbd := hs.split.2 d (by simp)
  rcases lowest_cases pre with ⟨hsame, -⟩ | ⟨c, hc, -, hsame⟩
  · rw [hsame, hsame, if_pos]
    refine BitVec.lt_def.mpr ?_
    rcases lowest_cases (d :: post) with ⟨hnone, -⟩ | ⟨x, hx, -, hx'⟩
    · have := (hs.le_end (b := b) (by simp)).2
      rw [hnone]
      omega
    · have := hs.split.2 x hx
      rw [hx']
      omega
  · have := hs.split.1 c hc
    rw [hsame, hsame, if_neg]
    exact fun hlt => by have := BitVec.lt_def.mp hlt; omega

theorem data_toNat (hs : Shape e (pre ++ b :: d :: post)) :
    (b.start + sizeofStructMem).toNat = b.start.toNat + 12 ∧ b.start + sizeofStructMem - sizeofStructMem = b.start := by
  have hbd := hs.split.2 d (by simp)
  have := b.stop.isLt
  rw [sizeofStructMem_eq]
  exact ⟨by bv_omega, BitVec.add_sub_cancel ..⟩

theorem Heap.lower_lfree (h : Heap) (p : BitVec 32) :
    (if p < h.lfree then { h with lfree := p } else h) = { h with lfree := if p < h.lfree then p else h.lfree } := by
  split_ifs
  all_goals rfl

theorem rtFree_spec (hl : HeapOk h (pre ++ b :: post)) (hused : b.used = true) (hne : b.start ≠ b.stop) :
    ∃ h' l, h.rtFree (some (b.start + sizeofStructMem)) = some h' ∧ HeapOk h' l ∧
      h'.memSizeAligned = h.memSizeAligned ∧ areas l = areas pre ++ areas post ∧ Keeps h h' (areas l) := by
  obtain ⟨d, post, rfl⟩ := hl.shape.next_of_ne (.inl hne)
  obtain ⟨hdata, hback⟩ := data_toNat hl.shape
  have hb : b ∈ pre ++ b :: d :: post := by simp
  have hblock := hl.written b hb
  have hroom := hl.data _ (mem_areas.mpr ⟨b, hb, hused, hne, rfl⟩)
  have hstop := (hl.shape.le_end hb).2
  have haligned := hl.shape.aligned hb
  dsimp only at hroom
  have hshape := hl.shape.setUsed false
  -- the block is free, and `lfree` the lowest one
  have hwritten : Written (h.modify b.start fun x => { x with used := 0, magic := heapMagic })
      (pre ++ { b with used := false } :: d :: post) := hl.written.modify hl.shape.spread rfl rfl
  have hlow : (if b.start < h.lfree then b.start else h.lfree) =
      lowest h.heapEnd (pre ++ { b with used := false } :: d :: post) := by
    have hold : lowest h.heapEnd (b :: d :: post) = lowest h.heapEnd (d :: post) := if_pos hused
    have hnew : lowest h.heapEnd ({ b with used := false } :: d :: post) = b.start := rfl
    rw [hl.lfree, lowest_append, lowest_append, hold, hnew]
    exact lowest_min hl.shape
  have hlayout (lfree : BitVec 32) :
      Layout { h.modify b.start fun x => { x with used := 0, magic := heapMagic } with lfree := lfree }
        (pre ++ { b with used := false } :: d :: post) := ⟨hwritten, hshape, hl.aligned, hl.bound⟩
  have hholes := hl.noHoles
  unfold NoHoles at hholes
  rw [List.isChain_append_cons_cons] at hholes
  have hpre : NoHoles pre := (List.isChain_append.mp hholes.1).1
  obtain ⟨h', l, hplug, hbecame, hnoHoles⟩ := plugHoles_spec
    (hlayout (if b.start < h.lfree then b.start else h.lfree)) hlow rfl hpre hholes.2.2
  dsimp only at hplug
  have hareas : areas (pre ++ { b with used := false } :: d :: post) = areas pre ++ areas (d :: post) := by
    rw [areas_append, areas_free rfl]
  have hold : areas (pre ++ b :: d :: post) =
      areas pre ++ (b.start + sizeofStructMem, b.stop) :: areas (d :: post) := by
    rw [areas_append, areas_used hused hne]
  refine ⟨h', l, ?_, ⟨hbecame.toLayout, hnoHoles, hbecame.lfree, fun x hx => ?_⟩, hbecame.size,
    hbecame.areas.trans hareas, ?_⟩
  · rw [Heap.rtFree, if_pos ⟨by rw [hdata]; omega, BitVec.lt_def.mpr (by omega)⟩]
    dsimp only
    rw [hback, hblock, if_pos ⟨by simp [Block.heapMem, hused], rfl⟩, Heap.lower_lfree]
    exact hplug
  · refine hl.data x ?_
    rw [hbecame.areas, hareas] at hx
    rw [hold]
    rcases List.mem_append.mp hx with hx | hx
    · exact List.mem_append_left _ hx
    · exact List.mem_append_right _ (List.mem_cons_of_mem _ hx)
  · refine Keeps.trans ?_ hbecame.keeps
    rw [hbecame.areas]
    have hkeeps : Keeps h (h.modify b.start fun x => { x with used := 0, magic := heapMagic })
        (areas (pre ++ { b with used := false } :: d :: post)) :=
      (Keeps.refl h _).modify (b := { b with used := false }) hshape (by simp)
    exact fun x hx i hle hlt => hkeeps x hx i hle hlt

end unite

end ThyristorController.Heaps
