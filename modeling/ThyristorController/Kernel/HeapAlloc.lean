import ThyristorController.Kernel.HeapLayout

/-!
# Allocation in the list of the blocks

What `rt_malloc` and `rt_realloc` do to the list of the blocks. Both cut a block: `Block.remainder` is the free block
behind the data. `rtMalloc_cases` and `rtRealloc_cases` say what the functions return, `Allocated` and `Reallocated`
what then holds of the areas of the users.
-/

namespace ThyristorController.Heaps

open Bytes

/-! ## The remainder of a block -/

/-- The free block behind a block `a` that is cut at `p`. -/
def Block.remainder (a : Block) (p : BitVec 32) : Block where
  start := p
  stop := a.stop
  prev := a.start
  used := false

/-- The block behind a new one at `p`; `heap_end` is not linked back. -/
def Block.linkBack (d : Block) (e p : BitVec 32) : Block := { d with prev := if d.start = e then d.prev else p }

section cut

variable {e p : BitVec 32} {h : Heap} {a r d : Block} {pre post l : List Block}

@[simp] theorem Block.remainder_start : (a.remainder p).start = p := rfl

@[simp] theorem Block.linkBack_start : (d.linkBack e p).start = d.start := rfl

@[simp] theorem areas_linkBack : areas (d.linkBack e p :: l) = areas (d :: l) := areas_prev

theorem Shape.cut (hs : Shape e (pre ++ a :: d :: post)) (hp : a.start.toNat + 12 ≤ p.toNat)
    (hstop : p.toNat + 12 ≤ a.stop.toNat) (haligned : p.toNat % 4 = 0) (u : Bool) :
    Shape e (pre ++ { a with stop := p, used := u } :: a.remainder p :: d.linkBack e p :: post) where
  first := head_replace hs.first id
  chain := by
    have hchain := hs.chain
    simp only [List.isChain_append_cons_cons, List.isChain_cons_cons] at hchain ⊢
    obtain ⟨hpre, had, hpost⟩ := hchain
    refine ⟨chain_last hpre fun x hx => ⟨hx.next, hx.prev, hx.room, hx.aligned⟩,
      ⟨rfl, fun _ => rfl, hp, haligned⟩, ⟨had.next, fun hne => if_neg hne, hstop, had.aligned⟩,
      chain_head hpost fun x hx => ⟨hx.next, hx.prev, hx.room, hx.aligned⟩⟩
  last := last_replace (a := d) (b := d.linkBack e p) post ⟨pre ++ [a], by simp⟩
    ⟨pre ++ [{ a with stop := p, used := u }, a.remainder p], by simp⟩ hs.last id

theorem Written.remainder (hw : Written h (pre ++ a :: post))
    (hs : Spread (pre ++ { a with stop := p } :: a.remainder p :: post)) :
    Written (h.remainder a.start p) (pre ++ { a with stop := p } :: a.remainder p :: post) := by
  have hs₁ : Spread ((pre ++ [a]) ++ a.remainder p :: post) := hs.congr (by simp)
  have hapart : ∀ b ∈ pre ++ a :: post, p.toNat + 12 ≤ b.start.toNat ∨ b.start.toNat + 12 ≤ p.toNat := by
    intro b hb
    rw [show pre ++ a :: post = (pre ++ [a]) ++ post by simp] at hb
    exact hs₁.apart hb
  unfold Heap.remainder
  dsimp only
  have hw₁ := hw.outside (p := p) (f := fun x => { x with magic := heapMagic, used := 0 }) hapart
  set h₁ := h.modify p fun x => { x with magic := heapMagic, used := 0 } with h₁_def
  have hnext : (h₁.block a.start).next = a.stop := by rw [hw₁ a (by simp)]; rfl
  have hw₂ := Written.insert (b := a.remainder p)
    (f := fun x => { x with next := (h₁.block a.start).next, prev := a.start })
    (show Written h₁ ((pre ++ [a]) ++ post) by simpa using hw₁) hs₁
    (by rw [hnext, h₁_def]; simp [Block.remainder, Block.heapMem])
  rw [List.append_assoc, List.singleton_append] at hw₂ hs₁
  exact hw₂.modify (b := { a with stop := p }) hs₁ rfl rfl

theorem Written.linkBack (hw : Written h (pre ++ r :: d :: post)) (hs : Spread (pre ++ r :: d :: post))
    (hrd : r.stop = d.start) : Written (h.linkBack r.start) (pre ++ r :: d.linkBack h.heapEnd r.start :: post) := by
  have hnext : (h.block r.start).next = d.start := by rw [hw r (by simp)]; exact hrd
  unfold Heap.linkBack
  rw [hnext, show h.memSizeAligned + sizeofStructMem = h.heapEnd from rfl, Block.linkBack]
  by_cases hend : d.start = h.heapEnd
  · rw [if_neg (not_not.mpr hend), if_pos hend]
    exact hw
  · rw [if_pos hend, if_neg hend]
    have hw' := Written.modify (f := fun x => { x with prev := r.start }) (b := { d with prev := r.start })
      (show Written h ((pre ++ [r]) ++ d :: post) by simpa using hw) (by simpa using hs) rfl rfl
    rwa [List.append_assoc, List.singleton_append] at hw'

@[simp] theorem Heap.remainder_memSizeAligned (h : Heap) (p q : BitVec 32) :
    (h.remainder p q).memSizeAligned = h.memSizeAligned := rfl

@[simp] theorem Heap.linkBack_memSizeAligned (h : Heap) (p : BitVec 32) :
    (h.linkBack p).memSizeAligned = h.memSizeAligned := by
  unfold Heap.linkBack
  split_ifs
  all_goals rfl

@[simp] theorem Heap.linkBack_heapEnd (h : Heap) (p : BitVec 32) : (h.linkBack p).heapEnd = h.heapEnd :=
  congrArg (· + sizeofStructMem) (h.linkBack_memSizeAligned p)

@[simp] theorem Heap.remainder_lfree (h : Heap) (p q : BitVec 32) : (h.remainder p q).lfree = h.lfree := rfl

@[simp] theorem Heap.linkBack_lfree (h : Heap) (p : BitVec 32) : (h.linkBack p).lfree = h.lfree := by
  unfold Heap.linkBack
  split_ifs
  all_goals rfl

theorem Keeps.remainder {h' : Heap} (hk : Keeps h h' (areas l)) (hs : Shape e l) (ha : ∃ b ∈ l, b.start = a.start)
    (hp : ∃ b ∈ l, b.start = p) : Keeps h (h'.remainder a.start p) (areas l) := by
  obtain ⟨b, hb, hba⟩ := ha
  obtain ⟨c, hc, rfl⟩ := hp
  unfold Heap.remainder
  rw [← hba]
  exact ((hk.modify hs hc).modify hs hc).modify hs hb

theorem Keeps.linkBack {h' : Heap} (hk : Keeps h h' (areas l)) (hs : Shape e l)
    (hd : ∃ b ∈ l, b.start = (h'.block p).next) : Keeps h (h'.linkBack p) (areas l) := by
  obtain ⟨b, hb, hnext⟩ := hd
  unfold Heap.linkBack
  rw [← hnext]
  split_ifs
  · exact hk.modify hs hb
  · exact hk

end cut

/-! ## `rt_malloc` -/

section malloc

variable {h h' : Heap} {a b c d : Block} {pre post l : List Block} {size p : BitVec 32}

theorem Layout.heapEnd_toNat (hl : Layout h l) : h.heapEnd.toNat = h.memSizeAligned.toNat + 12 := by
  have := hl.bound
  rw [Heap.heapEnd, sizeofStructMem_eq]
  bv_omega

theorem data_size {start stop : BitVec 32} (hroom : start.toNat + 12 ≤ stop.toNat) :
    (stop - (start + sizeofStructMem)).toNat = stop.toNat - (start.toNat + 12) := by
  rw [sizeofStructMem_eq]
  bv_omega

/-- The list after a used block is cut. -/
def cutList (h : Heap) (pre : List Block) (a : Block) (p : BitVec 32) (d : Block) (post : List Block) : List Block :=
  pre ++ { a with stop := p, used := true } :: a.remainder p :: d.linkBack h.heapEnd p :: post

/-- The last step of the cut, from a heap `k` where the remainder is there already. -/
theorem linkBack_spec {k : Heap} (hl : Layout h (pre ++ a :: d :: post)) (hp : a.start.toNat + 12 ≤ p.toNat)
    (hstop : p.toNat + 12 ≤ a.stop.toNat) (haligned : p.toNat % 4 = 0)
    (hw : Written k (pre ++ { a with stop := p, used := true } :: a.remainder p :: d :: post))
    (hsame : k.memSizeAligned = h.memSizeAligned) (hkeeps : Keeps h k (areas (cutList h pre a p d post))) :
    Layout (k.linkBack p) (cutList h pre a p d post) ∧ (k.linkBack p).lfree = k.lfree ∧
      (k.linkBack p).memSizeAligned = h.memSizeAligned ∧ Keeps h (k.linkBack p) (areas (cutList h pre a p d post)) := by
  have had : a.stop = d.start := by
    have hchain := hl.shape.chain
    simp only [List.isChain_append_cons_cons] at hchain
    exact hchain.2.1.next
  have hend : k.heapEnd = h.heapEnd := congrArg (· + sizeofStructMem) hsame
  have hshape : Shape h.heapEnd (cutList h pre a p d post) := hl.shape.cut hp hstop haligned true
  have hw' := Written.linkBack
    (show Written k ((pre ++ [{ a with stop := p, used := true }]) ++ a.remainder p :: d :: post) by simpa using hw)
    (hshape.spread.congr (by simp [cutList])) had
  rw [List.append_assoc, List.singleton_append, hend] at hw'
  refine ⟨⟨hw', ?_, ?_, ?_⟩, Heap.linkBack_lfree .., (Heap.linkBack_memSizeAligned ..).trans hsame, ?_⟩
  · rw [Heap.linkBack_heapEnd, hend]
    exact hshape
  · rw [Heap.linkBack_memSizeAligned, hsame]
    exact hl.aligned
  · rw [Heap.linkBack_memSizeAligned, hsame]
    exact hl.bound
  · refine hkeeps.linkBack hshape ⟨d.linkBack h.heapEnd p, by simp [cutList], ?_⟩
    exact had.symm.trans (congrArg HeapMem.next (hw (a.remainder p) (by simp))).symm

theorem remainder_spec (hl : Layout h (pre ++ a :: d :: post)) (hp : a.start.toNat + 12 ≤ p.toNat)
    (hstop : p.toNat + 12 ≤ a.stop.toNat) (haligned : p.toNat % 4 = 0) :
    Written (h.remainder a.start p) (pre ++ { a with stop := p } :: a.remainder p :: d :: post) ∧
      Keeps h (h.remainder a.start p) (areas (cutList h pre a p d post)) := by
  have hshape : Shape h.heapEnd (cutList h pre a p d post) := hl.shape.cut hp hstop haligned true
  exact ⟨hl.written.remainder (hshape.spread.congr (by simp [cutList])),
    (Keeps.refl h _).remainder hshape ⟨{ a with stop := p, used := true }, by simp [cutList], rfl⟩
      ⟨a.remainder p, by simp [cutList], rfl⟩⟩

/-- The block is used; what is left of it, if that is enough, is a free block behind it. -/
theorem useBlock_spec (hl : Layout h (pre ++ a :: d :: post)) (hholes : NoHoles (pre ++ a :: d :: post))
    (ha : a.used = false) (hsize : size.toNat % 4 = 0) (hfit : a.start.toNat + 12 + size.toNat ≤ a.stop.toNat) :
    ∃ k stop rest, h.useBlock size a.start = k ∧ Layout k (pre ++ { a with stop := stop, used := true } :: rest) ∧
      k.lfree = h.lfree ∧ k.memSizeAligned = h.memSizeAligned ∧
      a.start.toNat + 12 + size.toNat ≤ stop.toNat ∧ areas rest = areas (d :: post) ∧
      NoHoles (pre ++ { a with stop := stop, used := true } :: rest) ∧
      Keeps h k (areas (pre ++ { a with stop := stop, used := true } :: rest)) := by
  have hmem : a ∈ pre ++ a :: d :: post := by simp
  have hend := hl.heapEnd_toNat
  have hbound := hl.bound
  have hstop := (hl.shape.le_end hmem).2
  have hnext : (h.block a.start).next = a.stop := by rw [hl.written a hmem]; rfl
  unfold NoHoles at hholes
  simp only [List.isChain_append_cons_cons] at hholes
  obtain ⟨hpre, hadUsed, hpost⟩ := hholes
  have hd : d.used = true := hadUsed.resolve_left (by simp [ha])
  have htest : size + sizeofStructMem + minSizeAligned ≤ a.stop - (a.start + sizeofStructMem) ↔
      a.start.toNat + 12 + size.toNat + 24 ≤ a.stop.toNat := by
    have hleft : (size + sizeofStructMem + minSizeAligned).toNat = size.toNat + 24 := by
      rw [sizeofStructMem_eq, minSizeAligned_eq]
      bv_omega
    rw [BitVec.le_def, data_size (by omega), hleft]
    omega
  unfold Heap.useBlock
  dsimp only
  rw [hnext]
  by_cases hroom : size + sizeofStructMem + minSizeAligned ≤ a.stop - (a.start + sizeofStructMem)
  · -- the block is cut behind the data
    rw [if_pos hroom]
    rw [htest] at hroom
    have hp : (a.start + sizeofStructMem + size).toNat = a.start.toNat + 12 + size.toNat := by
      rw [sizeofStructMem_eq]
      bv_omega
    have haligned := hl.shape.aligned hmem
    set p := a.start + sizeofStructMem + size
    obtain ⟨hremainder, hkept⟩ := remainder_spec hl (p := p) (by omega) (by omega) (by omega)
    have hshape : Shape h.heapEnd (cutList h pre a p d post) := hl.shape.cut (by omega) (by omega) (by omega) true
    have hused := hremainder.modify (f := fun x => { x with used := 1 }) (b := { a with stop := p, used := true })
      (hshape.spread.congr (by simp [cutList])) rfl rfl
    obtain ⟨hlayout, hlfree, hsame, hkeeps⟩ := linkBack_spec hl (p := p) (by omega) (by omega) (by omega) hused rfl
      (hkept.modify (b := { a with stop := p, used := true }) hshape (by simp [cutList]))
    generalize ((h.remainder a.start p).modify a.start fun x => { x with used := 1 }).linkBack p = k at *
    unfold cutList at hlayout hkeeps
    have hw := hlayout.written.modify (f := fun x => { x with magic := heapMagic })
      (b := { a with stop := p, used := true }) hlayout.shape.spread rfl rfl
    have hkeeps' : Keeps h (k.modify a.start fun x => { x with magic := heapMagic }) _ :=
      Keeps.modify (b := { a with stop := p, used := true }) hkeeps hlayout.shape (by simp)
    refine ⟨_, p, _, rfl, ⟨hw, hlayout.shape, hlayout.aligned, hlayout.bound⟩, hlfree, hsame, hp.ge, ?_, ?_, hkeeps'⟩
    · rw [areas_free rfl, areas_linkBack]
    · unfold NoHoles
      simp only [List.isChain_append_cons_cons, List.isChain_cons_cons]
      exact ⟨chain_last hpre fun x _ => .inr rfl, .inl trivial, .inr hd, chain_head hpost fun x hx => hx⟩
  · rw [if_neg hroom]
    have hshape := hl.shape.setUsed true
    have hw := hl.written.modify (f := fun x => { x with used := 1 }) (b := { a with used := true })
      hl.shape.spread rfl rfl
    refine ⟨_, a.stop, d :: post, rfl, ⟨hw.modify (b := { a with used := true }) hshape.spread rfl rfl, hshape,
      hl.aligned, hl.bound⟩, rfl, rfl, hfit, rfl, ?_, ?_⟩
    · unfold NoHoles
      simp only [List.isChain_append_cons_cons]
      exact ⟨chain_last hpre fun x _ => .inr rfl, .inl trivial, hpost⟩
    · exact ((Keeps.refl h _).modify (b := { a with used := true }) hshape (by simp)).modify
        (b := { a with used := true }) hshape (by simp)

theorem Shape.room_of_free {e : BitVec 32} (hs : Shape e l) (hb : b ∈ l) (hfree : b.used = false) :
    b.start.toNat + 12 ≤ b.stop.toNat := by
  obtain ⟨pre, post, rfl⟩ := List.append_of_mem hb
  obtain ⟨c, post, rfl⟩ := hs.next_of_ne (.inr hfree)
  exact (hs.split.2 c (by simp)).1

theorem search_test (hl : Layout h l) (hb : b ∈ l) :
    ((h.block b.start).used = 0 ∧ size ≤ (h.block b.start).next - (b.start + sizeofStructMem)) ↔
      b.used = false ∧ b.start.toNat + 12 + size.toNat ≤ b.stop.toNat := by
  rw [hl.used_eq_zero hb, hl.written b hb, Block.heapMem]
  refine and_congr_right fun hfree => ?_
  have hroom := hl.shape.room_of_free hb hfree
  rw [BitVec.le_def, data_size hroom]
  omega

theorem search_sound (hl : Layout h l) {n : Nat} {ptr : BitVec 32} (hptr : ∃ b ∈ l, b.start = ptr)
    (hs : h.search size n ptr = some (some p)) :
    ∃ b ∈ l, b.start = p ∧ b.used = false ∧ b.start.toNat + 12 + size.toNat ≤ b.stop.toNat ∧
      b.start < h.memSizeAligned - size := by
  induction n generalizing ptr with
  | zero => simp [Heap.search] at hs
  | succ n ih =>
    obtain ⟨b, hb, rfl⟩ := hptr
    simp only [Heap.search] at hs
    split_ifs at hs with hlt hfound
    · obtain rfl : b.start = p := by simpa using hs
      obtain ⟨hfree, hfit⟩ := (search_test hl hb).mp hfound
      exact ⟨b, hb, rfl, hfree, hfit, hlt⟩
    · refine ih ?_ hs
      rw [hl.written b hb]
      exact hl.shape.stop_mem hb
    · simp at hs

theorem search_total (hl : Layout h l) (hsize : size.toNat ≤ h.memSizeAligned.toNat) {n : Nat} {ptr : BitVec 32}
    (hptr : ∃ b ∈ l, b.start = ptr) (hn : h.heapEnd.toNat < n + ptr.toNat) : ∃ r, h.search size n ptr = some r := by
  induction n generalizing ptr with
  | zero =>
    obtain ⟨b, hb, rfl⟩ := hptr
    have := (hl.shape.le_end hb).1
    omega
  | succ n ih =>
    obtain ⟨b, hb, rfl⟩ := hptr
    simp only [Heap.search]
    by_cases hlt : b.start < h.memSizeAligned - size
    · rw [if_pos hlt]
      split_ifs with hfound
      · exact ⟨_, rfl⟩
      · rw [hl.written b hb]
        obtain ⟨c, hc, hstart⟩ := hl.shape.stop_mem hb
        refine ih ⟨c, hc, hstart⟩ ?_
        -- the block is not `heap_end`, so the next one is further on
        have hend := hl.heapEnd_toNat
        have hlt := BitVec.lt_def.mp hlt
        rw [BitVec.toNat_sub_of_le (BitVec.le_def.mpr hsize)] at hlt
        obtain ⟨pre, post, rfl⟩ := List.append_of_mem hb
        cases post with
        | nil =>
          have hlast := hl.shape.last_of_nil.1
          rw [hlast] at hlt
          omega
        | cons d post =>
          have hroom := (hl.shape.split.2 d (by simp)).1
          change h.heapEnd.toNat < n + b.stop.toNat
          omega
    · rw [if_neg hlt]
      exact ⟨_, rfl⟩

theorem search_complete (hl : Layout h l) (hc : c ∈ l) (hfree : c.used = false)
    (hfit : c.start.toNat + 12 + size.toNat ≤ c.stop.toNat) (hlt : c.start < h.memSizeAligned - size) {n : Nat}
    (hb : b ∈ l) (hbc : b.start.toNat ≤ c.start.toNat) (hn : c.start.toNat < n + b.start.toNat) :
    ∃ p, h.search size n b.start = some (some p) := by
  induction n generalizing b with
  | zero => omega
  | succ n ih =>
    simp only [Heap.search]
    have hlt := BitVec.lt_def.mp hlt
    rw [if_pos (BitVec.lt_def.mpr (by omega))]
    split_ifs with hfound
    · exact ⟨_, rfl⟩
    · have hne : b ≠ c := by
        rintro rfl
        exact hfound ((search_test hl hb).mpr ⟨hfree, hfit⟩)
      obtain ⟨d, hd, hstart⟩ := hl.shape.stop_mem hb
      have horder : b.start.toNat + 12 ≤ b.stop.toNat ∧ b.stop.toNat ≤ c.start.toNat := by
        rcases hl.shape.apart hb hc with heq | h | h
        · exact absurd heq hne
        · exact h
        · omega
      rw [hl.written b hb, Block.heapMem, ← hstart]
      have hd' := congrArg BitVec.toNat hstart
      exact ih hd (by omega) (by omega)

theorem nextFree_spec (hl : Layout h (pre ++ b :: post)) {n : Nat} (hn : h.heapEnd.toNat < n + b.start.toNat) :
    h.nextFree n b.start = some (lowest h.heapEnd (b :: post)) := by
  induction n generalizing pre b post with
  | zero =>
    have := (hl.shape.le_end (b := b) (by simp)).1
    omega
  | succ n ih =>
    have hb : b ∈ pre ++ b :: post := by simp
    rw [Heap.nextFree, lowest]
    by_cases hused : b.used = true
    · rw [if_pos hused]
      cases post with
      | nil =>
        have hlast := hl.shape.last_of_nil.1
        rw [if_neg fun hand => hand.2 hlast, hlast]
        rfl
      | cons c post =>
        have hchain := hl.shape.chain
        simp only [List.isChain_append_cons_cons] at hchain
        have hroom := hchain.2.1.room
        have hne : b.start ≠ h.heapEnd := fun heq => by
          have := (hl.shape.le_end hb).2
          rw [heq] at hroom
          omega
        rw [if_pos ⟨fun hzero => by simp [(hl.used_eq_zero hb).mp hzero] at hused, hne⟩, hl.written b hb]
        have hnext : b.heapMem.next = c.start := hchain.2.1.next
        have hlt := hl.shape.split.2 c (by simp)
        rw [hnext]
        exact ih (show Layout h ((pre ++ [b]) ++ c :: post) by simpa using hl) (by omega)
    · rw [if_neg hused, if_neg fun hand => hand.1 ((hl.used_eq_zero hb).mpr (by simpa using hused))]

/-- `n` bytes from `p` on are allocated. -/
structure Allocated (h : Heap) (l : List Block) (h' : Heap) (l' : List Block) (p : BitVec 32) (n : Nat) : Prop extends
    HeapOk h' l' where
  size : h'.memSizeAligned = h.memSizeAligned
  area : ∃ A B stop, areas l = A ++ B ∧ areas l' = A ++ (p, stop) :: B ∧ p.toNat + n ≤ stop.toNat
  keeps : Keeps h h' (areas l')

theorem lfree_used {k : Heap} {stop : BitVec 32} {rest : List Block} (hl : HeapOk h (pre ++ b :: post))
    (hfree : b.used = false) (hk : Layout k (pre ++ { b with stop := stop, used := true } :: rest))
    (hlfree : k.lfree = h.lfree) :
    (if b.start = k.lfree then k.nextFree Heap.rounds k.lfree else some k.lfree) =
      some (lowest k.heapEnd (pre ++ { b with stop := stop, used := true } :: rest)) := by
  have hold : k.lfree = lowest b.start pre := by
    rw [hlfree, hl.lfree, lowest_append, lowest, if_neg (by simp [hfree])]
  have hnext : k.nextFree Heap.rounds b.start =
      some (lowest k.heapEnd ({ b with stop := stop, used := true } :: rest)) :=
    nextFree_spec (b := { b with stop := stop, used := true }) hk (by
      have := k.heapEnd.isLt
      unfold Heap.rounds
      omega)
  rw [lowest_append]
  rcases lowest_cases pre with ⟨hsame, -⟩ | ⟨c, hc, -, hsame⟩
  · rw [hold, hsame, hsame, if_pos rfl, hnext]
  · have hlt := hl.shape.split.1 c hc
    rw [hold, hsame, hsame, if_neg]
    intro heq
    rw [heq] at hlt
    omega

theorem take_spec (hl : HeapOk h l) (hb : b ∈ l) (hfree : b.used = false) (hsize : size.toNat % 4 = 0)
    (hpos : 0 < size.toNat) (hfit : b.start.toNat + 12 + size.toNat ≤ b.stop.toNat) :
    ∃ h' l', ((if b.start = (h.useBlock size b.start).lfree then
          (h.useBlock size b.start).nextFree Heap.rounds (h.useBlock size b.start).lfree
        else some (h.useBlock size b.start).lfree).bind fun lfree =>
        if b.start + sizeofStructMem + size ≤ ({ h.useBlock size b.start with lfree := lfree } : Heap).heapEnd ∧
            (b.start + sizeofStructMem).toNat % 4 = 0 then
          some ({ h.useBlock size b.start with lfree := lfree }, some (b.start + sizeofStructMem))
        else none) = some (h', some (b.start + sizeofStructMem)) ∧
      Allocated h l h' l' (b.start + sizeofStructMem) size.toNat := by
  have haligned := hl.shape.aligned hb
  obtain ⟨pre, post, rfl⟩ := List.append_of_mem hb
  obtain ⟨d, post, rfl⟩ := hl.shape.next_of_ne (.inr hfree)
  obtain ⟨hdata, -⟩ := data_toNat hl.shape
  obtain ⟨k, stop, rest, hk, hlayout, hlfree, hsame, hroom, hareas, hholes, hkeeps⟩ :=
    useBlock_spec hl.toLayout hl.noHoles hfree hsize hfit
  have hend := (hlayout.shape.le_end (b := { b with stop := stop, used := true }) (by simp)).2
  have hstop := stop.isLt
  have hne : b.start ≠ stop := fun heq => by
    rw [heq] at hroom
    omega
  rw [hk, lfree_used hl hfree hlayout hlfree, Option.bind_some, if_pos]
  · refine ⟨_, _, rfl, ⟨⟨⟨hlayout.written, hlayout.shape, hlayout.aligned, hlayout.bound⟩, hholes, rfl, ?_⟩, hsame,
      ⟨areas pre, areas (d :: post), stop, ?_, ?_, ?_⟩, hkeeps⟩⟩
    · have hdata' := hl.data
      rw [areas_append, areas_free hfree] at hdata'
      rw [areas_append, areas_used rfl hne, hareas]
      intro x hx
      rcases List.mem_append.mp hx with hx | hx
      · exact hdata' x (List.mem_append_left _ hx)
      · rcases List.mem_cons.mp hx with rfl | hx
        · dsimp only
          omega
        · exact hdata' x (List.mem_append_right _ hx)
    · rw [areas_append, areas_free hfree]
    · rw [areas_append, areas_used rfl hne, hareas]
    · rw [hdata]
      exact hroom
  · have hsum : (b.start + sizeofStructMem + size).toNat = b.start.toNat + 12 + size.toNat := by
      rw [BitVec.toNat_add, hdata]
      exact Nat.mod_eq_of_lt (by omega)
    refine ⟨BitVec.le_def.mpr ?_, by rw [hdata]; omega⟩
    change (b.start + sizeofStructMem + size).toNat ≤ k.heapEnd.toNat
    dsimp only at hend
    omega

/-- The size of the data that `rt_malloc` looks for. -/
def dataSize (size : BitVec 32) : BitVec 32 :=
  if rtAlign size rtAlignSize < minSizeAligned then minSizeAligned else rtAlign size rtAlignSize

theorem dataSize_toNat (size : BitVec 32) : (dataSize size).toNat = max 12 (rtAlign size rtAlignSize).toNat := by
  have hmin : minSizeAligned.toNat = 12 := by rw [minSizeAligned_eq]; rfl
  unfold dataSize
  split_ifs with hlt
  · have := BitVec.lt_def.mp hlt
    omega
  · have := BitVec.le_def.mp (BitVec.not_lt.mp hlt)
    omega

theorem dataSize_aligned (size : BitVec 32) : (dataSize size).toNat % 4 = 0 := by
  rw [dataSize_toNat, rtAlign_toNat]
  omega

theorem Shape.lowest_mem {e : BitVec 32} (hs : Shape e l) : ∃ b ∈ l, b.start = lowest e l := by
  rcases lowest_cases l with ⟨hsame, -⟩ | ⟨b, hb, -, hsame⟩
  · obtain ⟨c, hc, hstart, -⟩ := hs.last
    exact ⟨c, List.mem_of_getLast? hc, by rw [hsame, hstart]⟩
  · exact ⟨b, hb, (hsame e).symm⟩

/-- `rt_malloc` does not return, returns `RT_NULL`, or returns data of the size. -/
theorem rtMalloc_cases (hl : HeapOk h l) (size : BitVec 32) :
    (h.rtMalloc size = none ∧ h.search (dataSize size) Heap.rounds h.lfree = none ∧
      rtAlign size rtAlignSize ≤ h.memSizeAligned) ∨
    (h.rtMalloc size = some (h, none) ∧ (size = 0 ∨ h.memSizeAligned < rtAlign size rtAlignSize ∨
      h.search (dataSize size) Heap.rounds h.lfree = some none)) ∨
    ∃ h' l' p, h.rtMalloc size = some (h', some p) ∧ Allocated h l h' l' p (dataSize size).toNat ∧ size ≠ 0 ∧
      rtAlign size rtAlignSize ≤ h.memSizeAligned ∧ ∃ b ∈ l, b.used = false ∧
        b.start.toNat + 12 + (dataSize size).toNat ≤ b.stop.toNat ∧ b.start < h.memSizeAligned - dataSize size := by
  by_cases hzero : size = 0
  · exact .inr (.inl ⟨if_pos hzero, .inl hzero⟩)
  by_cases hlarge : h.memSizeAligned < rtAlign size rtAlignSize
  · refine .inr (.inl ⟨?_, .inr (.inl hlarge)⟩)
    rw [Heap.rtMalloc, if_neg hzero, if_pos hlarge]
  have hmalloc := Heap.rtMalloc.eq_def h size
  rw [if_neg hzero, if_neg hlarge] at hmalloc
  dsimp only at hmalloc
  rw [show (if rtAlign size rtAlignSize < minSizeAligned then minSizeAligned else rtAlign size rtAlignSize) =
    dataSize size from rfl] at hmalloc
  cases hsearch : h.search (dataSize size) Heap.rounds h.lfree with
  | none =>
    rw [hsearch] at hmalloc
    exact .inl ⟨hmalloc, rfl, BitVec.not_lt.mp hlarge⟩
  | some r =>
    rw [hsearch] at hmalloc
    cases r with
    | none => exact .inr (.inl ⟨hmalloc, .inr (.inr rfl)⟩)
    | some mem =>
      obtain ⟨b, hb, rfl, hfree, hfit, hlt⟩ := search_sound hl.toLayout (hl.lfree ▸ hl.shape.lowest_mem) hsearch
      have hpos : 0 < (dataSize size).toNat := by
        rw [dataSize_toNat]
        omega
      obtain ⟨h', l', htake, hallocated⟩ := take_spec hl hb hfree (dataSize_aligned size) hpos hfit
      exact .inr (.inr ⟨h', l', _, hmalloc.trans htake, hallocated, hzero, BitVec.not_lt.mp hlarge, b, hb, hfree, hfit,
        hlt⟩)

/-- Where a block fits, `rt_malloc` returns, with data if the search reaches a free block of the size. -/
theorem rtMalloc_returns (hl : HeapOk h l) (hmin : 12 ≤ h.memSizeAligned.toNat) (size : BitVec 32) :
    ∃ r, h.rtMalloc size = some r := by
  rcases rtMalloc_cases hl size with ⟨-, hsearch, hle⟩ | ⟨hnull, -⟩ | ⟨h', l', p, hsome, -⟩
  · have hle := BitVec.le_def.mp hle
    obtain ⟨r, hr⟩ : ∃ r, h.search (dataSize size) Heap.rounds h.lfree = some r :=
      search_total hl.toLayout (by rw [dataSize_toNat]; omega) (hl.lfree ▸ hl.shape.lowest_mem) (by
        have := h.heapEnd.isLt
        unfold Heap.rounds
        omega)
    simp [hr] at hsearch
  · exact ⟨_, hnull⟩
  · exact ⟨_, hsome⟩

theorem Shape.lowest_le {e : BitVec 32} (hs : Shape e l) (hc : c ∈ l) (hfree : c.used = false) :
    (lowest e l).toNat ≤ c.start.toNat := by
  obtain ⟨pre, post, rfl⟩ := List.append_of_mem hc
  rw [lowest_append, lowest, if_neg (by simp [hfree])]
  rcases lowest_cases pre with ⟨hsame, -⟩ | ⟨b, hb, -, hsame⟩
  · rw [hsame]
  · have := hs.split.1 b hb
    rw [hsame]
    omega

/-- `rt_malloc` returns data if the search reaches a free block of the size. -/
theorem rtMalloc_finds (hl : HeapOk h l) (hsize : size ≠ 0) (hle : rtAlign size rtAlignSize ≤ h.memSizeAligned)
    (hc : c ∈ l) (hfree : c.used = false) (hfit : c.start.toNat + 12 + (dataSize size).toNat ≤ c.stop.toNat)
    (hlt : c.start < h.memSizeAligned - dataSize size) : ∃ h' p, h.rtMalloc size = some (h', some p) := by
  obtain ⟨b, hb, hstart⟩ := hl.shape.lowest_mem
  rw [← hl.lfree] at hstart
  have hlow := hl.shape.lowest_le hc hfree
  rw [← hl.lfree, ← hstart] at hlow
  obtain ⟨p, hp⟩ := search_complete hl.toLayout hc hfree hfit hlt (n := Heap.rounds) hb hlow (by
    have := c.start.isLt
    unfold Heap.rounds
    omega)
  rw [hstart] at hp
  rcases rtMalloc_cases hl size with ⟨-, hsearch, -⟩ | ⟨-, hzero | hlarge | hsearch⟩ | ⟨h', l', q, hsome, -⟩
  · simp [hp] at hsearch
  · exact absurd hzero hsize
  · exact absurd hle (BitVec.not_le.mpr hlarge)
  · simp [hp] at hsearch
  · exact ⟨h', q, hsome⟩

end malloc

/-! ## The data of the users -/

section data

variable {h h' : Heap} {pre post l l' : List Block} {A B : List (BitVec 32 × BitVec 32)} {x y : BitVec 32 × BitVec 32}
  {size n p stop : BitVec 32}

theorem areas_split (ha : areas l = A ++ x :: B) : ∃ pre b post, l = pre ++ b :: post ∧ b.used = true ∧
    b.start ≠ b.stop ∧ x = (b.start + sizeofStructMem, b.stop) ∧ areas pre = A ∧ areas post = B := by
  induction l generalizing A with
  | nil => simp at ha
  | cons b l ih =>
    rw [areas_cons] at ha
    split_ifs at ha with hb
    · cases A with
      | nil =>
        obtain ⟨rfl, rfl⟩ := List.cons.inj ha
        exact ⟨[], b, l, rfl, hb.1, hb.2, rfl, rfl, rfl⟩
      | cons y A =>
        obtain ⟨rfl, hrest⟩ := List.cons.inj ha
        obtain ⟨pre, c, post, rfl, hused, hne, hx, hA, hB⟩ := ih hrest
        refine ⟨b :: pre, c, post, rfl, hused, hne, hx, ?_, hB⟩
        rw [areas_used hb.1 hb.2, hA]
    · obtain ⟨pre, c, post, rfl, hused, hne, hx, hA, hB⟩ := ih ha
      refine ⟨b :: pre, c, post, rfl, hused, hne, hx, ?_, hB⟩
      rw [areas_cons, if_neg hb, hA]

theorem Layout.data_start (hl : Layout h l) {b : Block} (hb : b ∈ l) :
    (b.start + sizeofStructMem).toNat = b.start.toNat + 12 := by
  have := (hl.shape.le_end hb).1
  have := hl.heapEnd_toNat
  have := hl.bound
  rw [sizeofStructMem_eq]
  bv_omega

theorem Layout.areas_order (hl : Layout h l) : (areas l).Pairwise fun x y => x.2.toNat ≤ y.1.toNat := by
  refine List.pairwise_map.mpr ((hl.shape.order.imp_of_mem fun {a b} _ hb hab => ?_).filter _)
  have := hl.data_start hb
  dsimp only
  omega

theorem HeapOk.areas_apart (hl : HeapOk h l) (hx : x ∈ areas l) (hy : y ∈ areas l) :
    x = y ∨ x.2.toNat ≤ y.1.toNat ∨ y.2.toNat ≤ x.1.toNat := by
  obtain ⟨A, B, ha⟩ := List.append_of_mem hx
  have horder := hl.areas_order
  rw [ha, List.pairwise_append, List.pairwise_cons] at horder
  obtain ⟨-, ⟨hafter, -⟩, hbefore⟩ := horder
  rw [ha] at hy
  rcases List.mem_append.mp hy with hy | hy
  · exact .inr (.inr (hbefore y hy x (List.mem_cons_self ..)))
  · rcases List.mem_cons.mp hy with rfl | hy
    · exact .inl rfl
    · exact .inr (.inl (hafter y hy))

theorem HeapOk.not_mem_rest (hl : HeapOk h l) (ha : areas l = A ++ x :: B) (hy : y ∈ A ++ B) : y.1 ≠ x.1 := by
  have horder := hl.areas_order
  rw [ha, List.pairwise_append, List.pairwise_cons] at horder
  obtain ⟨-, ⟨hafter, -⟩, hbefore⟩ := horder
  have hx := hl.data x (by simp [ha])
  intro heq
  rcases List.mem_append.mp hy with hy | hy
  · have := hbefore y hy x (List.mem_cons_self ..)
    have := hl.data y (by simp [ha, hy])
    rw [heq] at *
    omega
  · have := hafter y hy
    rw [heq] at *
    omega

theorem HeapOk.mem_rest (hl : HeapOk h l) (ha : areas l = A ++ x :: B) : y ∈ A ++ B ↔ y ∈ areas l ∧ y.1 ≠ x.1 := by
  constructor
  · intro hy
    refine ⟨?_, hl.not_mem_rest ha hy⟩
    rw [ha, List.mem_append, List.mem_cons]
    rw [List.mem_append] at hy
    exact hy.imp_right .inr
  · rintro ⟨hy, hne⟩
    rw [ha, List.mem_append, List.mem_cons] at hy
    rw [List.mem_append]
    rcases hy with hy | rfl | hy
    · exact .inl hy
    · exact absurd rfl hne
    · exact .inr hy

theorem Allocated.added {m : Nat} (ha : Allocated h l h' l' p m) : ∃ stop, p.toNat + m ≤ stop.toNat ∧
    (∀ x, x ∈ areas l' ↔ x = (p, stop) ∨ x ∈ areas l) ∧ ∀ x ∈ areas l, x.1 ≠ p := by
  obtain ⟨A, B, stop, hold, hnew, hroom⟩ := ha.area
  refine ⟨stop, hroom, fun x => ?_, fun x hx => ha.not_mem_rest hnew (hold ▸ hx)⟩
  rw [hnew, hold, List.mem_append, List.mem_cons, List.mem_append]
  exact or_left_comm

theorem HeapOk.write (hl : HeapOk h l) (hx : x ∈ areas l) {m : Memory}
    (hm : ∀ i, i < x.1.toNat ∨ x.2.toNat ≤ i → m i = h.mem i) : HeapOk { h with mem := m } l where
  written b hb := by
    rw [← hl.written b hb]
    refine heapMem_congr fun i hle hlt => hm i ?_
    by_contra hin
    have := hl.shape.data_apart hx hb (i := i) (by omega) (by omega)
    omega
  shape := hl.shape
  aligned := hl.aligned
  bound := hl.bound
  noHoles := hl.noHoles
  lfree := hl.lfree
  data := hl.data

theorem free_spec (hl : HeapOk h l) (ha : areas l = A ++ x :: B) : ∃ h' l', h.rtFree (some x.1) = some h' ∧
    HeapOk h' l' ∧ h'.memSizeAligned = h.memSizeAligned ∧ areas l' = A ++ B ∧ Keeps h h' (A ++ B) := by
  obtain ⟨pre, b, post, rfl, hused, hne, rfl, rfl, rfl⟩ := areas_split ha
  obtain ⟨h', l', hfree, hok, hsame, hareas, hkeeps⟩ := rtFree_spec hl hused hne
  exact ⟨h', l', hfree, hok, hsame, hareas, hareas ▸ hkeeps⟩

/-! ## `rt_realloc` -/

/-- What `rt_realloc` does to the area from `p` to `stop` if the rounded size is `n`; `A` and `B` are the others. -/
inductive Reallocated (h : Heap) (l : List Block) (p stop n : BitVec 32) (A B : List (BitVec 32 × BitVec 32)) :
    Option (Heap × Option (BitVec 32)) → Prop
  | stuck (hmalloc : h.rtMalloc n = none) : Reallocated h l p stop n A B none
  | null (hn : n ≠ 0) : Reallocated h l p stop n A B (some (h, none))
  | freed {h' : Heap} {l' : List Block} (hn : n = 0) (hl' : HeapOk h' l')
      (hsame : h'.memSizeAligned = h.memSizeAligned) (ha : areas l' = A ++ B) (hkeeps : Keeps h h' (A ++ B)) :
      Reallocated h l p stop n A B (some (h', none))
  | inPlace {h' : Heap} {l' : List Block} {stop' : BitVec 32} (hn : n ≠ 0) (hl' : HeapOk h' l')
      (hsame : h'.memSizeAligned = h.memSizeAligned) (ha : areas l' = A ++ (p, stop') :: B)
      (hroom : p.toNat + n.toNat ≤ stop'.toNat) (hstop : stop'.toNat ≤ stop.toNat) (hkeeps : Keeps h h' (areas l')) :
      Reallocated h l p stop n A B (some (h', some p))
  | moved {h' : Heap} {l' : List Block} {q stop' : BitVec 32} (hn : n ≠ 0) (hl' : HeapOk h' l')
      (hsame : h'.memSizeAligned = h.memSizeAligned) (ha : ∀ x, x ∈ areas l' ↔ x = (q, stop') ∨ x ∈ A ++ B)
      (hnew : ∀ x ∈ areas l, x.1 ≠ q) (hroom : q.toNat + n.toNat ≤ stop'.toNat) (hkeeps : Keeps h h' (A ++ B))
      (hdata : ∀ i, i < n.toNat → i < stop.toNat - p.toNat → h'.mem (q.toNat + i) = h.mem (p.toNat + i)) :
      Reallocated h l p stop n A B (some (h', some q))

theorem shrink_spec (hl : HeapOk h l) (ha : areas l = A ++ (p, stop) :: B) (hn : 0 < n.toNat) (hn4 : n.toNat % 4 = 0)
    (hroom : p.toNat + n.toNat + 24 < stop.toNat) {ptr ptr2 : BitVec 32} (hptr : ptr = p - sizeofStructMem)
    (hptr2 : ptr2 = ptr + sizeofStructMem + n) :
    ∃ h' l' stop', (if ptr2 < ((h.remainder ptr ptr2).linkBack ptr2).lfree then
        { (h.remainder ptr ptr2).linkBack ptr2 with lfree := ptr2 }
      else (h.remainder ptr ptr2).linkBack ptr2).plugHoles ptr2 = some h' ∧ HeapOk h' l' ∧
      h'.memSizeAligned = h.memSizeAligned ∧ areas l' = A ++ (p, stop') :: B ∧
      stop'.toNat = p.toNat + n.toNat ∧ Keeps h h' (areas l') := by
  obtain ⟨pre, b, post, rfl, hused, hne, hx, rfl, rfl⟩ := areas_split ha
  obtain ⟨rfl, rfl⟩ := Prod.mk.inj hx
  obtain ⟨d, post, rfl⟩ := hl.shape.next_of_ne (.inl hne)
  have hb : b ∈ pre ++ b :: d :: post := by simp
  have hstart := hl.data_start hb
  have haligned := hl.shape.aligned hb
  have hstop := b.stop.isLt
  rw [show b.start + sizeofStructMem - sizeofStructMem = b.start from BitVec.add_sub_cancel ..] at hptr
  subst hptr hptr2
  have hp : (b.start + sizeofStructMem + n).toNat = b.start.toNat + 12 + n.toNat := by
    rw [BitVec.toNat_add, hstart]
    exact Nat.mod_eq_of_lt (by omega)
  rw [hstart] at hroom
  set p := b.start + sizeofStructMem + n with p_def
  -- the list after the cut
  obtain ⟨hremainder, hkept⟩ := remainder_spec hl.toLayout (p := p) (by omega) (by omega) (by omega)
  rw [hused] at hremainder
  obtain ⟨hlayout, hlfree, hsame, hkeeps⟩ := linkBack_spec hl.toLayout (p := p) (by omega) (by omega) (by omega)
    hremainder rfl hkept
  generalize (h.remainder b.start p).linkBack p = k at *
  have hend : k.heapEnd = h.heapEnd := congrArg (· + sizeofStructMem) hsame
  have hlist : cutList h pre b p d post =
      (pre ++ [{ b with stop := p, used := true }]) ++ b.remainder p :: d.linkBack h.heapEnd p :: post := by
    simp [cutList]
  rw [hlist] at hlayout hkeeps
  have hlow : (if p < k.lfree then p else k.lfree) = lowest k.heapEnd
      ((pre ++ [{ b with stop := p, used := true }]) ++ b.remainder p :: d.linkBack h.heapEnd p :: post) := by
    have hold : k.lfree = lowest (lowest k.heapEnd (d.linkBack h.heapEnd p :: post))
        (pre ++ [{ b with stop := p, used := true }]) := by
      have hcut (x : BitVec 32) : lowest x [{ b with stop := p, used := true }] = x := rfl
      have hfirst (x : BitVec 32) : lowest x (b :: d :: post) = lowest x (d :: post) := if_pos hused
      rw [hlfree, hend, lowest_append, hcut]
      exact hl.lfree.trans ((lowest_append ..).trans (congrArg (lowest · pre) (hfirst _)))
    have hnew : lowest k.heapEnd
        ((pre ++ [{ b with stop := p, used := true }]) ++ b.remainder p :: d.linkBack h.heapEnd p :: post) =
        lowest p (pre ++ [{ b with stop := p, used := true }]) := lowest_append ..
    rw [hold, hnew]
    exact lowest_min hlayout.shape
  have hholes := hl.noHoles
  unfold NoHoles at hholes
  rw [List.isChain_append_cons_cons] at hholes
  obtain ⟨h', l', hplug, hbecame, hnoHoles⟩ := plugHoles_spec (b := b.remainder p)
    (h := { k with lfree := if p < k.lfree then p else k.lfree })
    ⟨hlayout.written, hlayout.shape, hlayout.aligned, hlayout.bound⟩ hlow rfl
    (chain_last hholes.1 fun x _ => .inr rfl) (chain_head hholes.2.2 fun x hx => hx)
  have hareas : areas l' = areas pre ++ (b.start + sizeofStructMem, p) :: areas (d :: post) := by
    have hne' : b.start ≠ p := fun heq => by
      rw [← heq] at hp
      omega
    rw [hbecame.areas, areas_append, areas_append, areas_used rfl hne', areas_free (b := b.remainder p) rfl,
      areas_linkBack, areas_nil, List.append_assoc, List.singleton_append]
  refine ⟨h', l', p, ?_, ⟨hbecame.toLayout, hnoHoles, hbecame.lfree, fun x hx => ?_⟩, hbecame.size.trans hsame, hareas,
    by omega, ?_⟩
  · rw [Heap.lower_lfree]
    exact hplug
  · rw [hareas] at hx
    have hdata := hl.data
    rw [areas_append, areas_used hused hne] at hdata
    rcases List.mem_append.mp hx with hx | hx
    · exact hdata x (List.mem_append_left _ hx)
    · rcases List.mem_cons.mp hx with rfl | hx
      · dsimp only
        omega
      · exact hdata x (List.mem_append_right _ (List.mem_cons_of_mem _ hx))
  · refine Keeps.trans ?_ hbecame.keeps
    rw [hbecame.areas]
    exact hkeeps

theorem Layout.area_block (hl : Layout h l) (hx : x ∈ areas l) :
    (h.block (x.1 - sizeofStructMem)).next = x.2 ∧ x.2.toNat ≤ h.heapEnd.toNat := by
  obtain ⟨b, hb, -, -, rfl⟩ := mem_areas.mp hx
  have hback : b.start + sizeofStructMem - sizeofStructMem = b.start := BitVec.add_sub_cancel ..
  dsimp only
  rw [hback, hl.written b hb]
  exact ⟨rfl, (hl.shape.le_end hb).2⟩

theorem rtAlign_aligned (hn : n.toNat % 4 = 0) : rtAlign n rtAlignSize = n := by
  refine BitVec.eq_of_toNat_eq ?_
  have := n.isLt
  rw [rtAlign_toNat]
  omega

theorem move_spec (hl : HeapOk h l) (ha : areas l = A ++ (p, stop) :: B) (hn : n ≠ 0) (hn4 : n.toNat % 4 = 0)
    (hsize : size.toNat = stop.toNat - p.toNat) :
    Reallocated h l p stop n A B ((h.rtMalloc n).bind fun (h, nmem) =>
      match nmem with
      | none => some (h, none)
      | some nmem =>
        (({ h with mem := copy h.mem nmem.toNat p.toNat (if size < n then size else n).toNat } : Heap).rtFree
          (some p)).map fun h => (h, some nmem)) := by
  rcases rtMalloc_cases hl n with ⟨hnone, -⟩ | ⟨hnull, -⟩ | ⟨h₁, l₁, q, hsome, hallocated, -⟩
  · rw [hnone]
    exact .stuck hnone
  · rw [hnull]
    exact .null hn
  · obtain ⟨stop', hroom, hmem₁, hnew⟩ := hallocated.added
    rw [dataSize_toNat, rtAlign_aligned hn4] at hroom
    have hcount : (if size < n then size else n).toNat = min size.toNat n.toNat := by
      split_ifs with hlt
      · have := BitVec.lt_def.mp hlt
        omega
      · have := BitVec.le_def.mp (BitVec.not_lt.mp hlt)
        omega
    have hq : (q, stop') ∈ areas l₁ := (hmem₁ _).mpr (.inl rfl)
    have hp : (p, stop) ∈ areas l₁ := (hmem₁ _).mpr (.inr (by simp [ha]))
    have hpq : p ≠ q := hnew (p, stop) (by simp [ha])
    -- the copy writes to the new area only
    have hwrite := hallocated.toHeapOk.write hq
      (m := copy h₁.mem q.toNat p.toNat (if size < n then size else n).toNat) fun i hi =>
        copy_outside (by dsimp only at hi; omega)
    obtain ⟨A₂, B₂, ha₂⟩ := List.append_of_mem hp
    obtain ⟨h₂, l₂, hfree, hok, hsame, hareas, hkeeps⟩ := free_spec hwrite ha₂
    have hmem₂ (x : BitVec 32 × BitVec 32) : x ∈ A₂ ++ B₂ ↔ x = (q, stop') ∨ x ∈ A ++ B := by
      rw [hwrite.mem_rest ha₂, hmem₁, hl.mem_rest ha]
      constructor
      · rintro ⟨hx | hx, hne⟩
        · exact .inl hx
        · exact .inr ⟨hx, hne⟩
      · rintro (rfl | ⟨hx, hne⟩)
        · exact ⟨.inl rfl, hpq.symm⟩
        · exact ⟨.inr hx, hne⟩
    rw [hsome]
    dsimp only [Option.bind_some]
    rw [hfree, Option.map_some]
    refine .moved hn hok (hsame.trans hallocated.size) (fun x => hareas ▸ hmem₂ x) hnew (by omega)
      (fun x hx i hle hlt => ?_) fun i hi hlt => ?_
    · have hxl : x ∈ areas l := ((hl.mem_rest ha).mp hx).1
      have hx₁ : x ∈ areas l₁ := (hmem₁ x).mpr (.inr hxl)
      have hapart := (hallocated.areas_apart hx₁ hq).resolve_left fun heq => hnew x hxl (congrArg Prod.fst heq)
      rw [hkeeps x ((hmem₂ x).mpr (.inr hx)) i hle hlt, ← hallocated.keeps x hx₁ i hle hlt]
      exact copy_outside (by dsimp only at hapart; omega)
    · rw [hkeeps _ ((hmem₂ _).mpr (.inl rfl)) _ (by dsimp only; omega) (by dsimp only; omega),
        ← hallocated.keeps _ hp _ (by dsimp only; omega) (by dsimp only; omega)]
      exact copy_inside (by omega)

theorem rtRealloc_cases (hl : HeapOk h l) (ha : areas l = A ++ (p, stop) :: B) (size : BitVec 32) :
    Reallocated h l p stop (rtAlign size rtAlignSize) A B (h.rtRealloc (some p) size) := by
  have hmem : (p, stop) ∈ areas l := by simp [ha]
  have hn4 : (rtAlign size rtAlignSize).toNat % 4 = 0 := by
    rw [rtAlign_toNat]
    omega
  unfold Heap.rtRealloc
  dsimp only
  generalize rtAlign size rtAlignSize = n at *
  by_cases hlarge : h.memSizeAligned < n
  · rw [if_pos hlarge]
    refine .null fun hzero => ?_
    rw [hzero] at hlarge
    exact absurd (BitVec.lt_def.mp hlarge) (Nat.not_lt_zero _)
  rw [if_neg hlarge]
  by_cases hzero : n = 0
  · obtain ⟨h', l', hfree, hok, hsame, hareas, hkeeps⟩ := free_spec hl ha
    rw [if_pos hzero, hfree, Option.map_some]
    exact .freed hzero hok hsame hareas hkeeps
  rw [if_neg hzero]
  have hpos : 0 < n.toNat := Nat.pos_of_ne_zero fun h => hzero (BitVec.eq_of_toNat_eq h)
  obtain ⟨hnext, hend⟩ := hl.area_block hmem
  have hdata := hl.data _ hmem
  dsimp only at hnext hend hdata
  rw [if_neg (BitVec.not_le.mpr (BitVec.lt_def.mpr (by omega))), hnext]
  have hle := BitVec.le_def.mp (BitVec.not_lt.mp hlarge)
  have hbound := hl.bound
  have hsize : (stop - (p - sizeofStructMem) - sizeofStructMem).toNat = stop.toNat - p.toNat := by
    rw [sizeofStructMem_eq]
    bv_omega
  generalize stop - (p - sizeofStructMem) - sizeofStructMem = sz at *
  by_cases hsame : sz = n
  · rw [if_pos hsame]
    refine .inPlace hzero hl rfl ha ?_ le_rfl (Keeps.refl h _)
    rw [← hsame]
    omega
  rw [if_neg hsame]
  by_cases hshrink : n + sizeofStructMem + minSize < sz
  · rw [if_pos hshrink]
    have hroom : p.toNat + n.toNat + 24 < stop.toNat := by
      have hlt := BitVec.lt_def.mp hshrink
      rw [show (n + sizeofStructMem + minSize).toNat = n.toNat + 24 by
        rw [sizeofStructMem_eq, minSize_eq]; bv_omega] at hlt
      omega
    obtain ⟨h', l', stop', hplug, hok, hsize', hareas, hstop', hkeeps⟩ := shrink_spec hl ha hpos hn4 hroom rfl rfl
    rw [hplug, Option.map_some]
    exact .inPlace hzero hok hsize' hareas (by omega) (by omega) hkeeps
  · rw [if_neg hshrink]
    exact move_spec hl ha hzero hn4 hsize

end data

end ThyristorController.Heaps
