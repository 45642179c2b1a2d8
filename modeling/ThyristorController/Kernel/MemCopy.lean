import ThyristorController.Lib.CellLoops

/-!
# Fill and copy memory (`src/kservice.c`)

`rt_memset` and `rt_memcpy`, as they are without `RT_USING_TINY_SIZE`: they go by words of four bytes where the
addresses are aligned and the length allows it, four words at a time as long as possible, and byte by byte behind them.
Addresses and lengths have 32 bits and wrap; `rt_memcpy` keeps its length in an `int`, which it compares with the
unsigned sizes of the blocks.

`memset_memcpy_bytewise` says that both are the loops over single bytes, for all addresses and lengths.
-/

namespace ThyristorController.MemCopy

open CellLoops

abbrev Memory := BitVec 32 → UInt8

/-! ## Words -/

/-- `LBLOCKSIZE`, `LITTLEBLOCKSIZE`: `sizeof(long)`. -/
def lblocksize : BitVec 32 := 4

/-- A byte of a word. -/
def byteOf (v : BitVec 32) (i : Nat) : UInt8 := UInt8.ofBitVec (v.extractLsb' (8 * i) 8)

/-- `*(long *)a = v`, on a little-endian processor. -/
def putLong (m : Memory) (a v : BitVec 32) : Memory :=
  Function.update (Function.update (Function.update (Function.update m a (byteOf v 0)) (a + 1) (byteOf v 1)) (a + 2)
    (byteOf v 2)) (a + 3) (byteOf v 3)

/-- `*(long *)a`. -/
def long (m : Memory) (a : BitVec 32) : BitVec 32 :=
  (m (a + 3)).toBitVec ++ (m (a + 2)).toBitVec ++ (m (a + 1)).toBitVec ++ (m a).toBitVec

/-- `UNALIGNED` of one address. -/
def unaligned (a : BitVec 32) : Bool := a &&& (lblocksize - 1) ≠ 0

/-! ## `rt_memset` -/

/-- "Store D into each char sized location in BUFFER". -/
def bufferOf (d : BitVec 32) : BitVec 32 :=
  let buffer := d <<< 8 ||| d
  buffer ||| buffer <<< 16

/-- The loop over four words, from `aligned_addr` on; with the pointer and the count behind it. -/
def setBlocks (buffer : BitVec 32) (m : Memory) (alignedAddr count : BitVec 32) : Memory × BitVec 32 × BitVec 32 :=
  if lblocksize * 4 ≤ count then
    let m := putLong m alignedAddr buffer
    let m := putLong m (alignedAddr + 4) buffer
    let m := putLong m (alignedAddr + 8) buffer
    let m := putLong m (alignedAddr + 12) buffer
    setBlocks buffer m (alignedAddr + 16) (count - 4 * lblocksize)
  else (m, alignedAddr, count)
termination_by count.toNat
decreasing_by
  unfold lblocksize at *
  bv_omega

/-- The loop over one word. -/
def setWords (buffer : BitVec 32) (m : Memory) (alignedAddr count : BitVec 32) : Memory × BitVec 32 × BitVec 32 :=
  if lblocksize ≤ count then setWords buffer (putLong m alignedAddr buffer) (alignedAddr + 4) (count - lblocksize)
  else (m, alignedAddr, count)
termination_by count.toNat
decreasing_by
  unfold lblocksize at *
  bv_omega

/-- `while (count--) *m++ = (char)d`. -/
def setBytes (d : BitVec 32) (m : Memory) (p count : BitVec 32) : Memory :=
  if count ≠ 0 then setBytes d (Function.update m p (byteOf d 0)) (p + 1) (count - 1) else m
termination_by count.toNat
decreasing_by
  bv_omega

/-- `rt_memset`, with the memory behind it and its result. -/
def rtMemset (m : Memory) (s c count : BitVec 32) : Memory × BitVec 32 :=
  let d := c &&& 0xff
  let (m, p, count) :=
    if ¬ count < lblocksize ∧ ¬ unaligned s = true then
      let buffer := bufferOf d
      let (m, alignedAddr, count) := setBlocks buffer m s count
      setWords buffer m alignedAddr count
    else (m, s, count)
  (setBytes d m p count, s)

/-! ## `rt_memcpy` -/

/-- `BIGBLOCKSIZE`. -/
def bigBlockSize : BitVec 32 := lblocksize <<< 2

/-- `*aligned_dst++ = *aligned_src++`. -/
def copyLong (m : Memory) (alignedDst alignedSrc : BitVec 32) : Memory := putLong m alignedDst (long m alignedSrc)

/-- "Copy 4X long words at a time if possible"; with the pointers and the length behind it. -/
def copyBlocks (m : Memory) (alignedDst alignedSrc len : BitVec 32) : Memory × BitVec 32 × BitVec 32 × BitVec 32 :=
  if bigBlockSize ≤ len then
    let m := copyLong m alignedDst alignedSrc
    let m := copyLong m (alignedDst + 4) (alignedSrc + 4)
    let m := copyLong m (alignedDst + 8) (alignedSrc + 8)
    let m := copyLong m (alignedDst + 12) (alignedSrc + 12)
    copyBlocks m (alignedDst + 16) (alignedSrc + 16) (len - bigBlockSize)
  else (m, alignedDst, alignedSrc, len)
termination_by len.toNat
decreasing_by
  unfold bigBlockSize lblocksize at *
  bv_omega

/-- "Copy one long word at a time if possible". -/
def copyWords (m : Memory) (alignedDst alignedSrc len : BitVec 32) : Memory × BitVec 32 × BitVec 32 × BitVec 32 :=
  if lblocksize ≤ len then
    copyWords (copyLong m alignedDst alignedSrc) (alignedDst + 4) (alignedSrc + 4) (len - lblocksize)
  else (m, alignedDst, alignedSrc, len)
termination_by len.toNat
decreasing_by
  unfold lblocksize at *
  bv_omega

/-- `while (len--) *dst_ptr++ = *src_ptr++`. -/
def copyBytes (m : Memory) (dstPtr srcPtr len : BitVec 32) : Memory :=
  if len ≠ 0 then copyBytes (Function.update m dstPtr (m srcPtr)) (dstPtr + 1) (srcPtr + 1) (len - 1) else m
termination_by len.toNat
decreasing_by
  bv_omega

/-- `rt_memcpy`, with the memory behind it and its result. -/
def rtMemcpy (m : Memory) (dst src count : BitVec 32) : Memory × BitVec 32 :=
  let (m, dstPtr, srcPtr, len) :=
    if ¬ count < bigBlockSize ∧ ¬ (unaligned src = true ∨ unaligned dst = true) then
      let (m, alignedDst, alignedSrc, len) := copyBlocks m dst src count
      copyWords m alignedDst alignedSrc len
    else (m, dst, src, count)
  (copyBytes m dstPtr srcPtr len, dst)

/-! ## Words are four bytes -/

section words

variable {m : Memory} {a d v : BitVec 32}

theorem byteOf_long (m : Memory) (a : BitVec 32) : byteOf (long m a) 0 = m a ∧ byteOf (long m a) 1 = m (a + 1) ∧
    byteOf (long m a) 2 = m (a + 2) ∧ byteOf (long m a) 3 = m (a + 3) := by
  have hbyte (v : BitVec 32) (x : UInt8) (i : Nat) (h : ∀ j < 8, v.getLsbD (8 * i + j) = x.toBitVec.getLsbD j) :
      byteOf v i = x := by
    refine UInt8.toBitVec_inj.mp (BitVec.eq_of_getLsbD_eq fun j hj => ?_)
    show (v.extractLsb' (8 * i) 8).getLsbD j = _
    rw [BitVec.getLsbD_extractLsb', h j hj]
    simp [hj]
  unfold long
  refine ⟨hbyte _ _ 0 fun j hj => ?_, hbyte _ _ 1 fun j hj => ?_, hbyte _ _ 2 fun j hj => ?_,
    hbyte _ _ 3 fun j hj => ?_⟩
  all_goals
    simp only [BitVec.getLsbD_append]
    grind

theorem byteOf_bufferOf {i : Nat} (hd : ∀ k, 8 ≤ k → d.getLsbD k = false) (hi : i < 4) :
    byteOf (bufferOf d) i = byteOf d 0 := by
  refine congrArg UInt8.ofBitVec (BitVec.eq_of_getLsbD_eq fun j hj => ?_)
  have hbyte (v : BitVec 32) (i : Nat) : (v.extractLsb' (8 * i) 8).getLsbD j = v.getLsbD (8 * i + j) := by
    rw [BitVec.getLsbD_extractLsb']
    simp [hj]
  rw [hbyte, hbyte]
  unfold bufferOf
  simp only [BitVec.getLsbD_or, BitVec.getLsbD_shiftLeft]
  obtain rfl | rfl | rfl | rfl : i = 0 ∨ i = 1 ∨ i = 2 ∨ i = 3 := by omega
  all_goals grind

theorem putLong_bufferOf (hd : ∀ k, 8 ≤ k → d.getLsbD k = false) (m : Memory) (a : BitVec 32) :
    putLong m a (bufferOf d) = fillCells m a (byteOf d 0) 4 := by
  have htwo : a + 1 + 1 = a + 2 := BitVec.add_assoc a 1 1
  have hthree : a + 2 + 1 = a + 3 := BitVec.add_assoc a 2 1
  simp only [putLong, fillCells, htwo, hthree]
  rw [byteOf_bufferOf hd (by decide), byteOf_bufferOf hd (by decide), byteOf_bufferOf hd (by decide),
    byteOf_bufferOf hd (by decide)]

/-- A word is copied as its four bytes are, one after the other: of two aligned words none begins inside of the
other. -/
theorem copyLong_eq {dst src : BitVec 32} (hdst : dst &&& 3 = 0) (hsrc : src &&& 3 = 0) (m : Memory) :
    copyLong m dst src = copyCells m dst src 4 := by
  have hmod {x : BitVec 32} (h : x &&& 3 = 0) : x.toNat % 4 = 0 := by
    have := congrArg BitVec.toNat h
    rw [BitVec.toNat_and] at this
    exact (Nat.and_two_pow_sub_one_eq_mod x.toNat 2).symm.trans this
  have hd := hmod hdst
  have hs := hmod hsrc
  have htwo (x : BitVec 32) : x + 1 + 1 = x + 2 := BitVec.add_assoc x 1 1
  have hthree (x : BitVec 32) : x + 2 + 1 = x + 3 := BitVec.add_assoc x 2 1
  obtain ⟨h0, h1, h2, h3⟩ := byteOf_long m src
  simp only [copyLong, putLong, copyCells, htwo, hthree, h0, h1, h2, h3]
  have hne1 : src + 1 ≠ dst := by bv_omega
  have hne2 : src + 2 ≠ dst ∧ src + 2 ≠ dst + 1 := by bv_omega
  have hne3 : src + 3 ≠ dst ∧ src + 3 ≠ dst + 1 ∧ src + 3 ≠ dst + 2 := by bv_omega
  rw [Function.update_of_ne hne1, Function.update_of_ne hne2.2, Function.update_of_ne hne2.1,
    Function.update_of_ne hne3.2.2, Function.update_of_ne hne3.2.1, Function.update_of_ne hne3.1]

end words

/-! ## The loops -/

/-- Of the `n` bytes from `a` on, some are written; with the pointer and the count behind them. -/
def Filled (m : Memory) (a n : BitVec 32) (c : UInt8) (r : Memory × BitVec 32 × BitVec 32) : Prop :=
  ∃ k ≤ n.toNat, r = (fillCells m a c k, a + BitVec.ofNat 32 k, n - BitVec.ofNat 32 k)

/-- Of the `n` bytes from `src` on, some are copied. -/
def Copied (m : Memory) (dst src n : BitVec 32) (r : Memory × BitVec 32 × BitVec 32 × BitVec 32) : Prop :=
  ∃ k ≤ n.toNat, r = (copyCells m dst src k, dst + BitVec.ofNat 32 k, src + BitVec.ofNat 32 k, n - BitVec.ofNat 32 k)

section loops

variable {m : Memory} {a n d s dst src len buffer : BitVec 32} {c : UInt8} {j : Nat}
  {r : Memory × BitVec 32 × BitVec 32} {q : Memory × BitVec 32 × BitVec 32 × BitVec 32}

theorem toNat_sub_ofNat (hj : j ≤ n.toNat) : (n - BitVec.ofNat 32 j).toNat = n.toNat - j := by
  have hlt := n.isLt
  have hj' : (BitVec.ofNat 32 j).toNat = j := Nat.mod_eq_of_lt (by omega)
  rw [BitVec.toNat_sub_of_le (BitVec.le_def.mpr (by omega)), hj']

theorem ofNat_add_ofNat (a : BitVec 32) (j k : Nat) :
    a + BitVec.ofNat 32 j + BitVec.ofNat 32 k = a + BitVec.ofNat 32 (j + k) := by
  rw [BitVec.ofNat_add, BitVec.add_assoc]

theorem Filled.refl (m : Memory) (a n : BitVec 32) (c : UInt8) : Filled m a n c (m, a, n) :=
  ⟨0, Nat.zero_le _, by simp [fillCells]⟩

theorem Filled.step (hj : j ≤ n.toNat)
    (h : Filled (fillCells m a c j) (a + BitVec.ofNat 32 j) (n - BitVec.ofNat 32 j) c r) : Filled m a n c r := by
  obtain ⟨k, hk, rfl⟩ := h
  rw [toNat_sub_ofNat hj] at hk
  refine ⟨j + k, by omega, ?_⟩
  rw [fillCells_add, ofNat_add_ofNat, BitVec.sub_sub, ← BitVec.ofNat_add]

theorem Copied.refl (m : Memory) (dst src n : BitVec 32) : Copied m dst src n (m, dst, src, n) :=
  ⟨0, Nat.zero_le _, by simp [copyCells]⟩

theorem Copied.step (hj : j ≤ n.toNat) (h : Copied (copyCells m dst src j) (dst + BitVec.ofNat 32 j)
    (src + BitVec.ofNat 32 j) (n - BitVec.ofNat 32 j) q) : Copied m dst src n q := by
  obtain ⟨k, hk, rfl⟩ := h
  rw [toNat_sub_ofNat hj] at hk
  refine ⟨j + k, by omega, ?_⟩
  rw [copyCells_add, ofNat_add_ofNat, ofNat_add_ofNat, BitVec.sub_sub, ← BitVec.ofNat_add]

theorem Filled.trans {a' n' : BitVec 32} {m' : Memory} (h : Filled m a n c (m', a', n')) (h' : Filled m' a' n' c r) :
    Filled m a n c r := by
  obtain ⟨k, hk, heq⟩ := h
  obtain ⟨rfl, hrest⟩ := Prod.mk.inj heq
  obtain ⟨rfl, rfl⟩ := Prod.mk.inj hrest
  exact h'.step hk

theorem Copied.trans {dst' src' n' : BitVec 32} {m' : Memory} (h : Copied m dst src n (m', dst', src', n'))
    (h' : Copied m' dst' src' n' q) : Copied m dst src n q := by
  obtain ⟨k, hk, heq⟩ := h
  obtain ⟨rfl, hrest⟩ := Prod.mk.inj heq
  obtain ⟨rfl, hlast⟩ := Prod.mk.inj hrest
  obtain ⟨rfl, rfl⟩ := Prod.mk.inj hlast
  exact h'.step hk

theorem Filled.word (hbuffer : ∀ m a, putLong m a buffer = fillCells m a c 4) (hn : lblocksize ≤ n)
    (h : Filled (putLong m a buffer) (a + 4) (n - lblocksize) c r) : Filled m a n c r := by
  rw [hbuffer] at h
  exact Filled.step (j := 4) (BitVec.le_def.mp hn) h

theorem setWords_filled (hbuffer : ∀ m a, putLong m a buffer = fillCells m a c 4) (m : Memory) (a n : BitVec 32) :
    Filled m a n c (setWords buffer m a n) := by
  fun_induction setWords buffer m a n with
  | case1 m a n hle ih => exact ih.word hbuffer hle
  | case2 m a n hle => exact .refl m a n c

theorem setBlocks_filled (hbuffer : ∀ m a, putLong m a buffer = fillCells m a c 4) (m : Memory) (a n : BitVec 32) :
    Filled m a n c (setBlocks buffer m a n) := by
  fun_induction setBlocks buffer m a n with
  | case1 m a n hle m₁ m₂ m₃ m₄ ih =>
    have hle : 16 ≤ n.toNat := BitVec.le_def.mp hle
    refine Filled.step (j := 16) hle ?_
    rw [fillCells_add m a c 12 4, fillCells_add m a c 8 4, fillCells_add m a c 4 4, ← hbuffer, ← hbuffer, ← hbuffer,
      ← hbuffer]
    exact ih
  | case2 m a n hle => exact .refl m a n c

theorem setBytes_eq (d : BitVec 32) (m : Memory) (a n : BitVec 32) :
    setBytes d m a n = fillCells m a (byteOf d 0) n.toNat := by
  fun_induction setBytes d m a n with
  | case1 m a n hne ih =>
    have hn : n.toNat = (n - 1).toNat + 1 := by bv_omega
    rw [ih, hn, fillCells]
  | case2 m a n hne =>
    obtain rfl : n = 0 := not_not.mp hne
    rfl

theorem aligned_add (h : a &&& 3 = 0) : (a + 4) &&& 3 = 0 := by
  have hmod (x : BitVec 32) : (x &&& 3).toNat = x.toNat % 4 := by
    rw [BitVec.toNat_and]
    exact Nat.and_two_pow_sub_one_eq_mod x.toNat 2
  have hzero := congrArg BitVec.toNat h
  rw [hmod] at hzero
  refine BitVec.eq_of_toNat_eq ?_
  rw [hmod]
  change a.toNat % 4 = 0 at hzero
  show (a + 4).toNat % 4 = 0
  bv_omega

theorem copyWords_copied (hdst : dst &&& 3 = 0) (hsrc : src &&& 3 = 0) (m : Memory) (n : BitVec 32) :
    Copied m dst src n (copyWords m dst src n) := by
  fun_induction copyWords m dst src n with
  | case1 m dst src n hle ih =>
    refine Copied.step (j := 4) (BitVec.le_def.mp hle) ?_
    rw [← copyLong_eq hdst hsrc]
    exact ih (aligned_add hdst) (aligned_add hsrc)
  | case2 m dst src n hle => exact .refl m dst src n

theorem copyBlocks_copied (hdst : dst &&& 3 = 0) (hsrc : src &&& 3 = 0) (m : Memory) (n : BitVec 32) :
    Copied m dst src n (copyBlocks m dst src n) ∧ (copyBlocks m dst src n).2.1 &&& 3 = 0 ∧
      (copyBlocks m dst src n).2.2.1 &&& 3 = 0 := by
  fun_induction copyBlocks m dst src n with
  | case1 m dst src n hle m₁ m₂ m₃ m₄ ih =>
    have hle : 16 ≤ n.toNat := BitVec.le_def.mp hle
    have hfour {x : BitVec 32} (h : x &&& 3 = 0) : (x + 8) &&& 3 = 0 ∧ (x + 12) &&& 3 = 0 ∧ (x + 16) &&& 3 = 0 := by
      have h8 := aligned_add (aligned_add h)
      have h12 := aligned_add h8
      have h16 := aligned_add h12
      simp only [BitVec.add_assoc] at h8 h12 h16
      exact ⟨h8, h12, h16⟩
    obtain ⟨hd8, hd12, hd16⟩ := hfour hdst
    obtain ⟨hs8, hs12, hs16⟩ := hfour hsrc
    have hwords : copyCells m dst src 16 = m₄ := by
      have h₁ : m₁ = copyCells m dst src 4 := copyLong_eq hdst hsrc m
      have h₂ : m₂ = copyCells m₁ (dst + 4#32) (src + 4#32) 4 :=
        copyLong_eq (aligned_add hdst) (aligned_add hsrc) m₁
      have h₃ : m₃ = copyCells m₂ (dst + 8#32) (src + 8#32) 4 := copyLong_eq hd8 hs8 m₂
      rw [copyCells_add m dst src 12 4, copyCells_add m dst src 8 4, copyCells_add m dst src 4 4, ← h₁, ← h₂, ← h₃]
      exact (copyLong_eq hd12 hs12 m₃).symm
    obtain ⟨hnext, haligned⟩ := ih hd16 hs16
    refine ⟨Copied.step (j := 16) hle ?_, haligned⟩
    rw [hwords]
    exact hnext
  | case2 m dst src n hle => exact ⟨.refl m dst src n, hdst, hsrc⟩

theorem copyBytes_eq (m : Memory) (dst src n : BitVec 32) : copyBytes m dst src n = copyCells m dst src n.toNat := by
  fun_induction copyBytes m dst src n with
  | case1 m dst src n hne ih =>
    have hn : n.toNat = (n - 1).toNat + 1 := by bv_omega
    rw [ih, hn, copyCells]
  | case2 m dst src n hne =>
    obtain rfl : n = 0 := not_not.mp hne
    rfl

end loops

/-! ## The functions -/

section functions

variable {m : Memory} {s c count dst src : BitVec 32}

theorem aligned_of_not (h : ¬ unaligned s = true) : s &&& 3 = 0 := by
  unfold unaligned lblocksize at h
  simpa using h

theorem Filled.rest {d a n : BitVec 32} {r : Memory × BitVec 32 × BitVec 32} (h : Filled m a n (byteOf d 0) r) :
    setBytes d r.1 r.2.1 r.2.2 = fillCells m a (byteOf d 0) n.toNat := by
  obtain ⟨k, hk, rfl⟩ := h
  rw [setBytes_eq, toNat_sub_ofNat hk, ← fillCells_add, Nat.add_sub_cancel' hk]

theorem Copied.rest {n : BitVec 32} {r : Memory × BitVec 32 × BitVec 32 × BitVec 32} (h : Copied m dst src n r) :
    copyBytes r.1 r.2.1 r.2.2.1 r.2.2.2 = copyCells m dst src n.toNat := by
  obtain ⟨k, hk, rfl⟩ := h
  rw [copyBytes_eq, toNat_sub_ofNat hk, ← copyCells_add, Nat.add_sub_cancel' hk]

theorem getLsbD_low (c : BitVec 32) (k : Nat) : (c &&& 0xff).getLsbD k = (decide (k < 8) && c.getLsbD k) := by
  have hmask : ∀ k < 32, (0xff : BitVec 32).getLsbD k = decide (k < 8) := by decide
  rw [BitVec.getLsbD_and, Bool.and_comm]
  by_cases hk : k < 32
  · rw [hmask k hk]
  · rw [BitVec.getLsbD_of_ge c k (by omega), Bool.and_false, Bool.and_false]

theorem rtMemset_eq (m : Memory) (s c count : BitVec 32) :
    rtMemset m s c count = (fillCells m s (byteOf c 0) count.toNat, s) := by
  have hlow : ∀ k, 8 ≤ k → (c &&& 0xff).getLsbD k = false := by
    intro k hk
    rw [getLsbD_low, decide_eq_false (by omega), Bool.false_and]
  have hbyte : byteOf (c &&& 0xff) 0 = byteOf c 0 := by
    refine congrArg UInt8.ofBitVec (BitVec.eq_of_getLsbD_eq fun j hj => ?_)
    rw [BitVec.getLsbD_extractLsb', BitVec.getLsbD_extractLsb', Nat.mul_zero, Nat.zero_add, getLsbD_low,
      decide_eq_true hj, Bool.true_and]
  have hfilled : Filled m s count (byteOf (c &&& 0xff) 0)
      (if ¬ count < lblocksize ∧ ¬ unaligned s = true then
        setWords (bufferOf (c &&& 0xff)) (setBlocks (bufferOf (c &&& 0xff)) m s count).1
          (setBlocks (bufferOf (c &&& 0xff)) m s count).2.1 (setBlocks (bufferOf (c &&& 0xff)) m s count).2.2
      else (m, s, count)) := by
    split_ifs
    · exact (setBlocks_filled (putLong_bufferOf hlow) m s count).trans (setWords_filled (putLong_bufferOf hlow) _ _ _)
    · exact .refl m s count _
  rw [← hbyte, ← hfilled.rest]
  rfl

theorem rtMemcpy_eq (m : Memory) (dst src count : BitVec 32) :
    rtMemcpy m dst src count = (copyCells m dst src count.toNat, dst) := by
  have hcopied : Copied m dst src count
      (if ¬ count < bigBlockSize ∧ ¬ (unaligned src = true ∨ unaligned dst = true) then
        copyWords (copyBlocks m dst src count).1 (copyBlocks m dst src count).2.1 (copyBlocks m dst src count).2.2.1
          (copyBlocks m dst src count).2.2.2
      else (m, dst, src, count)) := by
    split_ifs with hfast
    · obtain ⟨hsrc, hdst⟩ := not_or.mp hfast.2
      obtain ⟨hblocks, hdst', hsrc'⟩ := copyBlocks_copied (aligned_of_not hdst) (aligned_of_not hsrc) m count
      exact hblocks.trans (copyWords_copied hdst' hsrc' _ _)
    · exact .refl m dst src count
  rw [← hcopied.rest]
  rfl

/-- For all addresses and lengths, `rt_memset` and `rt_memcpy` are the loops over single bytes. No byte outside of the
range changes; those of the range are the lowest byte of `c`, or those of a source that is apart from the range. -/
theorem memset_memcpy_bytewise (m : Memory) (s c dst src count : BitVec 32) :
    rtMemset m s c count = (fillCells m s (byteOf c 0) count.toNat, s) ∧
      rtMemcpy m dst src count = (copyCells m dst src count.toNat, dst) ∧
      (∀ x, ¬ InRange s count.toNat x → (rtMemset m s c count).1 x = m x) ∧
      (∀ x, InRange s count.toNat x → (rtMemset m s c count).1 x = byteOf c 0) ∧
      (∀ x, ¬ InRange dst count.toNat x → (rtMemcpy m dst src count).1 x = m x) ∧
      (Apart dst src count.toNat → ∀ i < count.toNat,
        (rtMemcpy m dst src count).1 (dst + BitVec.ofNat 32 i) = m (src + BitVec.ofNat 32 i)) := by
  rw [rtMemset_eq, rtMemcpy_eq]
  exact ⟨rfl, rfl, fun x hx => fillCells_outside hx, fun x hx => fillCells_inside hx, fun x hx => copyCells_outside hx,
    fun happart i hi => copyCells_inside happart hi⟩

/-- Seven bytes from an odd address on are filled, and 24 from an aligned one are copied. -/
theorem memset_memcpy_bytewise_run :
    (rtMemset (fun a => UInt8.ofBitVec (a.setWidth 8)) 0x1001 0x141 7).1 0x1007 = 0x41 ∧
    (rtMemcpy (fun a => UInt8.ofBitVec (a.setWidth 8)) 0x2000 0x1000 24).1 0x2013 = 0x13 := by
  obtain ⟨-, -, -, hset, -, -⟩ := memset_memcpy_bytewise (fun a => UInt8.ofBitVec (a.setWidth 8)) 0x1001 0x141 0 0 7
  obtain ⟨-, -, -, -, -, hcopy⟩ := memset_memcpy_bytewise (fun a => UInt8.ofBitVec (a.setWidth 8)) 0 0 0x2000 0x1000 24
  exact ⟨hset _ ⟨6, by decide, rfl⟩, hcopy (by unfold Apart; decide) 19 (by decide)⟩

end functions

end ThyristorController.MemCopy
