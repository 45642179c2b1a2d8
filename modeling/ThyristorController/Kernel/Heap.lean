import ThyristorController.Kernel.RtDef
import ThyristorController.Lib.Bytes
import Mathlib.Data.List.Chain

/-!
# The heap (`src/mem.c`)

The heap is a region of memory that is divided into blocks. Each block starts with its `struct heap_mem`, which holds
the offsets of the next and of the previous block; the last one, `heap_end`, is never used. The functions read and
write these structures where they are, between the bytes of the users.

Addresses are offsets from `heap_ptr`, of 32 bits like `rt_size_t`. A call holds `heap_sem` wherever it looks at the
heap.
-/

namespace ThyristorController.Heaps

open Bytes

/-! ## The structures in memory -/

/-- `HEAP_MAGIC`. -/
def heapMagic : BitVec 16 := 0x1ea0

/-- `struct heap_mem`. -/
@[ext] structure HeapMem where
  magic : BitVec 16
  used : BitVec 16
  next : BitVec 32
  prev : BitVec 32
deriving DecidableEq

/-- `SIZEOF_STRUCT_MEM`. -/
def sizeofStructMem : BitVec 32 := rtAlign 12 rtAlignSize

/-- `MIN_SIZE`. -/
def minSize : BitVec 32 := 12

/-- `MIN_SIZE_ALIGNED`. -/
def minSizeAligned : BitVec 32 := rtAlign minSize rtAlignSize

@[simp] theorem sizeofStructMem_eq : sizeofStructMem = 12#32 := by decide

@[simp] theorem minSize_eq : minSize = 12#32 := rfl

@[simp] theorem minSizeAligned_eq : minSizeAligned = 12#32 := by decide

/-- The structure at an address. -/
def heapMem (m : Memory) (p : Nat) : HeapMem where
  magic := BitVec.ofNat 16 (load m p 2)
  used := BitVec.ofNat 16 (load m (p + 2) 2)
  next := BitVec.ofNat 32 (load m (p + 4) 4)
  prev := BitVec.ofNat 32 (load m (p + 8) 4)

/-- Write the structure at an address. -/
def putHeapMem (m : Memory) (p : Nat) (x : HeapMem) : Memory :=
  store (store (store (store m p 2 x.magic.toNat) (p + 2) 2 x.used.toNat) (p + 4) 4 x.next.toNat) (p + 8) 4 x.prev.toNat

theorem heapMem_put (m : Memory) (p : Nat) (x : HeapMem) : heapMem (putHeapMem m p x) p = x := by
  have hmod {w : Nat} (v : BitVec w) : BitVec.ofNat w (v.toNat % 2 ^ w) = v := by
    rw [Nat.mod_eq_of_lt v.isLt, BitVec.ofNat_toNat, BitVec.setWidth_eq]
  unfold heapMem putHeapMem
  ext1
  · dsimp only
    rw [load_store_apart (by omega), load_store_apart (by omega), load_store_apart (by omega), load_store]
    exact hmod x.magic
  · dsimp only
    rw [load_store_apart (by omega), load_store_apart (by omega), load_store]
    exact hmod x.used
  · dsimp only
    rw [load_store_apart (by omega), load_store]
    exact hmod x.next
  · dsimp only
    rw [load_store]
    exact hmod x.prev

theorem putHeapMem_outside {m : Memory} {p x : Nat} {y : HeapMem} (hx : x < p ∨ p + 12 ≤ x) :
    putHeapMem m p y x = m x := by
  unfold putHeapMem
  rw [store_outside (by omega), store_outside (by omega), store_outside (by omega), store_outside (by omega)]

theorem heapMem_congr {m m' : Memory} {p : Nat} (hm : ∀ x, p ≤ x → x < p + 12 → m' x = m x) :
    heapMem m' p = heapMem m p := by
  unfold heapMem
  rw [load_congr fun x hle hlt => hm x (by omega) (by omega), load_congr fun x hle hlt => hm x (by omega) (by omega),
    load_congr fun x hle hlt => hm x (by omega) (by omega), load_congr fun x hle hlt => hm x (by omega) (by omega)]

/-! ## The functions -/

/-- The memory from `heap_ptr` on, `lfree` and `mem_size_aligned`. -/
structure Heap where
  mem : Memory
  lfree : BitVec 32
  memSizeAligned : BitVec 32

namespace Heap

/-- `heap_end`. -/
def heapEnd (h : Heap) : BitVec 32 := h.memSizeAligned + sizeofStructMem

/-- The structure of the block at `p`. -/
def block (h : Heap) (p : BitVec 32) : HeapMem := heapMem h.mem p.toNat

/-- Set fields of the structure at `p`. -/
def modify (h : Heap) (p : BitVec 32) (f : HeapMem → HeapMem) : Heap :=
  { h with mem := putHeapMem h.mem p.toNat (f (h.block p)) }

/-- What both parts of `plug_holes` do to unite a block with the next one. -/
def unite (h : Heap) (mem nmem : BitVec 32) : Heap :=
  let h := if h.lfree = nmem then { h with lfree := mem } else h
  let h := h.modify mem fun x => { x with next := (h.block nmem).next }
  h.modify (h.block nmem).next fun x => { x with prev := mem }

/-- `plug_holes`, "plug hole forward". -/
def plugForward (h : Heap) (mem : BitVec 32) : Heap :=
  let nmem := (h.block mem).next
  if mem ≠ nmem ∧ (h.block nmem).used = 0 ∧ nmem ≠ h.heapEnd then h.unite mem nmem else h

/-- `plug_holes`, "plug hole backward". -/
def plugBackward (h : Heap) (mem : BitVec 32) : Heap :=
  let pmem := (h.block mem).prev
  if pmem ≠ mem ∧ (h.block pmem).used = 0 then h.unite pmem mem else h

/-- `plug_holes`; `none` is a failed assertion. -/
def plugHoles (h : Heap) (mem : BitVec 32) : Option Heap :=
  if mem < h.heapEnd ∧ (h.block mem).used = 0 then some ((h.plugForward mem).plugBackward mem) else none

/-- A loop that follows `next` and does not end within so many rounds does not end at all. -/
def rounds : Nat := 2 ^ 32

/-- The search loop of `rt_malloc`, from `ptr` on: a block, or no block; `none` if it does not end. -/
def search (h : Heap) (size : BitVec 32) : Nat → BitVec 32 → Option (Option (BitVec 32))
  | 0, _ => none
  | n + 1, ptr =>
    if ptr < h.memSizeAligned - size then
      let mem := h.block ptr
      if mem.used = 0 ∧ size ≤ mem.next - (ptr + sizeofStructMem) then some (some ptr) else h.search size n mem.next
    else some none

/-- The loop that moves `lfree` on to the next free block; `none` if it does not end. -/
def nextFree (h : Heap) : Nat → BitVec 32 → Option (BitVec 32)
  | 0, _ => none
  | n + 1, lfree =>
    if (h.block lfree).used ≠ 0 ∧ lfree ≠ h.heapEnd then h.nextFree n (h.block lfree).next else some lfree

/-- Create the structure of the remainder at `ptr2`, behind the block at `ptr`. -/
def remainder (h : Heap) (ptr ptr2 : BitVec 32) : Heap :=
  let h := h.modify ptr2 fun x => { x with magic := heapMagic, used := 0 }
  let h := h.modify ptr2 fun x => { x with next := (h.block ptr).next, prev := ptr }
  h.modify ptr fun x => { x with next := ptr2 }

/-- The block behind the remainder gets its `prev`. -/
def linkBack (h : Heap) (ptr2 : BitVec 32) : Heap :=
  if (h.block ptr2).next ≠ h.memSizeAligned + sizeofStructMem then
    h.modify (h.block ptr2).next fun x => { x with prev := ptr2 }
  else h

/-- What `rt_malloc` does to the block at `ptr` that it has found. -/
def useBlock (h : Heap) (size ptr : BitVec 32) : Heap :=
  let h :=
    if size + sizeofStructMem + minSizeAligned ≤ (h.block ptr).next - (ptr + sizeofStructMem) then
      let ptr2 := ptr + sizeofStructMem + size
      ((h.remainder ptr ptr2).modify ptr fun x => { x with used := 1 }).linkBack ptr2
    else h.modify ptr fun x => { x with used := 1 }
  h.modify ptr fun x => { x with magic := heapMagic }

/-- `rt_malloc`: the address of the data, or `RT_NULL`; `none` is a failed assertion or a loop that does not end. -/
def rtMalloc (h : Heap) (size : BitVec 32) : Option (Heap × Option (BitVec 32)) :=
  if size = 0 then some (h, none)
  else
    let size := rtAlign size rtAlignSize
    if h.memSizeAligned < size then some (h, none)
    else
      let size := if size < minSizeAligned then minSizeAligned else size
      match h.search size rounds h.lfree with
      | none => none
      | some none => some (h, none)
      | some (some mem) =>
        let h := h.useBlock size mem
        (if mem = h.lfree then h.nextFree rounds h.lfree else some h.lfree).bind fun lfree =>
          let h := { h with lfree := lfree }
          if mem + sizeofStructMem + size ≤ h.heapEnd ∧ (mem + sizeofStructMem).toNat % 4 = 0 then
            some (h, some (mem + sizeofStructMem))
          else none

/-- `rt_free`; `none` is a failed assertion. -/
def rtFree (h : Heap) : Option (BitVec 32) → Option Heap
  | none => some h
  | some rmem =>
    if rmem.toNat % 4 = 0 ∧ rmem < h.heapEnd then
      let mem := rmem - sizeofStructMem
      if (h.block mem).used ≠ 0 ∧ (h.block mem).magic = heapMagic then
        let h := h.modify mem fun x => { x with used := 0, magic := heapMagic }
        let h := if mem < h.lfree then { h with lfree := mem } else h
        h.plugHoles mem
      else none
    else none

/-- `rt_realloc`. -/
def rtRealloc (h : Heap) (rmem : Option (BitVec 32)) (newsize : BitVec 32) : Option (Heap × Option (BitVec 32)) :=
  let newsize := rtAlign newsize rtAlignSize
  if h.memSizeAligned < newsize then some (h, none)
  else if newsize = 0 then (h.rtFree rmem).map fun h => (h, none)
  else
    match rmem with
    | none => h.rtMalloc newsize
    | some rmem =>
      if h.heapEnd ≤ rmem then some (h, some rmem)
      else
        let ptr := rmem - sizeofStructMem
        let size := (h.block ptr).next - ptr - sizeofStructMem
        if size = newsize then some (h, some rmem)
        else if newsize + sizeofStructMem + minSize < size then
          let ptr2 := ptr + sizeofStructMem + newsize
          let h := (h.remainder ptr ptr2).linkBack ptr2
          let h := if ptr2 < h.lfree then { h with lfree := ptr2 } else h
          (h.plugHoles ptr2).map fun h => (h, some rmem)
        else
          (h.rtMalloc newsize).bind fun (h, nmem) =>
            match nmem with
            | none => some (h, none)
            | some nmem =>
              let n := if size < newsize then size else newsize
              let h := { h with mem := copy h.mem nmem.toNat rmem.toNat n.toNat }
              (h.rtFree (some rmem)).map fun h => (h, some nmem)

/-- `rt_calloc`. -/
def rtCalloc (h : Heap) (count size : BitVec 32) : Option (Heap × Option (BitVec 32)) :=
  (h.rtMalloc (count * size)).map fun (h, p) =>
    match p with
    | none => (h, none)
    | some p => ({ h with mem := fill h.mem p.toNat (count * size).toNat 0 }, some p)

end Heap

/-- `rt_system_heap_init`, in a memory with any contents; `none` if the region is too small. -/
def rtSystemHeapInit (m : Memory) (beginAddr endAddr : BitVec 32) : Option Heap :=
  let beginAlign := rtAlign beginAddr rtAlignSize
  let endAlign := rtAlignDown endAddr rtAlignSize
  if 2 * sizeofStructMem < endAlign ∧ beginAlign ≤ endAlign - 2 * sizeofStructMem then
    let memSizeAligned := endAlign - beginAlign - 2 * sizeofStructMem
    let h : Heap := { mem := m, lfree := 0, memSizeAligned := memSizeAligned }
    let h := h.modify 0 fun _ =>
      { magic := heapMagic, next := memSizeAligned + sizeofStructMem, prev := 0, used := 0 }
    some (h.modify (h.block 0).next fun _ =>
      { magic := heapMagic, used := 1, next := memSizeAligned + sizeofStructMem,
        prev := memSizeAligned + sizeofStructMem })
  else none

end ThyristorController.Heaps
