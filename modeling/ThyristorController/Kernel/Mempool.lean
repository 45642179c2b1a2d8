import ThyristorController.Kernel.IpcThreads
import ThyristorController.Kernel.RtDef
import ThyristorController.Lib.Bytes
import ThyristorController.Lib.Chain
import Mathlib.Data.List.Count

/-!
# A memory pool and its threads (`src/mempool.c`)

The area of a pool is divided into blocks. Each starts with a word of its own: in a free block it points to the next
free one, in a block that is handed out it points to the pool. `rt_mp_alloc` and `rt_mp_free` with any waiting time,
from threads and from interrupts, are modelled over the scheduler and over memory of bytes; `rt_mp_free` reads the
pool's address before it disables the interrupts, so it takes two steps. The users free what they hold, and write to
what they hold and outside of the area.

`Conserved` says that every block lies in the area and is in the free list or with one user, once.
`conserved_iff` says which pools have it in all runs: those whose size in bytes is a number of 32 bits.
-/

namespace ThyristorController.Mempools

open Transition SemThreads Bytes

/-! ## Pools in memory -/

/-- `struct rt_mempool`, without the list of threads. -/
structure RtMempool where
  startAddress : BitVec 32
  size : BitVec 32
  blockSize : BitVec 32
  blockList : BitVec 32
  blockTotalCount : BitVec 32
  blockFreeCount : BitVec 32

/-- `block_size + sizeof(rt_uint8_t *)`. -/
def stride (blockSize : BitVec 32) : BitVec 32 := blockSize + 4

/-- `*(rt_uint8_t **)a`. -/
def word (m : Memory) (a : BitVec 32) : BitVec 32 := BitVec.ofNat 32 (load m a.toNat 4)

/-- `*(rt_uint8_t **)a = v`. -/
def putWord (m : Memory) (a v : BitVec 32) : Memory := store m a.toNat 4 v.toNat

/-- `block_ptr + offset * (block_size + sizeof(rt_uint8_t *))`. -/
def blockAt (blockPtr blockSize : BitVec 32) (offset : Nat) : BitVec 32 :=
  blockPtr + BitVec.ofNat 32 offset * stride blockSize

/-- "initialize free block list", with the end of the list. -/
def initFreeBlocks (m : Memory) (blockPtr blockSize : BitVec 32) (count : Nat) : Memory :=
  let m := (List.range count).foldl
    (fun m offset => putWord m (blockAt blockPtr blockSize offset) (blockAt blockPtr blockSize (offset + 1))) m
  putWord m (blockPtr + (BitVec.ofNat 32 count - 1) * stride blockSize) 0

/-- The pool over `count` blocks. -/
def poolOf (start size blockSize count : BitVec 32) : RtMempool where
  startAddress := start
  size := size
  blockSize := blockSize
  blockList := start
  blockTotalCount := count
  blockFreeCount := count

/-- `rt_mp_init`; `none` is a failed assertion. Division by zero is zero, as on the processor. -/
def rtMpInit (m : Memory) (start size blockSize : BitVec 32) : Option (RtMempool × Memory) :=
  if start ≠ 0 ∧ 0 < size ∧ 0 < blockSize then
    let size := rtAlignDown size rtAlignSize
    let blockSize := rtAlign blockSize rtAlignSize
    let count := size / stride blockSize
    some (poolOf start size blockSize count, initFreeBlocks m start blockSize count.toNat)
  else none

/-- `rt_mp_create`, where `rt_malloc` returns `start`; for the size zero it returns `RT_NULL`. `none` is a failed
assertion or `RT_NULL`. -/
def rtMpCreate (m : Memory) (start blockCount blockSize : BitVec 32) : Option (RtMempool × Memory) :=
  if 0 < blockCount ∧ 0 < blockSize then
    let blockSize := rtAlign blockSize rtAlignSize
    let size := stride blockSize * blockCount
    if size = 0 ∨ start = 0 then none
    else some (poolOf start size blockSize blockCount, initFreeBlocks m start blockSize blockCount.toNat)
  else none

/-! ## The system -/

/-- The call that a thread is in, with its local variables `time` and `before_sleep`. -/
structure AllocCall where
  time : BitVec 32
  beforeSleep : BitVec 32
deriving DecidableEq

/-- `held` are the blocks that were returned to users and not freed since, with one entry for each return; `freeing`
are those whose `rt_mp_free` has read the pool's address, with this address. -/
structure MpState (τ : Type) where
  threads : IpcThreads τ Unit AllocCall
  pool : RtMempool
  mem : Memory
  held : List (BitVec 32)
  freeing : List (BitVec 32 × BitVec 32)
  tick : BitVec 32

/-- The running thread calls `rt_mp_alloc`, or goes on behind `rt_schedule`; an interrupt calls it; a user calls
`rt_mp_free` for a block that is held, and then it disables the interrupts; a user writes a byte; the tick counter
advances; `env` is everything else. -/
inductive MpAction (τ : Type) where
  | alloc (time : BitVec 32)
  | goOn
  | isrAlloc (time : BitVec 32)
  | free (block : BitVec 32)
  | freeLink (x : BitVec 32 × BitVec 32)
  | poke (a : Nat) (v : UInt8)
  | tick
  | env (a : EnvAction τ)

variable {τ : Type} [DecidableEq τ]

namespace MpState

/-- `thread->error = e`. -/
def setError (s : MpState τ) (t : τ) (e : Int) : MpState τ := { s with threads := s.threads.setError t e }

/-- The thread returns. -/
def leave (s : MpState τ) (t : τ) : MpState τ := { s with threads := s.threads.setPc t .idle }

/-- The blocks that are handed out, by the addresses of their first words. -/
def handedOut (s : MpState τ) : List (BitVec 32) := (s.held ++ s.freeing.map Prod.fst).map (· - 4)

/-- The user that gets the block holds it. -/
def give (s : MpState τ) (block : BitVec 32) : MpState τ :=
  if block = 0 then s else { s with held := block :: s.held }

end MpState

/-- The end of `rt_mp_alloc` of the pool at `mp`, with the block; `none` is a failed assertion. -/
def mpTake (mp : BitVec 32) (s : MpState τ) : Option (MpState τ × BitVec 32) :=
  let blockPtr := s.pool.blockList
  if blockPtr = 0 then none
  else
    some ({ s with
      pool := { s.pool with blockFreeCount := s.pool.blockFreeCount - 1, blockList := word s.mem blockPtr }
      mem := putWord s.mem blockPtr mp }, blockPtr + 4)

/-- The loop of `rt_mp_alloc` and what follows it, up to the next call of `rt_schedule`, with the block if it
returns. -/
def mpAllocLoop (mp : BitVec 32) (s : MpState τ) (t : τ) (time beforeSleep : BitVec 32) :
    Option (MpState τ × Option (BitVec 32)) :=
  if s.pool.blockFreeCount = 0 then
    if time = 0 then some ((s.setError t rtEtimeout).leave t, some 0)
    else
      let s := s.setError t rtEok
      let timed := (0#32).slt time
      -- `rt_list_insert_after` the head of the list
      (s.threads.suspendAt t () 0 timed ⟨time, if timed then s.tick else beforeSleep⟩).map
        fun w => ({ s with threads := w }, none)
  else (mpTake mp s).map fun (s, block) => (s.leave t, some block)

/-- `rt_mp_alloc` from its start. -/
def rtMpAlloc (mp : BitVec 32) (s : MpState τ) (t : τ) (time : BitVec 32) : Option (MpState τ × Option (BitVec 32)) :=
  mpAllocLoop mp s t time 0

/-- `rt_mp_alloc` from behind `rt_schedule`. -/
def mpAllocGoOn (mp : BitVec 32) (s : MpState τ) (t : τ) (call : AllocCall) :
    Option (MpState τ × Option (BitVec 32)) :=
  if s.threads.view.error t ≠ rtEok then some (s.leave t, some 0)
  else mpAllocLoop mp s t (remaining call.time call.beforeSleep s.tick) call.beforeSleep

/-- `rt_mp_alloc` in an interrupt, which may not wait. -/
def mpAllocIsr (mp : BitVec 32) (s : MpState τ) (time : BitVec 32) : Option (MpState τ × BitVec 32) :=
  if s.pool.blockFreeCount = 0 then if time = 0 then some (s, 0) else none
  else mpTake mp s

/-- `rt_mp_free`, up to where it disables the interrupts. -/
def rtMpFree (s : MpState τ) (block : BitVec 32) : MpState τ :=
  { s with held := s.held.erase block, freeing := (block, word s.mem (block - 4)) :: s.freeing }

/-- The critical section of `rt_mp_free`, with the pool at `mp`. -/
def mpFreeLink (s : MpState τ) (block : BitVec 32) : MpState τ :=
  let blockPtr := block - 4
  let s := { s with
    pool := { s.pool with blockFreeCount := s.pool.blockFreeCount + 1, blockList := blockPtr }
    mem := putWord s.mem blockPtr s.pool.blockList }
  match s.threads.view.waiting () with
  | [] => s
  | t :: _ =>
    let s := s.setError t rtEok
    { s with threads := s.threads.resume t }

/-- A user may write the byte: it is in a block that is held, or outside of the area. -/
def Writable (s : MpState τ) (a : Nat) : Prop :=
  (∃ b ∈ s.held, b.toNat ≤ a ∧ a < b.toNat + s.pool.blockSize.toNat) ∨ a < s.pool.startAddress.toNat ∨
    s.pool.startAddress.toNat + s.pool.size.toNat ≤ a

instance (s : MpState τ) (a : Nat) : Decidable (Writable s a) :=
  have : Decidable (∃ b ∈ s.held, b.toNat ≤ a ∧ a < b.toNat + s.pool.blockSize.toNat) := List.decidableBEx _ _
  inferInstanceAs (Decidable (_ ∨ _))

/-- A step of the system with the pool at `mp`. -/
def mpStep (mp : BitVec 32) (s : MpState τ) : MpAction τ → Option (MpState τ)
  | .alloc time => s.threads.caller.bind fun t =>
    (rtMpAlloc mp s t time).map fun (s, r) => s.give (r.getD 0)
  | .goOn => s.threads.returning.bind fun (t, call) =>
    (mpAllocGoOn mp s t call).map fun (s, r) => s.give (r.getD 0)
  | .isrAlloc time => (mpAllocIsr mp s time).map fun (s, block) => s.give block
  | .free block => if block ∈ s.held then some (rtMpFree s block) else none
  | .freeLink x =>
    if x ∈ s.freeing ∧ x.2 = mp then
      some { mpFreeLink s x.1 with freeing := s.freeing.erase x }
    else none
  | .poke a v => if Writable s a then some { s with mem := Function.update s.mem a v } else none
  | .tick => some { s with tick := s.tick + 1 }
  | .env a => (s.threads.envStep a).map fun w => { s with threads := w }

/-- How a pool is set up. -/
inductive MpSetup where
  | init (start size blockSize : BitVec 32)
  | create (start blockCount blockSize : BitVec 32)

def MpSetup.run (m : Memory) : MpSetup → Option (RtMempool × Memory)
  | .init start size blockSize => rtMpInit m start size blockSize
  | .create start blockCount blockSize => rtMpCreate m start blockCount blockSize

/-- The pool is set up with at least one block, in an area whose end is an address. -/
structure MpInit (setup : MpSetup) (s : MpState τ) : Prop where
  threads : s.threads.Init
  pool : ∃ m, setup.run m = some (s.pool, s.mem)
  positive : 0 < s.pool.blockTotalCount
  room : s.pool.startAddress.toNat + s.pool.size.toNat < 2 ^ 32
  held : s.held = []
  freeing : s.freeing = []

def mempool (τ : Type) [DecidableEq τ] (mp : BitVec 32) (setup : MpSetup) : System (MpState τ) (MpAction τ) where
  init := MpInit setup
  step := mpStep mp

/-! ## What is claimed of a pool -/

/-- The null pointer has no block. -/
def ptr (p : BitVec 32) : Option (BitVec 32) := if p = 0 then none else some p

/-- The block that a free block points to. -/
def nextFree (m : Memory) (b : BitVec 32) : Option (BitVec 32) := ptr (word m b)

/-- The first words of the blocks. -/
def RtMempool.blocks (p : RtMempool) : List (BitVec 32) :=
  (List.range p.blockTotalCount.toNat).map (blockAt p.startAddress p.blockSize)

theorem RtMempool.length_blocks (p : RtMempool) : p.blocks.length = p.blockTotalCount.toNat := by
  rw [blocks, List.length_map, List.length_range]

/-- The blocks are different and lie in the area; each is once in the free list or once with a user, and nothing else
is; and the counter is the length of the free list. -/
structure Conserved (s : MpState τ) : Prop where
  inside : ∀ b ∈ s.pool.blocks, s.pool.startAddress.toNat ≤ b.toNat ∧
    b.toNat + (stride s.pool.blockSize).toNat ≤ s.pool.startAddress.toNat + s.pool.size.toNat
  nodup : s.pool.blocks.Nodup
  once : ∃ free, Chain.Linked (nextFree s.mem) (ptr s.pool.blockList) free ∧
    s.pool.blockFreeCount.toNat = free.length ∧ (∀ b ∈ free ++ s.handedOut, b ∈ s.pool.blocks) ∧
    ∀ b ∈ s.pool.blocks, free.count b + s.handedOut.count b = 1

/-! ## The blocks -/

section words

variable {m m' : Memory} {a b v : BitVec 32}

theorem word_putWord (m : Memory) (a v : BitVec 32) : word (putWord m a v) a = v := by
  rw [word, putWord, load_store, show 256 ^ 4 = 2 ^ 32 from rfl, Nat.mod_eq_of_lt v.isLt, BitVec.ofNat_toNat,
    BitVec.setWidth_eq]

theorem word_putWord_apart (h : b.toNat + 4 ≤ a.toNat ∨ a.toNat + 4 ≤ b.toNat) :
    word (putWord m a v) b = word m b := by
  rw [word, putWord, load_store_apart h]
  rfl

theorem word_congr (h : ∀ x, b.toNat ≤ x → x < b.toNat + 4 → m' x = m x) : word m' b = word m b :=
  congrArg (BitVec.ofNat 32) (load_congr h)

theorem ptr_some (h : a ≠ 0) : ptr a = some a := if_neg h

end words

/-- The blocks lie in an area of the address space. -/
structure RtMempool.Lies (p : RtMempool) : Prop where
  start : 0 < p.startAddress.toNat
  positive : 0 < p.blockTotalCount.toNat
  fits : p.blockTotalCount.toNat * (p.blockSize.toNat + 4) ≤ p.size.toNat
  room : p.startAddress.toNat + p.size.toNat ≤ 2 ^ 32

/-- The blocks fit into the area. -/
structure RtMempool.Ok (p : RtMempool) : Prop where
  start : 0 < p.startAddress.toNat
  positive : 0 < p.blockTotalCount.toNat
  fits : p.blockTotalCount.toNat * (p.blockSize.toNat + 4) ≤ p.size.toNat
  room : p.startAddress.toNat + p.size.toNat < 2 ^ 32

namespace RtMempool.Lies

variable {p : RtMempool} {i j : Nat} {a b : BitVec 32}

theorem offset_le (h : p.Lies) (hi : i ≤ p.blockTotalCount.toNat) : i * (p.blockSize.toNat + 4) ≤ p.size.toNat :=
  (Nat.mul_le_mul_right _ hi).trans h.fits

theorem stride_eq (h : p.Lies) : (stride p.blockSize).toNat = p.blockSize.toNat + 4 := by
  have hle : p.blockSize.toNat + 4 ≤ p.blockTotalCount.toNat * (p.blockSize.toNat + 4) :=
    Nat.le_mul_of_pos_left _ h.positive
  have hfits := h.fits
  have hsize := p.size.isLt
  rw [stride, BitVec.toNat_add]
  exact Nat.mod_eq_of_lt (show p.blockSize.toNat + 4 < 2 ^ 32 by omega)

theorem end_le (h : p.Lies) (hi : i < p.blockTotalCount.toNat) :
    i * (p.blockSize.toNat + 4) + (p.blockSize.toNat + 4) ≤ p.size.toNat := by
  have hoff := h.offset_le (Nat.succ_le_of_lt hi)
  rwa [Nat.succ_mul] at hoff

theorem blockAt_toNat (h : p.Lies) (hi : i < p.blockTotalCount.toNat) :
    (blockAt p.startAddress p.blockSize i).toNat = p.startAddress.toNat + i * (p.blockSize.toNat + 4) := by
  have hend := h.end_le hi
  have hroom := h.room
  have hcount := p.blockTotalCount.isLt
  have hsize := p.size.isLt
  rw [blockAt, BitVec.toNat_add, BitVec.toNat_mul, h.stride_eq, BitVec.toNat_ofNat,
    Nat.mod_eq_of_lt (show i < 2 ^ 32 by omega),
    Nat.mod_eq_of_lt (show i * (p.blockSize.toNat + 4) < 2 ^ 32 by omega)]
  exact Nat.mod_eq_of_lt (by omega)

theorem mem_blocks (hb : b ∈ p.blocks) :
    ∃ i < p.blockTotalCount.toNat, blockAt p.startAddress p.blockSize i = b := by
  obtain ⟨i, hi, rfl⟩ := List.mem_map.mp hb
  exact ⟨i, List.mem_range.mp hi, rfl⟩

theorem inside (h : p.Lies) (hb : b ∈ p.blocks) : p.startAddress.toNat ≤ b.toNat ∧
    b.toNat + (p.blockSize.toNat + 4) ≤ p.startAddress.toNat + p.size.toNat := by
  obtain ⟨i, hi, rfl⟩ := mem_blocks hb
  have hend := h.end_le hi
  rw [h.blockAt_toNat hi]
  omega

theorem blockAt_apart (h : p.Lies) (hlt : i < j) (hj : j < p.blockTotalCount.toNat) :
    (blockAt p.startAddress p.blockSize i).toNat + (p.blockSize.toNat + 4) ≤
      (blockAt p.startAddress p.blockSize j).toNat := by
  have hle := Nat.mul_le_mul_right (p.blockSize.toNat + 4) (Nat.succ_le_of_lt hlt)
  rw [Nat.succ_mul] at hle
  rw [h.blockAt_toNat (by omega), h.blockAt_toNat hj]
  omega

theorem apart (h : p.Lies) (ha : a ∈ p.blocks) (hb : b ∈ p.blocks) (hne : a ≠ b) :
    a.toNat + (p.blockSize.toNat + 4) ≤ b.toNat ∨ b.toNat + (p.blockSize.toNat + 4) ≤ a.toNat := by
  obtain ⟨i, hi, rfl⟩ := mem_blocks ha
  obtain ⟨j, hj, rfl⟩ := mem_blocks hb
  rcases Nat.lt_trichotomy i j with hlt | rfl | hlt
  · exact .inl (h.blockAt_apart hlt hj)
  · exact absurd rfl hne
  · exact .inr (h.blockAt_apart hlt hi)

theorem nodup (h : p.Lies) : p.blocks.Nodup := by
  refine List.Nodup.map_on (fun i hi j hj he => ?_) List.nodup_range
  rcases Nat.lt_trichotomy i j with hlt | heq | hlt
  · have := h.blockAt_apart hlt (List.mem_range.mp hj)
    rw [he] at this
    omega
  · exact heq
  · have := h.blockAt_apart hlt (List.mem_range.mp hi)
    rw [he] at this
    omega

theorem ne_zero (h : p.Lies) (hb : b ∈ p.blocks) : b ≠ 0 := by
  rintro rfl
  have hle : p.startAddress.toNat ≤ 0 := (h.inside hb).1
  exact absurd h.start (by omega)

end RtMempool.Lies

theorem RtMempool.Ok.lies {p : RtMempool} (h : p.Ok) : p.Lies := ⟨h.start, h.positive, h.fits, h.room.le⟩

theorem RtMempool.Ok.user {p : RtMempool} {b : BitVec 32} (h : p.Ok) (hb : b ∈ p.blocks) :
    (b + 4).toNat = b.toNat + 4 := by
  have := (h.lies.inside hb).2
  have := h.room
  rw [BitVec.toNat_add]
  exact Nat.mod_eq_of_lt (show b.toNat + 4 < 2 ^ 32 by omega)

/-! ## The free list after the set-up -/

section setup

variable {m : Memory} {p : RtMempool} {n k : Nat}

theorem link_loop (h : p.Lies) (m : Memory) (hn : n ≤ p.blockTotalCount.toNat) (hk : k < n) :
    word ((List.range n).foldl (fun m offset => putWord m (blockAt p.startAddress p.blockSize offset)
      (blockAt p.startAddress p.blockSize (offset + 1))) m) (blockAt p.startAddress p.blockSize k) =
      blockAt p.startAddress p.blockSize (k + 1) := by
  induction n with
  | zero => omega
  | succ n ih =>
    rw [List.range_succ, List.foldl_append, List.foldl_cons, List.foldl_nil]
    rcases Nat.lt_or_ge k n with hlt | hge
    · have happart := h.blockAt_apart hlt (show n < _ by omega)
      rw [word_putWord_apart (.inl (by omega))]
      exact ih (by omega) hlt
    · obtain rfl : k = n := by omega
      exact word_putWord _ _ _

theorem lastBlock_eq (h : p.Lies) :
    p.startAddress + (BitVec.ofNat 32 p.blockTotalCount.toNat - 1) * stride p.blockSize =
      blockAt p.startAddress p.blockSize (p.blockTotalCount.toNat - 1) := by
  have hsub : BitVec.ofNat 32 p.blockTotalCount.toNat - 1 = BitVec.ofNat 32 (p.blockTotalCount.toNat - 1) := by
    have := h.positive
    apply BitVec.eq_of_toNat_eq
    simp only [BitVec.ofNat_toNat, BitVec.setWidth_eq]
    bv_omega
  rw [hsub]
  rfl

theorem word_initFreeBlocks (h : p.Lies) (m : Memory) (hk : k < p.blockTotalCount.toNat) :
    word (initFreeBlocks m p.startAddress p.blockSize p.blockTotalCount.toNat) (blockAt p.startAddress p.blockSize k) =
      if k + 1 < p.blockTotalCount.toNat then blockAt p.startAddress p.blockSize (k + 1) else 0 := by
  unfold initFreeBlocks
  rw [lastBlock_eq h]
  by_cases hlt : k + 1 < p.blockTotalCount.toNat
  · rw [if_pos hlt]
    have happart := h.blockAt_apart (show k < p.blockTotalCount.toNat - 1 by omega) (by omega)
    rw [word_putWord_apart (.inl (by omega))]
    exact link_loop h m le_rfl hk
  · obtain rfl : k = p.blockTotalCount.toNat - 1 := by omega
    rw [if_neg hlt]
    exact word_putWord _ _ _

theorem linked_initFreeBlocks (h : p.Lies) (m : Memory) :
    Chain.Linked (nextFree (initFreeBlocks m p.startAddress p.blockSize p.blockTotalCount.toNat)) (ptr p.startAddress)
      p.blocks := by
  have hfrom (n : Nat) : ∀ k, k + n = p.blockTotalCount.toNat →
      Chain.Linked (nextFree (initFreeBlocks m p.startAddress p.blockSize p.blockTotalCount.toNat))
        (ptr (if k < p.blockTotalCount.toNat then blockAt p.startAddress p.blockSize k else 0))
        ((List.range' k n).map (blockAt p.startAddress p.blockSize)) := by
    induction n with
    | zero =>
      intro k hk
      rw [if_neg (by omega)]
      rfl
    | succ n ih =>
      intro k hk
      have hlt : k < p.blockTotalCount.toNat := by omega
      rw [if_pos hlt, List.range'_succ, List.map_cons]
      refine ⟨ptr_some (h.ne_zero (List.mem_map_of_mem (List.mem_range.mpr hlt))), ?_⟩
      rw [nextFree, word_initFreeBlocks h m hlt]
      exact ih (k + 1) (by omega)
  have hall := hfrom p.blockTotalCount.toNat 0 (Nat.zero_add _)
  rw [if_pos h.positive, ← List.range_eq_range'] at hall
  have hzero : blockAt p.startAddress p.blockSize 0 = p.startAddress := by
    rw [blockAt, BitVec.zero_mul, BitVec.add_zero]
  rw [hzero] at hall
  exact hall

theorem initFreeBlocks_outside (h : p.Lies) (m : Memory) {x : Nat}
    (hx : x < p.startAddress.toNat ∨ p.startAddress.toNat + p.size.toNat ≤ x) :
    initFreeBlocks m p.startAddress p.blockSize p.blockTotalCount.toNat x = m x := by
  have hput (m : Memory) (v : BitVec 32) {i : Nat} (hi : i < p.blockTotalCount.toNat) :
      putWord m (blockAt p.startAddress p.blockSize i) v x = m x := by
    have hend := h.end_le hi
    have hat := h.blockAt_toNat hi
    exact store_outside (by omega)
  have hloop (n : Nat) (hn : n ≤ p.blockTotalCount.toNat) :
      (List.range n).foldl (fun m offset => putWord m (blockAt p.startAddress p.blockSize offset)
        (blockAt p.startAddress p.blockSize (offset + 1))) m x = m x := by
    induction n with
    | zero => rfl
    | succ n ih =>
      rw [List.range_succ, List.foldl_append, List.foldl_cons, List.foldl_nil, hput _ _ hn]
      exact ih (Nat.le_of_succ_le hn)
  have hpos := h.positive
  unfold initFreeBlocks
  rw [lastBlock_eq h, hput _ _ (Nat.sub_lt hpos Nat.one_pos)]
  exact hloop _ le_rfl

end setup

/-! ## `rt_mp_init` -/

/-- What `rt_mp_init` promises for an area, in every memory: no byte outside of it changes, and the free list has as
many blocks as there is room for. -/
def InitOk (start size blockSize : BitVec 32) : Prop :=
  ∀ m p m', rtMpInit m start size blockSize = some (p, m') →
    (∀ x, x < start.toNat ∨ start.toNat + size.toNat ≤ x → m' x = m x) ∧
    ∃ free, Chain.Linked (nextFree m') (ptr p.blockList) free ∧ free.Nodup ∧
      free.length = size.toNat / ((rtAlign blockSize rtAlignSize).toNat + 4)

section init

variable {start size blockSize : BitVec 32}

/-- Aligned block sizes do not wrap with the word in front, unless the stride is zero. -/
theorem stride_rtAlign (size : BitVec 32) (h : stride (rtAlign size rtAlignSize) ≠ 0) :
    (stride (rtAlign size rtAlignSize)).toNat = (rtAlign size rtAlignSize).toNat + 4 := by
  have halign := rtAlign_toNat size
  have hlt := (rtAlign size rtAlignSize).isLt
  generalize rtAlign size rtAlignSize = x at halign hlt h ⊢
  have hne : x.toNat ≠ 2 ^ 32 - 4 := fun he => h (by
    rw [stride]
    bv_omega)
  rw [stride]
  bv_omega

/-- The number of the blocks does not depend on how the size of the area is rounded. -/
theorem rounded_div (size k : Nat) : size / 4 * 4 / (k / 4 * 4 + 4) = size / (k / 4 * 4 + 4) := by
  rw [← Nat.succ_mul, Nat.mul_div_mul_right _ _ (by decide), Nat.mul_comm, Nat.div_div_eq_div_mul]

theorem stride_of_room (hfits : (rtAlign blockSize rtAlignSize).toNat + 4 ≤ size.toNat) :
    (stride (rtAlign blockSize rtAlignSize)).toNat = (rtAlign blockSize rtAlignSize).toNat + 4 := by
  rw [stride, BitVec.toNat_add]
  exact Nat.mod_eq_of_lt (hfits.trans_lt size.isLt)

theorem count_of_stride (size : BitVec 32) (hstride : (stride (rtAlign blockSize rtAlignSize)).toNat =
    (rtAlign blockSize rtAlignSize).toNat + 4) :
    (rtAlignDown size rtAlignSize / stride (rtAlign blockSize rtAlignSize)).toNat =
      size.toNat / ((rtAlign blockSize rtAlignSize).toNat + 4) := by
  rw [BitVec.toNat_udiv, hstride, rtAlignDown_toNat, rtAlign_toNat]
  exact rounded_div _ _

theorem rtAlignDown_le (size : BitVec 32) : (rtAlignDown size rtAlignSize).toNat ≤ size.toNat := by
  rw [rtAlignDown_toNat]
  exact Nat.div_mul_le_self _ _

/-- The pool that `rt_mp_init` makes in an area with room for a block. -/
theorem lies_poolOf (hstart : start ≠ 0) (hroom : start.toNat + size.toNat ≤ 2 ^ 32)
    (hfits : (rtAlign blockSize rtAlignSize).toNat + 4 ≤ size.toNat) :
    (poolOf start (rtAlignDown size rtAlignSize) (rtAlign blockSize rtAlignSize)
      (rtAlignDown size rtAlignSize / stride (rtAlign blockSize rtAlignSize))).Lies := by
  have hstride := stride_of_room hfits
  have hcount := count_of_stride size hstride
  refine ⟨?_, ?_, ?_, ?_⟩
  · exact Nat.pos_of_ne_zero fun hzero => hstart (BitVec.eq_of_toNat_eq hzero)
  · show 0 < (rtAlignDown size rtAlignSize / stride (rtAlign blockSize rtAlignSize)).toNat
    rw [hcount]
    exact Nat.div_pos hfits (by omega)
  · show (rtAlignDown size rtAlignSize / stride (rtAlign blockSize rtAlignSize)).toNat *
      ((rtAlign blockSize rtAlignSize).toNat + 4) ≤ (rtAlignDown size rtAlignSize).toNat
    rw [← hstride, BitVec.toNat_udiv]
    exact Nat.div_mul_le_self _ _
  · exact (Nat.add_le_add_left (rtAlignDown_le size) _).trans hroom

theorem rtMpInit_eq (m : Memory) (hstart : start ≠ 0) (hsize : 0 < size) (hblock : 0 < blockSize) :
    rtMpInit m start size blockSize = some (poolOf start (rtAlignDown size rtAlignSize)
      (rtAlign blockSize rtAlignSize) (rtAlignDown size rtAlignSize / stride (rtAlign blockSize rtAlignSize)),
      initFreeBlocks m start (rtAlign blockSize rtAlignSize)
        (rtAlignDown size rtAlignSize / stride (rtAlign blockSize rtAlignSize)).toNat) :=
  if_pos ⟨hstart, hsize, hblock⟩

/-- `rt_mp_init` keeps its promise exactly for the areas that have room for a block. -/
theorem rtMpInit_ok_iff (hstart : start ≠ 0) (hsize : 0 < size) (hblock : 0 < blockSize)
    (hroom : start.toNat + size.toNat ≤ 2 ^ 32) :
    InitOk start size blockSize ↔ (rtAlign blockSize rtAlignSize).toNat + 4 ≤ size.toNat := by
  constructor
  · intro hok
    by_contra hsmall
    obtain ⟨-, free, hlinked, -, hlength⟩ := hok (fun _ => 0) _ _ (rtMpInit_eq _ hstart hsize hblock)
    rw [Nat.div_eq_of_lt (Nat.lt_of_not_le hsmall)] at hlength
    rw [List.length_eq_zero_iff.mp hlength] at hlinked
    -- the list begins with the first block all the same
    rw [Chain.Linked, show (poolOf start _ _ _).blockList = start from rfl, ptr_some hstart] at hlinked
    cases hlinked
  · intro hfits m p m' hp
    obtain ⟨rfl, rfl⟩ := Prod.mk.inj (Option.some.inj ((rtMpInit_eq m hstart hsize hblock).symm.trans hp))
    have hlies := lies_poolOf hstart hroom hfits
    have hdown := rtAlignDown_le size
    refine ⟨fun x hx => initFreeBlocks_outside hlies m ?_, _, linked_initFreeBlocks hlies m, hlies.nodup, ?_⟩
    · show x < start.toNat ∨ start.toNat + (rtAlignDown size rtAlignSize).toNat ≤ x
      omega
    · rw [RtMempool.length_blocks]
      exact count_of_stride _ (stride_of_room hfits)

/-- An area of 26 bytes has room for two blocks of eight bytes; one of 8 bytes has room for none. -/
theorem rtMpInit_ok_iff_run : InitOk 0x1000 26 6 ∧ ¬ InitOk 0x1000 8 8 :=
  ⟨(rtMpInit_ok_iff (by decide) (by decide) (by decide) (by decide)).mpr (by decide),
    fun hok => absurd ((rtMpInit_ok_iff (by decide) (by decide) (by decide) (by decide)).mp hok) (by decide)⟩

/-- For an area of 8 bytes and blocks of 8 bytes, the end of the list is written 12 bytes in front of the area. -/
theorem end_in_front_of_the_area : (rtMpInit (fun _ => 0xff) 0x1000 8 8).map (fun r =>
      (r.1.blockTotalCount, r.1.blockList, r.2 0xff4)) = some (0, 0x1000, 0) ∧ ¬ InitOk 0x1000 8 8 := by
  have hrun : (rtMpInit (fun _ => 0xff) 0x1000 8 8).map (fun r => (r.1.blockTotalCount, r.1.blockList, r.2 0xff4)) =
      some (0, 0x1000, 0) := by decide +kernel
  refine ⟨hrun, fun hok => ?_⟩
  obtain ⟨⟨p, m'⟩, hinit, hwritten⟩ := Option.map_eq_some_iff.mp hrun
  have hsame := (hok _ p m' hinit).1 0xff4 (by decide)
  obtain ⟨-, -, hbyte⟩ : _ ∧ _ ∧ m' 0xff4 = 0 := by simpa using hwritten
  rw [hbyte] at hsame
  exact absurd hsame (by decide)

end init

/-! ## The invariant -/

/-- The invariant of the pool at `mp`, with its free list. A block that is handed out has the pool's address. -/
structure MpInv (mp : BitVec 32) (s : MpState τ) (free : List (BitVec 32)) : Prop where
  pool : s.pool.Ok
  linked : Chain.Linked (nextFree s.mem) (ptr s.pool.blockList) free
  count : s.pool.blockFreeCount.toNat = free.length
  perm : (free ++ s.handedOut).Perm s.pool.blocks
  owner : ∀ b ∈ s.handedOut, word s.mem b = mp
  freeing : ∀ x ∈ s.freeing, x.2 = mp

section steps

variable {mp : BitVec 32} {s s' : MpState τ} {free : List (BitVec 32)} {b block time delta : BitVec 32} {t : τ}

omit [DecidableEq τ] in
theorem MpInv.free_block (h : MpInv mp s free) (hb : b ∈ free) : b ∈ s.pool.blocks :=
  h.perm.subset (List.mem_append_left _ hb)

omit [DecidableEq τ] in
theorem MpInv.out_block (h : MpInv mp s free) (hb : b ∈ s.handedOut) : b ∈ s.pool.blocks :=
  h.perm.subset (List.mem_append_right _ hb)

omit [DecidableEq τ] in
theorem MpInv.nodup (h : MpInv mp s free) : (free ++ s.handedOut).Nodup := h.perm.nodup_iff.mpr h.pool.lies.nodup

omit [DecidableEq τ] in
theorem MpInv.not_out (h : MpInv mp s free) (hb : b ∈ free) : b ∉ s.handedOut := fun hout =>
  (List.nodup_append.mp h.nodup).2.2 b hb b hout rfl

omit [DecidableEq τ] in
theorem MpInv.held_block (h : MpInv mp s free) (hb : block ∈ s.held) :
    block - 4 ∈ s.pool.blocks ∧ block.toNat = (block - 4).toNat + 4 := by
  have hm : block - 4 ∈ s.pool.blocks := h.out_block (List.mem_map_of_mem (List.mem_append_left _ hb))
  have huser := h.pool.user hm
  rw [BitVec.sub_add_cancel] at huser
  exact ⟨hm, huser⟩

omit [DecidableEq τ] in
theorem MpInv.conserved (h : MpInv mp s free) : Conserved s where
  inside b hb := by
    rw [h.pool.lies.stride_eq]
    exact h.pool.lies.inside hb
  nodup := h.pool.lies.nodup
  once := by
    refine ⟨free, h.linked, h.count, fun b hb => h.perm.subset hb, fun b hb => ?_⟩
    rw [← List.count_append]
    exact List.count_eq_one_of_mem h.nodup (h.perm.mem_iff.mpr hb)

omit [DecidableEq τ] in
theorem MpInv.frame (h : MpInv mp s free) (hpool : s'.pool = s.pool) (hmem : s'.mem = s.mem) (hheld : s'.held = s.held)
    (hfreeing : s'.freeing = s.freeing) : MpInv mp s' free := by
  have hout : s'.handedOut = s.handedOut := by rw [MpState.handedOut, MpState.handedOut, hheld, hfreeing]
  obtain ⟨h₁, h₂, h₃, h₄, h₅, h₆⟩ := h
  refine ⟨?_, ?_, ?_, ?_, ?_, ?_⟩
  · rwa [hpool]
  · rwa [hpool, hmem]
  · rwa [hpool]
  · rwa [hpool, hout]
  · rwa [hout, hmem]
  · rwa [hfreeing]

/-- What a step does with the pool: it keeps the invariant, and the pool its place. -/
def Keeps (mp : BitVec 32) (s' : MpState τ) : Prop := ∃ free, MpInv mp s' free

omit [DecidableEq τ] in
/-- A word is written to one block; the links of the others are kept. -/
theorem MpInv.linked_putWord {l : List (BitVec 32)} {p v : BitVec 32} (h : MpInv mp s free) (hb : b ∈ s.pool.blocks)
    (hl : ∀ a ∈ l, a ∈ s.pool.blocks) (hnot : b ∉ l) (hlinked : Chain.Linked (nextFree s.mem) (ptr p) l) :
    Chain.Linked (nextFree (putWord s.mem b v)) (ptr p) l := by
  refine hlinked.congr fun a ha => ?_
  have happart := h.pool.lies.apart (hl a ha) hb fun he => hnot (he ▸ ha)
  rw [nextFree, word_putWord_apart (by omega)]
  rfl

omit [DecidableEq τ] in
theorem mpTake_spec (h : MpInv mp s free) (hcount : s.pool.blockFreeCount ≠ 0) :
    ∃ s' block, mpTake mp s = some (s', block) ∧ Keeps mp (s'.give block) := by
  cases free with
  | nil =>
    have hzero : s.pool.blockFreeCount = 0 := BitVec.eq_of_toNat_eq h.count
    exact absurd hzero hcount
  | cons b rest =>
    obtain ⟨hhead, hrest⟩ := h.linked
    have hb : b ∈ s.pool.blocks := h.free_block List.mem_cons_self
    have hlist : s.pool.blockList = b := by
      unfold ptr at hhead
      split_ifs at hhead
      exact Option.some.inj hhead
    have hne : s.pool.blockList ≠ 0 := hlist ▸ h.pool.lies.ne_zero hb
    have hnot : b ∉ rest := (List.nodup_cons.mp (List.nodup_append.mp h.nodup).1).1
    have huser : b + 4 ≠ 0 := fun he => by
      have := h.pool.user hb
      rw [he] at this
      exact absurd this (by simp)
    unfold mpTake
    dsimp only
    rw [if_neg hne, hlist]
    refine ⟨_, _, rfl, rest, ?_⟩
    rw [MpState.give, if_neg huser]
    have hout : MpState.handedOut (τ := τ) { s with held := (b + 4) :: s.held } = b :: s.handedOut := by
      have hback : b + 4 - 4 = b := BitVec.add_sub_cancel ..
      rw [MpState.handedOut, List.cons_append, List.map_cons, hback]
      rfl
    refine ⟨⟨h.pool.start, h.pool.positive, h.pool.fits, h.pool.room⟩, ?_, ?_, ?_, fun a ha => ?_, h.freeing⟩
    · exact h.linked_putWord hb (fun a ha => h.free_block (List.mem_cons_of_mem _ ha)) hnot hrest
    · have hlen := h.count
      rw [List.length_cons] at hlen
      show (s.pool.blockFreeCount - 1).toNat = rest.length
      bv_omega
    · show (rest ++ MpState.handedOut { s with held := (b + 4) :: s.held }).Perm s.pool.blocks
      rw [hout]
      exact List.perm_middle.trans h.perm
    · have ha : a ∈ b :: s.handedOut := hout ▸ ha
      show word (putWord s.mem b mp) a = mp
      rcases List.mem_cons.mp ha with rfl | ha
      · exact word_putWord _ _ _
      · have hab : a ≠ b := fun he => h.not_out List.mem_cons_self (he ▸ ha)
        have happart := h.pool.lies.apart (h.out_block ha) hb hab
        rw [word_putWord_apart (by omega)]
        exact h.owner a ha

theorem mpAllocLoop_spec {r : Option (BitVec 32)} (h : MpInv mp s free)
    (hs : mpAllocLoop mp s t time delta = some (s', r)) : Keeps mp (s'.give (r.getD 0)) := by
  unfold mpAllocLoop at hs
  by_cases hcount : s.pool.blockFreeCount = 0
  · rw [if_pos hcount] at hs
    by_cases htime : time = 0
    · rw [if_pos htime] at hs
      obtain ⟨rfl, rfl⟩ := Prod.mk.inj (Option.some.inj hs)
      exact ⟨free, h.frame rfl rfl rfl rfl⟩
    · rw [if_neg htime] at hs
      obtain ⟨w, -, heq⟩ := Option.map_eq_some_iff.mp hs
      obtain ⟨rfl, rfl⟩ := Prod.mk.inj heq
      exact ⟨free, h.frame rfl rfl rfl rfl⟩
  · rw [if_neg hcount] at hs
    obtain ⟨s₁, block, htake, free₁, h₁⟩ := mpTake_spec h hcount
    rw [htake] at hs
    obtain ⟨rfl, rfl⟩ := Prod.mk.inj (Option.some.inj hs)
    refine ⟨free₁, h₁.frame ?_ ?_ ?_ ?_⟩
    all_goals
      unfold MpState.give
      simp only [Option.getD_some]
      split_ifs <;> rfl

theorem mpAllocGoOn_spec {call : AllocCall} {r : Option (BitVec 32)} (h : MpInv mp s free)
    (hs : mpAllocGoOn mp s t call = some (s', r)) : Keeps mp (s'.give (r.getD 0)) := by
  unfold mpAllocGoOn at hs
  split_ifs at hs
  · obtain ⟨rfl, rfl⟩ := Prod.mk.inj (Option.some.inj hs)
    exact ⟨free, h.frame rfl rfl rfl rfl⟩
  · exact mpAllocLoop_spec h hs

omit [DecidableEq τ] in
theorem mpAllocIsr_spec (h : MpInv mp s free) (hs : mpAllocIsr mp s time = some (s', block)) :
    Keeps mp (s'.give block) := by
  unfold mpAllocIsr at hs
  by_cases hcount : s.pool.blockFreeCount = 0
  · rw [if_pos hcount] at hs
    obtain ⟨-, hs⟩ := Option.ite_none_right_eq_some.mp hs
    obtain ⟨rfl, rfl⟩ := Prod.mk.inj (Option.some.inj hs)
    exact ⟨free, h⟩
  · rw [if_neg hcount] at hs
    obtain ⟨s₁, block₁, htake, hkeeps⟩ := mpTake_spec h hcount
    obtain ⟨rfl, rfl⟩ := Prod.mk.inj (Option.some.inj (htake.symm.trans hs))
    exact hkeeps

omit [DecidableEq τ] in
theorem rtMpFree_spec (h : MpInv mp s free) (hb : block ∈ s.held) : Keeps mp (rtMpFree s block) := by
  have howner : word s.mem (block - 4) = mp := h.owner _ (List.mem_map_of_mem (List.mem_append_left _ hb))
  have hperm : (rtMpFree s block).handedOut.Perm s.handedOut := by
    refine List.Perm.map _ ?_
    exact List.perm_middle.trans ((List.perm_cons_erase hb).symm.append_right _)
  refine ⟨free, h.pool, h.linked, h.count, (hperm.append_left _).trans h.perm,
    fun a ha => h.owner a (hperm.subset ha), fun x hx => ?_⟩
  rcases List.mem_cons.mp hx with rfl | hx
  · exact howner
  · exact h.freeing x hx

theorem mpFreeLink_eq (s : MpState τ) (block : BitVec 32) : ∃ w, mpFreeLink s block = { s with
    threads := w
    pool := { s.pool with blockFreeCount := s.pool.blockFreeCount + 1, blockList := block - 4 }
    mem := putWord s.mem (block - 4) s.pool.blockList } := by
  unfold mpFreeLink
  dsimp only
  split
  · exact ⟨_, rfl⟩
  · exact ⟨_, rfl⟩

theorem mpFreeLink_spec {x : BitVec 32 × BitVec 32} (h : MpInv mp s free) (hx : x ∈ s.freeing) :
    Keeps mp { mpFreeLink s x.1 with freeing := s.freeing.erase x } := by
  obtain ⟨w, hw⟩ := mpFreeLink_eq s x.1
  rw [hw]
  have hperm : (s.held ++ s.freeing.map Prod.fst).Perm (x.1 :: (s.held ++ (s.freeing.erase x).map Prod.fst)) :=
    (((List.perm_cons_erase hx).map Prod.fst).append_left s.held).trans List.perm_middle
  have hout : s.handedOut.Perm ((x.1 - 4) :: ((s.held ++ (s.freeing.erase x).map Prod.fst).map (· - 4))) :=
    hperm.map (· - 4)
  have hm : x.1 - 4 ∈ s.handedOut := hout.mem_iff.mpr List.mem_cons_self
  have hb : x.1 - 4 ∈ s.pool.blocks := h.out_block hm
  have hnot : x.1 - 4 ∉ free := fun hf => h.not_out hf hm
  have hnodup := hout.nodup_iff.mp (List.nodup_append.mp h.nodup).2.1
  refine ⟨(x.1 - 4) :: free, ⟨h.pool.start, h.pool.positive, h.pool.fits, h.pool.room⟩, ⟨?_, ?_⟩, ?_, ?_,
    fun a ha => ?_, fun y hy => h.freeing y (List.mem_of_mem_erase hy)⟩
  · exact ptr_some (h.pool.lies.ne_zero hb)
  · rw [nextFree, word_putWord]
    exact h.linked_putWord hb (fun a ha => h.free_block ha) hnot h.linked
  · have hlen := h.perm.length_eq
    rw [List.length_append, hout.length_eq, List.length_cons, RtMempool.length_blocks, ← h.count] at hlen
    have hcount := s.pool.blockTotalCount.isLt
    show (s.pool.blockFreeCount + 1).toNat = (_ :: free).length
    rw [List.length_cons, ← h.count]
    bv_omega
  · exact (List.perm_middle.symm.trans (hout.symm.append_left free)).trans h.perm
  · have hmem : a ∈ s.handedOut := hout.mem_iff.mpr (List.mem_cons_of_mem _ ha)
    have hab : a ≠ x.1 - 4 := fun he => (List.nodup_cons.mp hnodup).1 (he ▸ ha)
    have happart := h.pool.lies.apart (h.out_block hmem) hb hab
    show word (putWord s.mem (x.1 - 4) _) a = mp
    rw [word_putWord_apart (by omega)]
    exact h.owner a hmem

omit [DecidableEq τ] in
theorem MpInv.word_poke {a : Nat} (h : MpInv mp s free) (hw : Writable s a) (hb : b ∈ s.pool.blocks) (v : UInt8) :
    word (Function.update s.mem a v) b = word s.mem b := by
  refine word_congr fun x hle hlt => Function.update_of_ne ?_ _ _
  have hinside := h.pool.lies.inside hb
  rcases hw with ⟨c, hc, hca, hlta⟩ | hlow | hhigh
  · obtain ⟨hblock, hnat⟩ := h.held_block hc
    by_cases hbc : b = c - 4
    · subst hbc
      omega
    · have happart := h.pool.lies.apart hb hblock hbc
      omega
  · omega
  · omega

omit [DecidableEq τ] in
theorem poke_spec {a : Nat} {v : UInt8} (h : MpInv mp s free) (hw : Writable s a) :
    Keeps mp { s with mem := Function.update s.mem a v } := by
  refine ⟨free, h.pool, h.linked.congr fun b hb => ?_, h.count, h.perm, fun b hb => ?_, h.freeing⟩
  · rw [nextFree, h.word_poke hw (h.free_block hb)]
    rfl
  · show word (Function.update s.mem a v) b = mp
    rw [h.word_poke hw (h.out_block hb)]
    exact h.owner b hb

theorem mpStep_spec {a : MpAction τ} (h : MpInv mp s free) (hs : mpStep mp s a = some s') : Keeps mp s' := by
  cases a with
  | alloc time =>
    obtain ⟨t, -, hs⟩ := Option.bind_eq_some_iff.mp hs
    obtain ⟨⟨s₁, r⟩, halloc, rfl⟩ := Option.map_eq_some_iff.mp hs
    exact mpAllocLoop_spec h halloc
  | goOn =>
    obtain ⟨⟨t, call⟩, -, hs⟩ := Option.bind_eq_some_iff.mp hs
    obtain ⟨⟨s₁, r⟩, hgo, rfl⟩ := Option.map_eq_some_iff.mp hs
    exact mpAllocGoOn_spec h hgo
  | isrAlloc time =>
    obtain ⟨⟨s₁, block⟩, halloc, rfl⟩ := Option.map_eq_some_iff.mp hs
    exact mpAllocIsr_spec h halloc
  | free block =>
    obtain ⟨hb, hs⟩ := Option.ite_none_right_eq_some.mp hs
    obtain rfl := Option.some.inj hs
    exact rtMpFree_spec h hb
  | freeLink x =>
    obtain ⟨hx, hs⟩ := Option.ite_none_right_eq_some.mp hs
    obtain rfl := Option.some.inj hs
    exact mpFreeLink_spec h hx.1
  | poke a v =>
    obtain ⟨hw, hs⟩ := Option.ite_none_right_eq_some.mp hs
    obtain rfl := Option.some.inj hs
    exact poke_spec h hw
  | tick =>
    obtain rfl := Option.some.inj hs
    exact ⟨free, h.frame rfl rfl rfl rfl⟩
  | env a =>
    obtain ⟨w, -, rfl⟩ := Option.map_eq_some_iff.mp hs
    exact ⟨free, h.frame rfl rfl rfl rfl⟩

end steps

/-! ## All runs -/

/-- The size of the pool in bytes is a number of 32 bits; `rt_mp_init` computes the number of blocks from it. -/
def MpSetup.Fits : MpSetup → Prop
  | .init _ _ _ => True
  | .create _ blockCount blockSize => (stride (rtAlign blockSize rtAlignSize)).toNat * blockCount.toNat < 2 ^ 32

section runs

variable {mp : BitVec 32} {setup : MpSetup} {s : MpState τ} {h : History (MpState τ) (MpAction τ)}

omit [DecidableEq τ] in
theorem MpInit.inv (hi : MpInit setup s) (hfits : setup.Fits) : MpInv mp s s.pool.blocks := by
  obtain ⟨-, ⟨m, hsetup⟩, hpos, hroom, hheld, hfreeing⟩ := hi
  have hpos' : 0 < s.pool.blockTotalCount.toNat := by
    rw [BitVec.lt_def] at hpos
    exact hpos
  have hout : s.handedOut = [] := by rw [MpState.handedOut, hheld, hfreeing]; rfl
  have hdone (hok : s.pool.Ok) (hlist : s.pool.blockList = s.pool.startAddress)
      (hfree : s.pool.blockFreeCount = s.pool.blockTotalCount)
      (hmem : s.mem = initFreeBlocks m s.pool.startAddress s.pool.blockSize s.pool.blockTotalCount.toNat) :
      MpInv mp s s.pool.blocks := by
    refine ⟨hok, ?_, ?_, ?_, fun b hb => ?_, fun x hx => ?_⟩
    · rw [hmem, hlist]
      exact linked_initFreeBlocks hok.lies m
    · rw [hfree, RtMempool.length_blocks]
    · rw [hout, List.append_nil]
    · rw [hout] at hb
      cases hb
    · rw [hfreeing] at hx
      cases hx
  cases setup with
  | init start size blockSize =>
    obtain ⟨⟨hstart, -, -⟩, heq⟩ := Option.ite_none_right_eq_some.mp hsetup
    obtain ⟨hpool, hmem⟩ := Prod.mk.inj (Option.some.inj heq)
    rw [← hpool] at hpos' hroom hdone ⊢
    have hstride : stride (rtAlign blockSize rtAlignSize) ≠ 0 := fun he => by
      simp [poolOf, he] at hpos'
    refine hdone ⟨?_, hpos', ?_, hroom⟩ rfl rfl hmem.symm
    · exact Nat.pos_of_ne_zero fun he => hstart (BitVec.eq_of_toNat_eq he)
    · show (rtAlignDown size rtAlignSize / stride (rtAlign blockSize rtAlignSize)).toNat *
        ((rtAlign blockSize rtAlignSize).toNat + 4) ≤ (rtAlignDown size rtAlignSize).toNat
      rw [← stride_rtAlign blockSize hstride, BitVec.toNat_udiv]
      exact Nat.div_mul_le_self _ _
  | create start blockCount blockSize =>
    obtain ⟨-, heq⟩ := Option.ite_none_right_eq_some.mp hsetup
    obtain ⟨hno, heq⟩ := Option.ite_none_left_eq_some.mp heq
    obtain ⟨hpool, hmem⟩ := Prod.mk.inj (Option.some.inj heq)
    obtain ⟨hsize, hstart⟩ := not_or.mp hno
    rw [← hpool] at hpos' hroom hdone ⊢
    have hstride : stride (rtAlign blockSize rtAlignSize) ≠ 0 := fun he => by
      rw [he] at hsize
      exact hsize BitVec.zero_mul
    refine hdone ⟨?_, hpos', ?_, hroom⟩ rfl rfl hmem.symm
    · exact Nat.pos_of_ne_zero fun he => hstart (BitVec.eq_of_toNat_eq he)
    · show blockCount.toNat * ((rtAlign blockSize rtAlignSize).toNat + 4) ≤
        (stride (rtAlign blockSize rtAlignSize) * blockCount).toNat
      rw [BitVec.toNat_mul, Nat.mod_eq_of_lt hfits, ← stride_rtAlign blockSize hstride, Nat.mul_comm]

theorem mpInv (hfits : setup.Fits) (hrun : (mempool τ mp setup).Run h s) : ∃ free, MpInv mp s free := by
  refine hrun.always (I := fun _ s => ∃ free, MpInv mp s free) (fun s hi => ⟨_, MpInit.inv hi hfits⟩) ?_
  rintro h s a s' - ⟨free, hi⟩ hs
  exact mpStep_spec hi hs

omit [DecidableEq τ] in
/-- A pool whose size in bytes wraps has a block that does not lie in the area. -/
theorem MpInit.not_conserved (hi : MpInit setup s) (hfits : ¬ setup.Fits) : ¬ Conserved s := by
  intro hc
  obtain ⟨-, ⟨m, hsetup⟩, -, hroom, -, -⟩ := hi
  cases setup with
  | init start size blockSize => exact hfits trivial
  | create start blockCount blockSize =>
    have hinside := hc.inside
    obtain ⟨-, heq⟩ := Option.ite_none_right_eq_some.mp hsetup
    obtain ⟨hno, heq⟩ := Option.ite_none_left_eq_some.mp heq
    obtain ⟨hpool, -⟩ := Prod.mk.inj (Option.some.inj heq)
    obtain ⟨hsize, -⟩ := not_or.mp hno
    rw [← hpool] at hroom hinside
    dsimp only [poolOf, RtMempool.blocks] at hroom hinside
    have hwrap : 2 ^ 32 ≤ (stride (rtAlign blockSize rtAlignSize)).toNat * blockCount.toNat := Nat.le_of_not_lt hfits
    generalize rtAlign blockSize rtAlignSize = aligned at hwrap hsize hroom hinside
    have hlt := (stride aligned * blockCount).isLt
    have hpos : 0 < (stride aligned).toNat := Nat.pos_of_ne_zero fun he => hsize (by
      rw [BitVec.eq_of_toNat_eq (show (stride aligned).toNat = (0#32).toNat from he), BitVec.zero_mul]
      rfl)
    generalize (stride aligned * blockCount).toNat = total at hlt hroom hinside
    -- the first block that ends behind the area
    have hindex : total / (stride aligned).toNat < blockCount.toNat := Nat.div_lt_of_lt_mul (hlt.trans_le hwrap)
    have hle := Nat.div_mul_le_self total (stride aligned).toNat
    have hend := Nat.lt_div_mul_add hpos (a := total)
    have hcount := blockCount.isLt
    obtain ⟨-, hblock⟩ := hinside _ (List.mem_map_of_mem (List.mem_range.mpr hindex))
    rw [blockAt, BitVec.toNat_add, BitVec.toNat_mul, BitVec.toNat_ofNat, Nat.mod_eq_of_lt (hindex.trans hcount),
      Nat.mod_eq_of_lt (show total / (stride aligned).toNat * (stride aligned).toNat < 2 ^ 32 by omega),
      Nat.mod_eq_of_lt (show start.toNat + _ < 2 ^ 32 by omega)] at hblock
    omega

/-- In all runs of a pool its blocks are conserved, if and only if its size in bytes is a number of 32 bits. -/
theorem conserved_iff {s₀ : MpState τ} (hinit : (mempool τ mp setup).init s₀) :
    (∀ h s, (mempool τ mp setup).Run h s → Conserved s) ↔ setup.Fits := by
  constructor
  · intro hall
    by_contra hfits
    exact MpInit.not_conserved hinit hfits (hall _ _ (.init hinit))
  · intro hfits h s hrun
    obtain ⟨free, hi⟩ := mpInv hfits hrun
    exact hi.conserved

/-- The threads run. -/
def mpThreads : IpcThreads Bool Unit AllocCall where
  kernel :=
    { tcb := twoRunning.tcb
      table := twoRunning.table
      group := twoRunning.group
      current := some true
      currentPriority := twoRunning.currentPriority
      lockNest := 0
      waiting := fun _ => []
      defunct := [] }
  timer _ := false
  pc _ := .idle

theorem init_mpThreads : mpThreads.Init where
  sched := by decide +kernel
  lock := rfl
  waiting _ := rfl
  pc _ := rfl
  running := by decide +kernel

/-- A pool has been set up in memory of zeros. -/
def mpStart (r : RtMempool × Memory) : MpState Bool where
  threads := mpThreads
  pool := r.1
  mem := r.2
  held := []
  freeing := []
  tick := 0

theorem mpInit_start {r : RtMempool × Memory} (hr : setup.run (fun _ => 0) = some r) (hpos : 0 < r.1.blockTotalCount)
    (hroom : r.1.startAddress.toNat + r.1.size.toNat < 2 ^ 32) : MpInit setup (mpStart r) :=
  ⟨init_mpThreads, ⟨_, hr⟩, hpos, hroom, rfl, rfl⟩

/-- An interrupt takes the only block; a thread waits for it, and gets it when it is freed. -/
theorem conserved_iff_run : ∃ h s, (mempool Bool 0x2000 (.init 0x1000 8 3)).Run h s ∧ s.held = [0x1004] ∧
    s.pool.blockFreeCount = 0 ∧ Conserved s := by
  have hinit : (mempool Bool 0x2000 (.init 0x1000 8 3)).init
      (mpStart (poolOf 0x1000 8 4 1, initFreeBlocks (fun _ => 0) 0x1000 4 1)) :=
    mpInit_start rfl (by decide) (by decide)
  obtain ⟨h, s, hrun, hheld, hcount⟩ := System.exists_run hinit
    [.isrAlloc 0, .alloc (-1), .env .next, .poke 0x1005 7, .free 0x1004, .freeLink (0x1004, 0x2000), .env .sleep,
      .env .next, .goOn]
    (fun _ s => s.held = [0x1004] ∧ s.pool.blockFreeCount = 0) (by decide +kernel)
  exact ⟨h, s, hrun, hheld, hcount, (conserved_iff hinit).mpr trivial h s hrun⟩

/-- Three blocks of 0x55555554 bytes are 2 ^ 32 + 8 bytes, so an area of 8 bytes is allocated for them; the second
block does not lie in it. -/
theorem blocks_outside_of_a_wrapped_pool : ∃ s, (mempool Bool 0x2000 (.create 0x1000 3 0x55555554)).Run [] s ∧
    s.pool.size = 8 ∧ s.pool.blockTotalCount = 3 ∧ 0x55556558 ∈ s.pool.blocks ∧ ¬ Conserved s := by
  have hinit : (mempool Bool 0x2000 (.create 0x1000 3 0x55555554)).init
      (mpStart (poolOf 0x1000 8 0x55555554 3, initFreeBlocks (fun _ => 0) 0x1000 0x55555554 3)) :=
    mpInit_start rfl (by decide) (by decide)
  have hmem : 0x55556558 ∈ (poolOf 0x1000 8 0x55555554 3).blocks := by decide
  exact ⟨_, .init hinit, rfl, rfl, hmem, fun hc => absurd (hc.inside _ hmem).2 (by decide)⟩

end runs

end ThyristorController.Mempools
