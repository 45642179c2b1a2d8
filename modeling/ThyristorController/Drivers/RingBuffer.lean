import ThyristorController.Kernel.RtDef
import ThyristorController.Lib.Ring

/-!
# The ring buffer (`components/drivers/src/ringbuffer.c`)

The two indices of the buffer have 15 bits, each with a mirror bit that is flipped when the index comes back to the
start of the array: where the indices are equal the buffer is empty if the mirrors are, and full if they are not.

`Fifo` is the abstract queue. `ringbuffer_refines` says that the results of every sequence of calls are those of a
queue whose capacity is the size of the buffer.
-/

namespace ThyristorController.RingBuffers

/-! ## The functions -/

/-- `struct rt_ringbuffer`. -/
structure RtRingbuffer where
  buffer : Nat → UInt8
  readMirror : Bool
  readIndex : Nat
  writeMirror : Bool
  writeIndex : Nat
  bufferSize : Nat

/-- `enum rt_ringbuffer_state`. -/
inductive RtRingbufferState where
  | empty | full | halffull
deriving DecidableEq

/-- A value that is stored in an index, a bit field of 15 bits. -/
def index (i : Nat) : Nat := i % 2 ^ 15

/-- `memcpy` to the array. -/
def copyTo (buffer : Nat → UInt8) (start : Nat) (l : List UInt8) : Nat → UInt8 := fun x =>
  if start ≤ x then (l[x - start]?).getD (buffer x) else buffer x

/-- The bytes that `memcpy` copies from the array. -/
def copyFrom (buffer : Nat → UInt8) (start n : Nat) : List UInt8 := Ring.segment buffer start n

/-- `rt_ringbuffer_init`, with a positive `size`. -/
def rtRingbufferInit (pool : Nat → UInt8) (size : Nat) : RtRingbuffer where
  buffer := pool
  readMirror := false
  readIndex := 0
  writeMirror := false
  writeIndex := 0
  bufferSize := (rtAlignDown (BitVec.ofNat 32 size) rtAlignSize).toNat

namespace RtRingbuffer

/-- `rt_ringbuffer_status`. -/
def status (rb : RtRingbuffer) : RtRingbufferState :=
  if rb.readIndex = rb.writeIndex then if rb.readMirror = rb.writeMirror then .empty else .full else .halffull

/-- `rt_ringbuffer_data_len`. -/
def dataLen (rb : RtRingbuffer) : Nat :=
  match rb.status with
  | .empty => 0
  | .full => rb.bufferSize
  | .halffull =>
    if rb.writeIndex > rb.readIndex then rb.writeIndex - rb.readIndex
    else rb.bufferSize - (rb.readIndex - rb.writeIndex)

/-- `rt_ringbuffer_space_len`. -/
def spaceLen (rb : RtRingbuffer) : Nat := rb.bufferSize - rb.dataLen

/-- `rt_ringbuffer_put` of the bytes at `ptr`. -/
def put (rb : RtRingbuffer) (ptr : List UInt8) : RtRingbuffer × Nat :=
  let size := rb.spaceLen
  if size = 0 then (rb, 0)
  else
    let length := if size < ptr.length then size else ptr.length
    if rb.bufferSize - rb.writeIndex > length then
      ({ rb with
        buffer := copyTo rb.buffer rb.writeIndex (ptr.take length)
        writeIndex := index (rb.writeIndex + length) }, length)
    else
      let first := rb.bufferSize - rb.writeIndex
      ({ rb with
        buffer := copyTo (copyTo rb.buffer rb.writeIndex (ptr.take first)) 0 ((ptr.take length).drop first)
        writeMirror := !rb.writeMirror
        writeIndex := index (length - first) }, length)

/-- `rt_ringbuffer_get` of so many bytes; its result is the number of bytes. -/
def get (rb : RtRingbuffer) (length : Nat) : RtRingbuffer × List UInt8 :=
  let size := rb.dataLen
  if size = 0 then (rb, [])
  else
    let length := if size < length then size else length
    if rb.bufferSize - rb.readIndex > length then
      ({ rb with readIndex := index (rb.readIndex + length) }, copyFrom rb.buffer rb.readIndex length)
    else
      let first := rb.bufferSize - rb.readIndex
      ({ rb with readMirror := !rb.readMirror, readIndex := index (length - first) },
        copyFrom rb.buffer rb.readIndex first ++ copyFrom rb.buffer 0 (length - first))

/-- `rt_ringbuffer_peak`, with the bytes at `*ptr`; its result is the number of bytes. -/
def peak (rb : RtRingbuffer) : RtRingbuffer × List UInt8 :=
  let size := rb.dataLen
  if size = 0 then (rb, [])
  else if rb.bufferSize - rb.readIndex > size then
    ({ rb with readIndex := index (rb.readIndex + size) }, copyFrom rb.buffer rb.readIndex size)
  else
    ({ rb with readMirror := !rb.readMirror, readIndex := 0 },
      copyFrom rb.buffer rb.readIndex (rb.bufferSize - rb.readIndex))

/-- `rt_ringbuffer_putchar`. -/
def putchar (rb : RtRingbuffer) (ch : UInt8) : RtRingbuffer × Nat :=
  if rb.spaceLen = 0 then (rb, 0)
  else
    let rb := { rb with buffer := Function.update rb.buffer rb.writeIndex ch }
    if rb.writeIndex = rb.bufferSize - 1 then ({ rb with writeMirror := !rb.writeMirror, writeIndex := 0 }, 1)
    else ({ rb with writeIndex := index (rb.writeIndex + 1) }, 1)

/-- `rt_ringbuffer_getchar`; its result is the number of bytes. -/
def getchar (rb : RtRingbuffer) : RtRingbuffer × Option UInt8 :=
  if rb.dataLen = 0 then (rb, none)
  else
    let ch := rb.buffer rb.readIndex
    if rb.readIndex = rb.bufferSize - 1 then ({ rb with readMirror := !rb.readMirror, readIndex := 0 }, some ch)
    else ({ rb with readIndex := index (rb.readIndex + 1) }, some ch)

/-- `rt_ringbuffer_reset`. -/
def reset (rb : RtRingbuffer) : RtRingbuffer :=
  { rb with readMirror := false, readIndex := 0, writeMirror := false, writeIndex := 0 }

end RtRingbuffer

/-- A call. -/
inductive RbCall where
  | put (ptr : List UInt8)
  | putchar (ch : UInt8)
  | get (length : Nat)
  | getchar
  | peak
  | reset
  | dataLen

/-- What a call returns: a number, the bytes that it hands over (its result is their number), or nothing. -/
inductive RbResult where
  | count (n : Nat)
  | bytes (l : List UInt8)
  | none
deriving DecidableEq

def rbStep (rb : RtRingbuffer) : RbCall → RtRingbuffer × RbResult
  | .put ptr => ((rb.put ptr).1, .count (rb.put ptr).2)
  | .putchar ch => ((rb.putchar ch).1, .count (rb.putchar ch).2)
  | .get length => ((rb.get length).1, .bytes (rb.get length).2)
  | .getchar => (rb.getchar.1, .bytes rb.getchar.2.toList)
  | .peak => (rb.peak.1, .bytes rb.peak.2)
  | .reset => (rb.reset, .none)
  | .dataLen => (rb, .count rb.dataLen)

/-- A sequence of calls, with their results. -/
def rbRun (rb : RtRingbuffer) : List RbCall → RtRingbuffer × List RbResult
  | [] => (rb, [])
  | c :: cs =>
    let (rb, r) := rbStep rb c
    let (rb, rs) := rbRun rb cs
    (rb, r :: rs)

/-! ## The abstract queue -/

/-- A call on a queue of at most `capacity` bytes. `put` stores the longest prefix that fits, `get` removes that many
of the oldest bytes, `peak` removes a part of them of its own choice, but some if there are any. -/
inductive Fifo (capacity : Nat) : List UInt8 → RbCall → RbResult → List UInt8 → Prop where
  | put (q ptr : List UInt8) : Fifo capacity q (.put ptr) (.count (min (capacity - q.length) ptr.length))
      (q ++ ptr.take (capacity - q.length))
  | putchar (q : List UInt8) (ch : UInt8) (h : q.length < capacity) :
      Fifo capacity q (.putchar ch) (.count 1) (q ++ [ch])
  | putcharFull (q : List UInt8) (ch : UInt8) (h : q.length = capacity) : Fifo capacity q (.putchar ch) (.count 0) q
  | get (q : List UInt8) (length : Nat) : Fifo capacity q (.get length) (.bytes (q.take length)) (q.drop length)
  | getchar (q : List UInt8) : Fifo capacity q .getchar (.bytes (q.take 1)) (q.drop 1)
  | peak (q l q' : List UInt8) (h : q = l ++ q') (hsome : q ≠ [] → l ≠ []) : Fifo capacity q .peak (.bytes l) q'
  | reset (q : List UInt8) : Fifo capacity q .reset .none []
  | dataLen (q : List UInt8) : Fifo capacity q .dataLen (.count q.length) q

/-- A sequence of calls on the queue. -/
inductive FifoRun (capacity : Nat) : List UInt8 → List RbCall → List RbResult → List UInt8 → Prop where
  | nil (q : List UInt8) : FifoRun capacity q [] [] q
  | cons {q q' q'' : List UInt8} {c : RbCall} {r : RbResult} {cs : List RbCall} {rs : List RbResult}
      (step : Fifo capacity q c r q') (rest : FifoRun capacity q' cs rs q'') :
      FifoRun capacity q (c :: cs) (r :: rs) q''

/-! ## The indices -/

/-- The indices are places of the array; the write index is behind the read index, in the same mirror or in the
other one. -/
structure RtRingbuffer.Ok (rb : RtRingbuffer) : Prop where
  size : rb.bufferSize < 2 ^ 15
  read : rb.readIndex < rb.bufferSize
  write : rb.writeIndex < rb.bufferSize
  same : rb.readMirror = rb.writeMirror → rb.readIndex ≤ rb.writeIndex
  other : rb.readMirror ≠ rb.writeMirror → rb.writeIndex ≤ rb.readIndex

/-- The bytes in the buffer, oldest first. -/
def RtRingbuffer.queue (rb : RtRingbuffer) : List UInt8 :=
  Ring.contents rb.buffer rb.bufferSize rb.readIndex rb.dataLen

namespace RtRingbuffer

variable {rb rb' : RtRingbuffer} {k : Nat}

theorem Ok.dataLen_same (h : rb.Ok) (hm : rb.readMirror = rb.writeMirror) :
    rb.dataLen = rb.writeIndex - rb.readIndex := by
  have hle := h.same hm
  unfold dataLen status
  by_cases he : rb.readIndex = rb.writeIndex
  · rw [if_pos he, if_pos hm, he, Nat.sub_self]
  · rw [if_neg he]
    exact if_pos (by omega)

theorem Ok.dataLen_other (h : rb.Ok) (hm : rb.readMirror ≠ rb.writeMirror) :
    rb.dataLen = rb.bufferSize - (rb.readIndex - rb.writeIndex) := by
  have hle := h.other hm
  unfold dataLen status
  by_cases he : rb.readIndex = rb.writeIndex
  · rw [if_pos he, if_neg hm, he, Nat.sub_self, Nat.sub_zero]
  · rw [if_neg he]
    exact if_neg (by omega)

theorem Ok.dataLen_le (h : rb.Ok) : rb.dataLen ≤ rb.bufferSize := by
  have hw := h.write
  by_cases hm : rb.readMirror = rb.writeMirror
  · rw [h.dataLen_same hm]
    omega
  · rw [h.dataLen_other hm]
    omega

theorem Ok.writeIndex_eq (h : rb.Ok) : rb.writeIndex = (rb.readIndex + rb.dataLen) % rb.bufferSize := by
  have hw := h.write
  have hr := h.read
  rw [Ring.place_eq h.read h.dataLen_le]
  by_cases hm : rb.readMirror = rb.writeMirror
  · have hle := h.same hm
    rw [h.dataLen_same hm, if_pos (by omega)]
    omega
  · have hle := h.other hm
    rw [h.dataLen_other hm]
    split_ifs <;> omega

@[simp] theorem length_queue (rb : RtRingbuffer) : rb.queue.length = rb.dataLen := Ring.length_contents

/-- An index and its mirror behind `k` more places. -/
def advance (size i : Nat) (mirror : Bool) (k : Nat) : Nat × Bool :=
  if size - i > k then (i + k, mirror) else (k - (size - i), !mirror)

theorem Ok.index_eq (h : rb.Ok) {i : Nat} (hi : i < rb.bufferSize) : index i = i :=
  Nat.mod_eq_of_lt (hi.trans h.size)

theorem Ok.write_advance (h : rb.Ok) (hk : k ≤ rb.spaceLen) (hsize : rb'.bufferSize = rb.bufferSize)
    (hread : rb'.readIndex = rb.readIndex) (hreadm : rb'.readMirror = rb.readMirror)
    (hwrite : (rb'.writeIndex, rb'.writeMirror) = advance rb.bufferSize rb.writeIndex rb.writeMirror k) :
    rb'.Ok ∧ rb'.dataLen = rb.dataLen + k := by
  have hle := h.dataLen_le
  obtain ⟨hs, hr, hw, hsame, hother⟩ := h
  unfold spaceLen at hk
  unfold advance at hwrite
  by_cases hm : rb.readMirror = rb.writeMirror
  · rw [Ok.dataLen_same ⟨hs, hr, hw, hsame, hother⟩ hm] at hk hle ⊢
    have hrw := hsame hm
    by_cases hfit : rb.bufferSize - rb.writeIndex > k
    · rw [if_pos hfit] at hwrite
      obtain ⟨hi, him⟩ := Prod.mk.inj hwrite
      have hok : rb'.Ok := ⟨by omega, by omega, by omega, fun _ => by omega, fun hne => absurd (by
        rw [hreadm, him, hm]) hne⟩
      refine ⟨hok, ?_⟩
      rw [hok.dataLen_same (by rw [hreadm, him, hm])]
      omega
    · rw [if_neg hfit] at hwrite
      obtain ⟨hi, him⟩ := Prod.mk.inj hwrite
      have hne : rb'.readMirror ≠ rb'.writeMirror := by
        rw [hreadm, him, hm]
        exact (Bool.not_ne_self _).symm
      have hok : rb'.Ok := ⟨by omega, by omega, by omega, fun he => absurd he hne, fun _ => by omega⟩
      refine ⟨hok, ?_⟩
      rw [hok.dataLen_other hne]
      omega
  · rw [Ok.dataLen_other ⟨hs, hr, hw, hsame, hother⟩ hm] at hk hle ⊢
    have hrw := hother hm
    rw [if_pos (by omega)] at hwrite
    obtain ⟨hi, him⟩ := Prod.mk.inj hwrite
    have hne : rb'.readMirror ≠ rb'.writeMirror := by
      rw [hreadm, him]
      exact hm
    have hok : rb'.Ok := ⟨by omega, by omega, by omega, fun he => absurd he hne, fun _ => by omega⟩
    refine ⟨hok, ?_⟩
    rw [hok.dataLen_other hne]
    omega

theorem Ok.read_advance (h : rb.Ok) (hk : k ≤ rb.dataLen) (hsize : rb'.bufferSize = rb.bufferSize)
    (hwrite : rb'.writeIndex = rb.writeIndex) (hwritem : rb'.writeMirror = rb.writeMirror)
    (hread : (rb'.readIndex, rb'.readMirror) = advance rb.bufferSize rb.readIndex rb.readMirror k) :
    rb'.Ok ∧ rb'.dataLen = rb.dataLen - k ∧ rb'.readIndex = (rb.readIndex + k) % rb.bufferSize := by
  have hle := h.dataLen_le
  have hplace := Ring.place_eq h.read (hk.trans hle)
  rw [hplace]
  obtain ⟨hs, hr, hw, hsame, hother⟩ := h
  unfold advance at hread
  by_cases hm : rb.readMirror = rb.writeMirror
  · rw [Ok.dataLen_same ⟨hs, hr, hw, hsame, hother⟩ hm] at hk ⊢
    have hrw := hsame hm
    rw [if_pos (by omega)] at hread
    obtain ⟨hi, him⟩ := Prod.mk.inj hread
    have he : rb'.readMirror = rb'.writeMirror := by rw [him, hwritem, hm]
    have hok : rb'.Ok := ⟨by omega, by omega, by omega, fun _ => by omega, fun hne => absurd he hne⟩
    refine ⟨hok, ?_, ?_⟩
    · rw [hok.dataLen_same he]
      omega
    · rw [if_pos (by omega)]
      exact hi
  · rw [Ok.dataLen_other ⟨hs, hr, hw, hsame, hother⟩ hm] at hk ⊢
    have hrw := hother hm
    by_cases hfit : rb.bufferSize - rb.readIndex > k
    · rw [if_pos hfit] at hread
      obtain ⟨hi, him⟩ := Prod.mk.inj hread
      have hne : rb'.readMirror ≠ rb'.writeMirror := by
        rw [him, hwritem]
        exact hm
      have hok : rb'.Ok := ⟨by omega, by omega, by omega, fun he => absurd he hne, fun _ => by omega⟩
      refine ⟨hok, ?_, ?_⟩
      · rw [hok.dataLen_other hne]
        omega
      · rw [if_pos (by omega)]
        exact hi
    · rw [if_neg hfit] at hread
      obtain ⟨hi, him⟩ := Prod.mk.inj hread
      have he : rb'.readMirror = rb'.writeMirror := by
        rw [him, hwritem]
        exact (Bool.eq_not_of_ne fun he => hm he.symm).symm
      have hok : rb'.Ok := ⟨by omega, by omega, by omega, fun _ => by omega, fun hne => absurd he hne⟩
      refine ⟨hok, ?_, ?_⟩
      · rw [hok.dataLen_same he]
        omega
      · rw [if_neg (by omega)]
        omega

/-! ## The operations -/

section operations

variable {buffer : Nat → UInt8} {start x i length : Nat} {l ptr : List UInt8} {ch : UInt8}

theorem copyTo_get (buffer : Nat → UInt8) (start : Nat) (hi : i < l.length) :
    copyTo buffer start l (start + i) = l[i] := by
  unfold copyTo
  rw [if_pos (Nat.le_add_right _ _), Nat.add_sub_cancel_left, List.getElem?_eq_getElem hi, Option.getD_some]

theorem copyTo_other (hx : x < start ∨ start + l.length ≤ x) : copyTo buffer start l x = buffer x := by
  unfold copyTo
  split_ifs with hle
  · rw [List.getElem?_eq_none (by omega), Option.getD_none]
  · rfl

theorem copyTo_fits {size : Nat} (hfit : start + l.length ≤ size) :
    Ring.Stored buffer (copyTo buffer start l) size start l := by
  refine ⟨fun i hi => ?_, fun x _ hne => copyTo_other ?_⟩
  · rw [Nat.mod_eq_of_lt (by omega)]
    exact copyTo_get _ _ hi
  · by_contra hno
    have hxi := hne (x - start) (by omega)
    rw [Nat.mod_eq_of_lt (by omega)] at hxi
    omega

theorem copyTo_wraps {size : Nat} (hstart : start < size) (hge : size - start ≤ l.length) (hle : l.length ≤ size) :
    Ring.Stored buffer (copyTo (copyTo buffer start (l.take (size - start))) 0 (l.drop (size - start))) size start
      l := by
  have hfirst : (l.take (size - start)).length = size - start := List.length_take_of_le hge
  have hsecond : (l.drop (size - start)).length = l.length - (size - start) := List.length_drop
  have hplace (i : Nat) (hi : i < l.length) := Ring.place_eq hstart (show i ≤ size by omega)
  refine ⟨fun i hi => ?_, fun x _ hne => ?_⟩
  · rw [hplace i hi]
    split_ifs with hlt
    · rw [copyTo_other (.inr (by omega)), copyTo_get _ _ (by omega), List.getElem_take]
    · have hget := copyTo_get (copyTo buffer start (l.take (size - start))) 0
        (show i - (size - start) < (l.drop (size - start)).length by omega)
      rw [show start + i - size = 0 + (i - (size - start)) by omega, hget, List.getElem_drop]
      congr 1
      omega
  · rw [copyTo_other, copyTo_other]
    · by_contra hno
      have hxi := hne (x - start) (by omega)
      rw [hplace _ (by omega)] at hxi
      split_ifs at hxi <;> omega
    · by_contra hno
      have hxi := hne (size - start + x) (by omega)
      rw [hplace _ (by omega), if_neg (by omega)] at hxi
      omega

/-- The bytes of `l` are stored from the write index on, where there is room for them. -/
theorem Ok.written (h : rb.Ok) (hk : l.length ≤ rb.spaceLen) (hsize : rb'.bufferSize = rb.bufferSize)
    (hread : rb'.readIndex = rb.readIndex) (hreadm : rb'.readMirror = rb.readMirror)
    (hwrite : (rb'.writeIndex, rb'.writeMirror) = advance rb.bufferSize rb.writeIndex rb.writeMirror l.length)
    (hstored : Ring.Stored rb.buffer rb'.buffer rb.bufferSize rb.writeIndex l) :
    rb'.Ok ∧ rb'.bufferSize = rb.bufferSize ∧ rb'.queue = rb.queue ++ l := by
  obtain ⟨hok, hlen⟩ := h.write_advance hk hsize hread hreadm hwrite
  have hle := h.dataLen_le
  refine ⟨hok, hsize, ?_⟩
  unfold spaceLen at hk
  rw [queue, queue, hsize, hread, hlen]
  exact hstored.append h.writeIndex_eq (by omega)

theorem put_spec (h : rb.Ok) (ptr : List UInt8) : (rb.put ptr).2 = min rb.spaceLen ptr.length ∧
    (rb.put ptr).1.Ok ∧ (rb.put ptr).1.bufferSize = rb.bufferSize ∧
    (rb.put ptr).1.queue = rb.queue ++ ptr.take rb.spaceLen := by
  have hle := h.dataLen_le
  have hw := h.write
  unfold put
  dsimp only
  by_cases hzero : rb.spaceLen = 0
  · rw [if_pos hzero, hzero, List.take_zero, List.append_nil, Nat.zero_min]
    exact ⟨rfl, h, rfl, rfl⟩
  rw [if_neg hzero]
  have hmin : (if rb.spaceLen < ptr.length then rb.spaceLen else ptr.length) = min rb.spaceLen ptr.length := by
    split_ifs <;> omega
  have htake : ptr.take (min rb.spaceLen ptr.length) = ptr.take rb.spaceLen := by
    rcases Nat.le_total rb.spaceLen ptr.length with hlt | hge
    · rw [Nat.min_eq_left hlt]
    · rw [Nat.min_eq_right hge, List.take_length, List.take_of_length_le hge]
  rw [hmin, ← htake]
  have hk : min rb.spaceLen ptr.length ≤ rb.spaceLen := Nat.min_le_left _ _
  have hk' : min rb.spaceLen ptr.length ≤ ptr.length := Nat.min_le_right _ _
  generalize min rb.spaceLen ptr.length = k at hk hk'
  have hlen : (ptr.take k).length = k := List.length_take_of_le hk'
  have hroom : k ≤ rb.bufferSize := by
    unfold spaceLen at hk
    omega
  by_cases hfit : rb.bufferSize - rb.writeIndex > k
  · rw [if_pos hfit]
    refine ⟨rfl, h.written (by rwa [hlen]) rfl rfl rfl ?_ (copyTo_fits (by omega))⟩
    rw [hlen, advance, if_pos hfit, h.index_eq (by omega)]
  · rw [if_neg hfit]
    have hstored := @copyTo_wraps rb.buffer rb.writeIndex (ptr.take k) rb.bufferSize hw (by omega) (by omega)
    rw [List.take_take, Nat.min_eq_left (by omega)] at hstored
    refine ⟨rfl, h.written (by rwa [hlen]) rfl rfl rfl ?_ hstored⟩
    rw [hlen, advance, if_neg hfit, h.index_eq (by omega)]

theorem putchar_spec (h : rb.Ok) (ch : UInt8) : (rb.putchar ch).2 = min rb.spaceLen 1 ∧
    (rb.putchar ch).1.Ok ∧ (rb.putchar ch).1.bufferSize = rb.bufferSize ∧
    (rb.putchar ch).1.queue = rb.queue ++ [ch].take rb.spaceLen := by
  have hw := h.write
  unfold putchar
  by_cases hzero : rb.spaceLen = 0
  · rw [if_pos hzero, hzero, List.take_zero, List.append_nil]
    exact ⟨rfl, h, rfl, rfl⟩
  have hpos : 1 ≤ rb.spaceLen := Nat.pos_of_ne_zero hzero
  rw [if_neg hzero, List.take_of_length_le (by exact hpos), Nat.min_eq_right hpos]
  dsimp only
  by_cases hlast : rb.writeIndex = rb.bufferSize - 1
  · rw [if_pos hlast]
    refine ⟨rfl, h.written hpos rfl rfl rfl ?_ (Ring.Stored.update hw ch)⟩
    rw [advance, if_neg (by rw [List.length_singleton]; omega), List.length_singleton]
    have hzero : 1 - (rb.bufferSize - rb.writeIndex) = 0 := by omega
    rw [hzero]
  · rw [if_neg hlast]
    refine ⟨rfl, h.written hpos rfl rfl rfl ?_ (Ring.Stored.update hw ch)⟩
    rw [advance, if_pos (by rw [List.length_singleton]; omega), h.index_eq (by omega), List.length_singleton]

theorem Ok.taken (h : rb.Ok) {k : Nat} (hk : k ≤ rb.dataLen) (hsize : rb'.bufferSize = rb.bufferSize)
    (hbuffer : rb'.buffer = rb.buffer) (hwrite : rb'.writeIndex = rb.writeIndex)
    (hwritem : rb'.writeMirror = rb.writeMirror)
    (hread : (rb'.readIndex, rb'.readMirror) = advance rb.bufferSize rb.readIndex rb.readMirror k) :
    rb'.Ok ∧ rb'.bufferSize = rb.bufferSize ∧ rb'.queue = rb.queue.drop k := by
  obtain ⟨hok, hlen, hindex⟩ := h.read_advance hk hsize hwrite hwritem hread
  refine ⟨hok, hsize, ?_⟩
  rw [queue, queue, hsize, hbuffer, hlen, hindex]
  exact Ring.contents_drop

theorem copyFrom_eq {k : Nat} (hk : k ≤ rb.dataLen) (hfit : rb.readIndex + k ≤ rb.bufferSize) :
    copyFrom rb.buffer rb.readIndex k = rb.queue.take k := by
  rw [queue, Ring.contents_take hk, Ring.contents_segment hfit]
  rfl

theorem get_spec (h : rb.Ok) (length : Nat) : (rb.get length).2 = rb.queue.take length ∧ (rb.get length).1.Ok ∧
    (rb.get length).1.bufferSize = rb.bufferSize ∧ (rb.get length).1.queue = rb.queue.drop length := by
  have hle := h.dataLen_le
  have hr := h.read
  unfold get
  dsimp only
  by_cases hzero : rb.dataLen = 0
  · have hnil : rb.queue = [] := List.eq_nil_of_length_eq_zero (by rw [length_queue, hzero])
    rw [if_pos hzero, hnil, List.take_nil, List.drop_nil]
    exact ⟨rfl, h, rfl, rfl⟩
  rw [if_neg hzero]
  have hmin : (if rb.dataLen < length then rb.dataLen else length) = min rb.dataLen length := by
    split_ifs <;> omega
  have htake : rb.queue.take length = rb.queue.take (min rb.dataLen length) := by
    rw [← length_queue, List.take_eq_take_iff]
    omega
  have hdrop : rb.queue.drop length = rb.queue.drop (min rb.dataLen length) := by
    rcases Nat.le_total rb.dataLen length with hlt | hge
    · rw [Nat.min_eq_left hlt, List.drop_of_length_le (by rwa [length_queue]),
        List.drop_of_length_le (by rw [length_queue])]
    · rw [Nat.min_eq_right hge]
  rw [hmin, htake, hdrop]
  have hk : min rb.dataLen length ≤ rb.dataLen := Nat.min_le_left _ _
  generalize min rb.dataLen length = k at hk
  by_cases hfit : rb.bufferSize - rb.readIndex > k
  · rw [if_pos hfit]
    refine ⟨copyFrom_eq hk (by omega), h.taken hk rfl rfl rfl rfl ?_⟩
    rw [advance, if_pos hfit, h.index_eq (by omega)]
  · rw [if_neg hfit]
    refine ⟨?_, h.taken hk rfl rfl rfl rfl ?_⟩
    · rw [queue, Ring.contents_take hk, Ring.contents_wrap hr (by omega) (by omega)]
      rfl
    · rw [advance, if_neg hfit, h.index_eq (by omega)]

/-- `rt_ringbuffer_peak` hands over the bytes up to the end of the array. -/
theorem peak_spec (h : rb.Ok) : ∃ k, rb.peak.2 = rb.queue.take k ∧ (rb.queue ≠ [] → 0 < k) ∧ rb.peak.1.Ok ∧
    rb.peak.1.bufferSize = rb.bufferSize ∧ rb.peak.1.queue = rb.queue.drop k := by
  have hle := h.dataLen_le
  have hr := h.read
  unfold peak
  dsimp only
  by_cases hzero : rb.dataLen = 0
  · have hnil : rb.queue = [] := List.eq_nil_of_length_eq_zero (by rw [length_queue, hzero])
    rw [if_pos hzero]
    exact ⟨0, rfl, fun hne => absurd hnil hne, h, rfl, rfl⟩
  rw [if_neg hzero]
  by_cases hfit : rb.bufferSize - rb.readIndex > rb.dataLen
  · rw [if_pos hfit]
    refine ⟨rb.dataLen, copyFrom_eq (Nat.le_refl _) (by omega), fun _ => Nat.pos_of_ne_zero hzero,
      h.taken (Nat.le_refl _) rfl rfl rfl rfl ?_⟩
    rw [advance, if_pos hfit, h.index_eq (by omega)]
  · rw [if_neg hfit]
    refine ⟨rb.bufferSize - rb.readIndex, copyFrom_eq (by omega) (by omega), fun _ => by omega,
      h.taken (by omega) rfl rfl rfl rfl ?_⟩
    rw [advance, if_neg (Nat.lt_irrefl _), Nat.sub_self]

theorem getchar_spec (h : rb.Ok) : rb.getchar.2.toList = rb.queue.take 1 ∧ rb.getchar.1.Ok ∧
    rb.getchar.1.bufferSize = rb.bufferSize ∧ rb.getchar.1.queue = rb.queue.drop 1 := by
  have hr := h.read
  unfold getchar
  by_cases hzero : rb.dataLen = 0
  · have hnil : rb.queue = [] := List.eq_nil_of_length_eq_zero (by rw [length_queue, hzero])
    rw [if_pos hzero, hnil, List.take_nil, List.drop_nil]
    exact ⟨rfl, h, rfl, rfl⟩
  have hpos : 1 ≤ rb.dataLen := Nat.pos_of_ne_zero hzero
  have hbyte : [rb.buffer rb.readIndex] = rb.queue.take 1 := copyFrom_eq hpos (by omega)
  rw [if_neg hzero]
  dsimp only
  by_cases hlast : rb.readIndex = rb.bufferSize - 1
  · rw [if_pos hlast]
    refine ⟨hbyte, h.taken hpos rfl rfl rfl rfl ?_⟩
    have hzero : 1 - (rb.bufferSize - rb.readIndex) = 0 := by omega
    rw [advance, if_neg (by omega), hzero]
  · rw [if_neg hlast]
    refine ⟨hbyte, h.taken hpos rfl rfl rfl rfl ?_⟩
    rw [advance, if_pos (by omega), h.index_eq (by omega)]

end operations

end RtRingbuffer

/-! ## The refinement -/

section refinement

variable {rb : RtRingbuffer} {size : Nat}

theorem init_ok (pool : Nat → UInt8) (h4 : 4 ≤ size) (hmax : size < 2 ^ 15) :
    (rtRingbufferInit pool size).Ok ∧ (rtRingbufferInit pool size).bufferSize = size / 4 * 4 ∧
      (rtRingbufferInit pool size).queue = [] := by
  have hsize : (rtRingbufferInit pool size).bufferSize = size / 4 * 4 := by
    show (rtAlignDown _ _).toNat = _
    rw [rtAlignDown_toNat, BitVec.toNat_ofNat, Nat.mod_eq_of_lt (by omega)]
  have hpos : 0 < (rtRingbufferInit pool size).bufferSize := by omega
  exact ⟨⟨by omega, hpos, hpos, fun _ => Nat.le_refl 0, fun _ => Nat.le_refl 0⟩, hsize, rfl⟩

theorem rbStep_refines (h : rb.Ok) (c : RbCall) : (rbStep rb c).1.Ok ∧
    (rbStep rb c).1.bufferSize = rb.bufferSize ∧
    Fifo rb.bufferSize rb.queue c (rbStep rb c).2 (rbStep rb c).1.queue := by
  have hspace : rb.spaceLen = rb.bufferSize - rb.queue.length := by rw [RtRingbuffer.length_queue]; rfl
  cases c with
  | put ptr =>
    obtain ⟨hcount, hok, hsize, hqueue⟩ := RtRingbuffer.put_spec h ptr
    refine ⟨hok, hsize, ?_⟩
    rw [rbStep, hcount, hqueue, hspace]
    exact .put _ _
  | putchar ch =>
    obtain ⟨hcount, hok, hsize, hqueue⟩ := RtRingbuffer.putchar_spec h ch
    refine ⟨hok, hsize, ?_⟩
    rw [rbStep, hcount, hqueue]
    have hle := h.dataLen_le
    rw [← RtRingbuffer.length_queue] at hle
    by_cases hfull : rb.queue.length = rb.bufferSize
    · rw [hspace, hfull, Nat.sub_self, List.take_zero, List.append_nil]
      exact .putcharFull _ _ hfull
    · have hpos : 1 ≤ rb.spaceLen := by omega
      rw [Nat.min_eq_right hpos, List.take_of_length_le (by exact hpos)]
      exact .putchar _ _ (by omega)
  | get length =>
    obtain ⟨hbytes, hok, hsize, hqueue⟩ := RtRingbuffer.get_spec h length
    refine ⟨hok, hsize, ?_⟩
    rw [rbStep, hbytes, hqueue]
    exact .get _ _
  | getchar =>
    obtain ⟨hbytes, hok, hsize, hqueue⟩ := RtRingbuffer.getchar_spec h
    refine ⟨hok, hsize, ?_⟩
    rw [rbStep, hbytes, hqueue]
    exact .getchar _
  | peak =>
    obtain ⟨k, hbytes, hpos, hok, hsize, hqueue⟩ := RtRingbuffer.peak_spec h
    refine ⟨hok, hsize, ?_⟩
    rw [rbStep, hbytes, hqueue]
    refine .peak _ _ _ (List.take_append_drop _ _).symm fun hne he => ?_
    rcases List.take_eq_nil_iff.mp he with hk | hq
    · exact absurd (hpos hne) (by omega)
    · exact hne hq
  | reset =>
    have hlt := h.size
    have hpos : 0 < rb.bufferSize := by
      have := h.read
      omega
    exact ⟨⟨hlt, hpos, hpos, fun _ => Nat.le_refl 0, fun _ => Nat.le_refl 0⟩, rfl, .reset _⟩
  | dataLen =>
    refine ⟨h, rfl, ?_⟩
    rw [rbStep, ← RtRingbuffer.length_queue]
    exact .dataLen _

theorem rbRun_refines (h : rb.Ok) (cs : List RbCall) :
    FifoRun rb.bufferSize rb.queue cs (rbRun rb cs).2 (rbRun rb cs).1.queue := by
  induction cs generalizing rb with
  | nil => exact .nil _
  | cons c cs ih =>
    obtain ⟨hok, hsize, hstep⟩ := rbStep_refines h c
    have hrest := ih hok
    rw [hsize] at hrest
    exact .cons hstep hrest

/-- For every size of at least 4 and every sequence of calls, the results are those of a queue of bytes whose
capacity is the size of the buffer. -/
theorem ringbuffer_refines (pool : Nat → UInt8) (cs : List RbCall) (h4 : 4 ≤ size) (hmax : size < 2 ^ 15) :
    FifoRun (rtRingbufferInit pool size).bufferSize [] cs (rbRun (rtRingbufferInit pool size) cs).2
      (rbRun (rtRingbufferInit pool size) cs).1.queue := by
  obtain ⟨hok, -, hempty⟩ := init_ok pool h4 hmax
  have hrun := rbRun_refines hok cs
  rwa [hempty] at hrun

/-- In a buffer for four bytes, the third `put` goes round the end of the array. -/
theorem ringbuffer_refines_run : FifoRun 4 [] [.put [1, 2, 3], .get 2, .put [4, 5, 6, 7], .dataLen, .peak, .getchar]
    [.count 3, .bytes [1, 2], .count 3, .count 4, .bytes [3, 4], .bytes [5]] [6] :=
  ringbuffer_refines (fun _ => 0) [.put [1, 2, 3], .get 2, .put [4, 5, 6, 7], .dataLen, .peak, .getchar]
    (show 4 ≤ 7 by decide) (by decide)

end refinement

end ThyristorController.RingBuffers
