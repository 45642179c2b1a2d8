import ThyristorController.Drivers.RingBuffer
import ThyristorController.Lib.Run

/-!
# Forced writes to the ring buffer (`components/drivers/src/ringbuffer.c`)

`rt_ringbuffer_put_force` and `rt_ringbuffer_putchar_force` give up the oldest bytes where there is no room for the
new ones. A write that takes the place of unread bytes and goes round the end of the array flips both mirrors, so that
the buffer is full afterwards only if the mirrors were different before: `force_keeps_newest` says when the newest
bytes are kept.
-/

namespace ThyristorController.RingBuffers

open Transition

namespace RtRingbuffer

/-- `rt_ringbuffer_put_force` of the bytes at `ptr`, whose number is passed as a `rt_uint16_t`. -/
def putForce (rb : RtRingbuffer) (ptr : List UInt8) : RtRingbuffer × Nat :=
  let length := ptr.length % 2 ^ 16
  let spaceLength := rb.spaceLen
  let ptr := if length > rb.bufferSize then ptr.drop (length - rb.bufferSize) else ptr
  let length := if length > rb.bufferSize then rb.bufferSize else length
  if rb.bufferSize - rb.writeIndex > length then
    let rb := { rb with
      buffer := copyTo rb.buffer rb.writeIndex (ptr.take length)
      writeIndex := index (rb.writeIndex + length) }
    (if length > spaceLength then { rb with readIndex := rb.writeIndex } else rb, length)
  else
    let first := rb.bufferSize - rb.writeIndex
    let rb := { rb with
      buffer := copyTo (copyTo rb.buffer rb.writeIndex (ptr.take first)) 0 ((ptr.take length).drop first)
      writeMirror := !rb.writeMirror
      writeIndex := index (length - first) }
    (if length > spaceLength then { rb with readMirror := !rb.readMirror, readIndex := rb.writeIndex } else rb,
      length)

/-- `rt_ringbuffer_putchar_force`. -/
def putcharForce (rb : RtRingbuffer) (ch : UInt8) : RtRingbuffer × Nat :=
  let oldState := rb.status
  let rb := { rb with buffer := Function.update rb.buffer rb.writeIndex ch }
  -- `buffer_size-1` is an `int`: no index is equal to it in an array of no bytes
  if rb.writeIndex + 1 = rb.bufferSize then
    let rb := { rb with writeMirror := !rb.writeMirror, writeIndex := 0 }
    (if oldState = .full then { rb with readMirror := !rb.readMirror, readIndex := rb.writeIndex } else rb, 1)
  else
    let rb := { rb with writeIndex := index (rb.writeIndex + 1) }
    (if oldState = .full then { rb with readIndex := rb.writeIndex } else rb, 1)

end RtRingbuffer

/-- A call, which may be a forced write. -/
inductive ForceCall where
  | call (c : RbCall)
  | putForce (ptr : List UInt8)
  | putcharForce (ch : UInt8)

/-- Any sequence of calls on a buffer that has been initialised with a pool of `size` bytes. A pool of less than four
bytes makes an array of no bytes, and `rt_ringbuffer_putchar_force` stores outside of it. -/
def forceSystem : System RtRingbuffer ForceCall where
  init rb := ∃ pool size, 0 < size ∧ size < 2 ^ 15 ∧ rb = rtRingbufferInit pool size
  step rb
    | .call c => some (rbStep rb c).1
    | .putForce ptr => if ptr.length < 2 ^ 16 then some (rb.putForce ptr).1 else none
    | .putcharForce ch => if rb.bufferSize = 0 then none else some (rb.putcharForce ch).1

/-- What a forced write of the bytes of `w` is for: the newest bytes are kept, as many as there is room for. -/
def KeepsNewest (rb : RtRingbuffer) (w : List UInt8) (rb' : RtRingbuffer) : Prop :=
  rb'.queue = (rb.queue ++ w).rtake rb.bufferSize ∧ rb'.dataLen = min rb.bufferSize (rb.dataLen + w.length)

instance (rb rb' : RtRingbuffer) (w : List UInt8) : Decidable (KeepsNewest rb w rb') :=
  inferInstanceAs (Decidable (_ ∧ _))

/-- A buffer whose array has no bytes: the indices stay at its start. -/
structure RtRingbuffer.NoArray (rb : RtRingbuffer) : Prop where
  size : rb.bufferSize = 0
  read : rb.readIndex = 0
  write : rb.writeIndex = 0

namespace RtRingbuffer

variable {rb rb' : RtRingbuffer} {w l : List UInt8} {ch : UInt8} {k : Nat}

/-! ## Room for the bytes, or not -/

theorem length_rtake (w : List UInt8) (n : Nat) : (w.rtake n).length = min w.length n := by
  rw [List.rtake, List.length_drop]
  omega

theorem keepsNewest_rtake : KeepsNewest rb (w.rtake rb.bufferSize) rb' ↔ KeepsNewest rb w rb' := by
  have hqueue : (rb.queue ++ w.rtake rb.bufferSize).rtake rb.bufferSize = (rb.queue ++ w).rtake rb.bufferSize := by
    rw [List.rtake_eq_reverse_take_reverse, List.rtake_eq_reverse_take_reverse, List.rtake_eq_reverse_take_reverse,
      List.reverse_append, List.reverse_append, List.reverse_reverse, List.take_append, List.take_append,
      List.take_take, Nat.min_self, List.length_take]
    congr 3
    omega
  have hlen : min rb.bufferSize (rb.dataLen + (w.rtake rb.bufferSize).length) =
      min rb.bufferSize (rb.dataLen + w.length) := by
    rw [length_rtake]
    omega
  rw [KeepsNewest, KeepsNewest, hqueue, hlen]

theorem Ok.room (h : rb.Ok) (hk : l.length ≤ rb.spaceLen)
    (hadd : rb'.Ok ∧ rb'.bufferSize = rb.bufferSize ∧ rb'.queue = rb.queue ++ l) :
    rb'.Ok ∧ rb'.bufferSize = rb.bufferSize ∧ KeepsNewest rb l rb' := by
  obtain ⟨hok, hsize, hqueue⟩ := hadd
  have hle := h.dataLen_le
  unfold spaceLen at hk
  have hlen : rb'.dataLen = rb.dataLen + l.length := by
    rw [← length_queue, hqueue, List.length_append, length_queue]
  refine ⟨hok, hsize, ?_, by omega⟩
  rw [hqueue, List.rtake, List.length_append, length_queue, Nat.sub_eq_zero_of_le (by omega), List.drop_zero]

/-- Where there is no room, the read index follows the write index: the buffer is full if the mirrors are different,
and empty otherwise. -/
theorem Ok.overrun (h : rb.Ok) (hk : rb.spaceLen < l.length) (hsize : rb'.bufferSize = rb.bufferSize)
    (hstored : Ring.Stored rb.buffer rb'.buffer rb.bufferSize rb.writeIndex l)
    (hwrite : rb'.writeIndex = (rb.writeIndex + l.length) % rb.bufferSize) (hread : rb'.readIndex = rb'.writeIndex)
    (hmirror : rb'.readMirror = rb'.writeMirror ↔ rb.readMirror = rb.writeMirror) :
    rb'.Ok ∧ rb'.bufferSize = rb.bufferSize ∧ (KeepsNewest rb l rb' ↔ rb.readMirror ≠ rb.writeMirror) := by
  have hle := h.dataLen_le
  have hpos : 0 < rb.bufferSize := by
    have := h.read
    omega
  unfold spaceLen at hk
  have hlt : rb'.writeIndex < rb'.bufferSize := by
    rw [hwrite, hsize]
    exact Nat.mod_lt _ hpos
  have hok : rb'.Ok := by
    refine ⟨by rw [hsize]; exact h.size, by rw [hread]; exact hlt, hlt, fun _ => ?_, fun _ => ?_⟩
    · exact Nat.le_of_eq hread
    · exact Nat.le_of_eq hread.symm
  refine ⟨hok, hsize, fun hkeeps he => ?_, fun hne => ?_⟩
  · have hzero := hok.dataLen_same (hmirror.mpr he)
    have hlen := hkeeps.2
    rw [hzero, hread, Nat.sub_self] at hlen
    omega
  · have hfull := hok.dataLen_other fun he => hne (hmirror.mp he)
    rw [hread, Nat.sub_self, Nat.sub_zero, hsize] at hfull
    refine ⟨?_, by omega⟩
    rw [queue, hfull, hsize, hread, hwrite]
    exact hstored.overrun h.writeIndex_eq hle (by omega)

/-! ## The two forced writes -/

theorem putForce_spec (h : rb.Ok) (hw : w.length < 2 ^ 16) : (rb.putForce w).1.Ok ∧
    (rb.putForce w).1.bufferSize = rb.bufferSize ∧ (KeepsNewest rb w (rb.putForce w).1 ↔
      rb.readMirror ≠ rb.writeMirror ∨ min w.length rb.bufferSize ≤ rb.spaceLen) := by
  have hlen := length_rtake w rb.bufferSize
  have hwlt := h.write
  rw [← keepsNewest_rtake, ← hlen]
  have hdrop : (if w.length > rb.bufferSize then w.drop (w.length - rb.bufferSize) else w) = w.rtake rb.bufferSize := by
    unfold List.rtake
    split_ifs with hgt
    · rfl
    · rw [Nat.sub_eq_zero_of_le (by omega), List.drop_zero]
  have hcut : (if w.length > rb.bufferSize then rb.bufferSize else w.length) = (w.rtake rb.bufferSize).length := by
    split_ifs <;> omega
  unfold putForce
  dsimp only
  rw [Nat.mod_eq_of_lt hw, hdrop, hcut]
  generalize w.rtake rb.bufferSize = l at hlen
  have hl : l.length ≤ rb.bufferSize := by omega
  have hplace := Ring.place_eq hwlt hl
  rw [List.take_length]
  rcases Nat.lt_or_ge rb.spaceLen l.length with hover | hroom
  · rw [or_iff_left (Nat.not_le_of_lt hover)]
    by_cases hfit : rb.bufferSize - rb.writeIndex > l.length
    · rw [if_pos hfit, if_pos hover, h.index_eq (by omega)]
      rw [if_pos (by omega)] at hplace
      exact h.overrun hover rfl (copyTo_fits (by omega)) hplace.symm rfl Iff.rfl
    · rw [if_neg hfit, if_pos hover, h.index_eq (by omega)]
      refine h.overrun hover rfl (copyTo_wraps hwlt (by omega) hl) ?_ rfl (by rw [Bool.not_inj_iff])
      show l.length - (rb.bufferSize - rb.writeIndex) = _
      rw [hplace]
      split_ifs <;> omega
  · rw [iff_true_right (.inr hroom)]
    refine h.room hroom ?_
    by_cases hfit : rb.bufferSize - rb.writeIndex > l.length
    · rw [if_pos hfit, if_neg (Nat.not_lt_of_le hroom), h.index_eq (by omega)]
      exact h.written hroom rfl rfl rfl (by rw [advance, if_pos hfit]) (copyTo_fits (by omega))
    · rw [if_neg hfit, if_neg (Nat.not_lt_of_le hroom), h.index_eq (by omega)]
      exact h.written hroom rfl rfl rfl (by rw [advance, if_neg hfit]) (copyTo_wraps hwlt (by omega) hl)

theorem status_full : rb.status = .full ↔ rb.readIndex = rb.writeIndex ∧ rb.readMirror ≠ rb.writeMirror := by
  unfold status
  split_ifs with hi hm
  · simp [hm]
  · simp [hi, hm]
  · simp [hi]

theorem Ok.full_iff (h : rb.Ok) : rb.status = .full ↔ rb.spaceLen = 0 := by
  have hle := h.dataLen_le
  have hr := h.read
  have hw := h.write
  unfold spaceLen
  rw [status_full]
  by_cases hm : rb.readMirror = rb.writeMirror
  · rw [h.dataLen_same hm, iff_false_left fun hfull => hfull.2 hm]
    omega
  · have hother := h.other hm
    rw [h.dataLen_other hm, and_iff_left hm]
    omega

theorem putcharForce_spec (h : rb.Ok) (ch : UInt8) : (rb.putcharForce ch).1.Ok ∧
    (rb.putcharForce ch).1.bufferSize = rb.bufferSize ∧ KeepsNewest rb [ch] (rb.putcharForce ch).1 := by
  have hwlt := h.write
  have hplace := Ring.place_eq hwlt (show 1 ≤ rb.bufferSize by omega)
  have hstored : Ring.Stored rb.buffer (Function.update rb.buffer rb.writeIndex ch) rb.bufferSize rb.writeIndex [ch] :=
    Ring.Stored.update hwlt ch
  unfold putcharForce
  dsimp only
  by_cases hfull : rb.status = .full
  · have hover : rb.spaceLen < [ch].length := by
      rw [h.full_iff.mp hfull]
      exact Nat.zero_lt_one
    have hkeep {p : Prop} (hp : p ↔ rb.readMirror ≠ rb.writeMirror) : p := hp.mpr (status_full.mp hfull).2
    rw [if_pos hfull, if_pos hfull]
    split_ifs with hlast
    · refine And.imp_right (And.imp_right hkeep) ?_
      refine h.overrun hover rfl hstored ?_ rfl (by rw [Bool.not_inj_iff])
      rw [List.length_singleton, hlast, Nat.mod_self]
    · rw [h.index_eq (by omega)]
      rw [if_pos (by omega)] at hplace
      refine And.imp_right (And.imp_right hkeep) ?_
      exact h.overrun hover rfl hstored hplace.symm rfl Iff.rfl
  · have hroom : [ch].length ≤ rb.spaceLen := Nat.pos_of_ne_zero fun h0 => hfull (h.full_iff.mpr h0)
    rw [if_neg hfull, if_neg hfull]
    refine h.room hroom ?_
    split_ifs with hlast
    · refine h.written hroom rfl rfl rfl ?_ hstored
      rw [advance, if_neg (by rw [List.length_singleton]; omega), List.length_singleton]
      have hzero : 1 - (rb.bufferSize - rb.writeIndex) = 0 := by omega
      rw [hzero]
    · refine h.written hroom rfl rfl rfl ?_ hstored
      rw [advance, if_pos (by rw [List.length_singleton]; omega), h.index_eq (by omega), List.length_singleton]

/-! ## An array of no bytes -/

theorem NoArray.dataLen_eq (h : rb.NoArray) : rb.dataLen = 0 := by
  unfold dataLen status
  rw [h.size, h.read, h.write, if_pos rfl]
  split_ifs <;> rfl

theorem NoArray.keepsNewest (h : rb.NoArray) (h' : rb'.NoArray) : KeepsNewest rb w rb' := by
  refine ⟨?_, ?_⟩
  · rw [queue, h'.dataLen_eq, Ring.contents_zero, h.size]
    simp [List.rtake]
  · rw [h'.dataLen_eq, h.size, Nat.zero_min]

theorem NoArray.putForce (h : rb.NoArray) (w : List UInt8) : (rb.putForce w).1.NoArray := by
  have hcut : (if w.length % 2 ^ 16 > 0 then 0 else w.length % 2 ^ 16) = 0 := by split_ifs <;> omega
  unfold RtRingbuffer.putForce
  dsimp only
  rw [h.size, h.write, hcut, if_neg (Nat.lt_irrefl 0), if_neg (Nat.not_lt_zero _)]
  exact ⟨rfl, h.read, rfl⟩

theorem NoArray.rbStep (h : rb.NoArray) (c : RbCall) : (rbStep rb c).1.NoArray := by
  have hlen := h.dataLen_eq
  have hspace : rb.spaceLen = 0 := by rw [spaceLen, h.size, hlen]
  cases c with
  | put ptr =>
    rw [RingBuffers.rbStep, put, if_pos hspace]
    exact h
  | putchar ch =>
    rw [RingBuffers.rbStep, putchar, if_pos hspace]
    exact h
  | get length =>
    rw [RingBuffers.rbStep, get, if_pos hlen]
    exact h
  | getchar =>
    rw [RingBuffers.rbStep, getchar, if_pos hlen]
    exact h
  | peak =>
    rw [RingBuffers.rbStep, peak, if_pos hlen]
    exact h
  | reset => exact ⟨h.size, rfl, rfl⟩
  | dataLen => exact h

theorem NoArray.putcharForce (h : rb.NoArray) (ch : UInt8) :
    KeepsNewest rb [ch] (rb.putcharForce ch).1 ↔ rb.readMirror ≠ rb.writeMirror := by
  have hfull : rb.status = .full ↔ rb.readMirror ≠ rb.writeMirror := by
    rw [status_full, h.read, h.write]
    exact and_iff_right rfl
  unfold RtRingbuffer.putcharForce
  dsimp only
  rw [h.size, h.write, if_neg (by decide)]
  by_cases hm : rb.readMirror = rb.writeMirror
  · rw [if_neg (fun hf => hfull.mp hf hm)]
    refine iff_of_false (fun hkeeps => ?_) (fun hne => hne hm)
    have hlen := hkeeps.2
    rw [h.size, Nat.zero_min] at hlen
    simp [dataLen, status, h.read, index] at hlen
  · rw [if_pos (hfull.mpr hm)]
    refine iff_of_true ⟨?_, ?_⟩ hm
    · rw [h.size]
      simp [queue, dataLen, status, hm, List.rtake]
    · simp [dataLen, status, hm, h.size]

end RtRingbuffer

/-! ## Every sequence of calls -/

section system

variable {h : History RtRingbuffer ForceCall} {rb rb' : RtRingbuffer}

theorem init_noArray (pool : Nat → UInt8) {size : Nat} (h4 : size < 4) : (rtRingbufferInit pool size).NoArray := by
  refine ⟨?_, rfl, rfl⟩
  show (rtAlignDown _ _).toNat = _
  rw [rtAlignDown_toNat, BitVec.toNat_ofNat, Nat.mod_eq_of_lt (by omega)]
  omega

theorem forceStep_ok (h : rb.Ok ∨ rb.NoArray) {c : ForceCall} (hstep : forceSystem.step rb c = some rb') :
    rb'.Ok ∨ rb'.NoArray := by
  cases c with
  | call c =>
    obtain rfl := Option.some.inj hstep
    exact h.imp (fun hok => (rbStep_refines hok c).1) fun hno => hno.rbStep c
  | putForce ptr =>
    obtain ⟨hlt, hsome⟩ := Option.ite_none_right_eq_some.mp hstep
    obtain rfl := Option.some.inj hsome
    exact h.imp (fun hok => (RtRingbuffer.putForce_spec hok hlt).1) fun hno => hno.putForce ptr
  | putcharForce ch =>
    obtain ⟨hne, hsome⟩ := Option.ite_none_left_eq_some.mp hstep
    obtain rfl := Option.some.inj hsome
    rcases h with hok | hno
    · exact .inl (RtRingbuffer.putcharForce_spec hok ch).1
    · exact absurd hno.size hne

theorem forceSystem_ok (hrun : forceSystem.Run h rb) : rb.Ok ∨ rb.NoArray := by
  refine hrun.always (I := fun _ rb => rb.Ok ∨ rb.NoArray) ?_ fun _ _ _ _ _ hok hstep => forceStep_ok hok hstep
  rintro _ ⟨pool, size, -, hmax, rfl⟩
  rcases Nat.lt_or_ge size 4 with h4 | h4
  · exact .inr (init_noArray pool h4)
  · exact .inl (init_ok pool h4 hmax).1

/-- After every sequence of calls, `rt_ringbuffer_put_force` keeps the newest bytes if and only if it does not take
the place of unread bytes, or these already go round the end of the array. `rt_ringbuffer_putchar_force` always keeps
them, where there is an array at all. -/
theorem force_keeps_newest (hrun : forceSystem.Run h rb) (w : List UInt8) (hw : w.length < 2 ^ 16) (ch : UInt8) :
    (KeepsNewest rb w (rb.putForce w).1 ↔
      rb.readMirror ≠ rb.writeMirror ∨ min w.length rb.bufferSize ≤ rb.spaceLen) ∧
    (KeepsNewest rb [ch] (rb.putcharForce ch).1 ↔ rb.bufferSize ≠ 0 ∨ rb.readMirror ≠ rb.writeMirror) := by
  rcases forceSystem_ok hrun with hok | hno
  · have hpos : rb.bufferSize ≠ 0 := by
      have := hok.read
      omega
    exact ⟨(RtRingbuffer.putForce_spec hok hw).2.2, iff_of_true (RtRingbuffer.putcharForce_spec hok ch).2.2 (.inl hpos)⟩
  · refine ⟨iff_of_true (hno.keepsNewest (hno.putForce w)) (.inr ?_), ?_⟩
    · rw [hno.size, Nat.min_zero]
      exact Nat.zero_le _
    · rw [hno.putcharForce ch]
      exact (or_iff_right fun hne => hne hno.size).symm

/-- The unread bytes go round the end of an array of four bytes that is full: two more push out the oldest two. -/
theorem force_keeps_newest_wrapped :
    (((rbRun (rtRingbufferInit (fun _ => 0) 4) [.put [1, 2, 3], .get 2, .put [4, 5, 6]]).1.putForce [7, 8]).1.queue =
      [5, 6, 7, 8]) ∧
    KeepsNewest (rbRun (rtRingbufferInit (fun _ => 0) 4) [.put [1, 2, 3], .get 2, .put [4, 5, 6]]).1 [7, 8]
      ((rbRun (rtRingbufferInit (fun _ => 0) 4) [.put [1, 2, 3], .get 2, .put [4, 5, 6]]).1.putForce [7, 8]).1 :=
  ⟨by decide, (force_keeps_newest (.step (a := .call (.put [4, 5, 6])) (.step (a := .call (.get 2))
    (.step (a := .call (.put [1, 2, 3])) (.init ⟨fun _ => 0, 4, by decide, by decide, rfl⟩) rfl) rfl) rfl) [7, 8]
    (by decide) 0).1.mpr (by decide)⟩

/-- Two bytes are stored in an array of four, and four are forced in: the buffer is empty afterwards. -/
theorem put_force_empties :
    (∃ h, forceSystem.Run h (rbRun (rtRingbufferInit (fun _ => 0) 4) [.put [1, 2]]).1) ∧
    ((rbRun (rtRingbufferInit (fun _ => 0) 4) [.put [1, 2]]).1.putForce [3, 4, 5, 6]).1.queue = [] ∧
    ¬ KeepsNewest (rbRun (rtRingbufferInit (fun _ => 0) 4) [.put [1, 2]]).1 [3, 4, 5, 6]
      ((rbRun (rtRingbufferInit (fun _ => 0) 4) [.put [1, 2]]).1.putForce [3, 4, 5, 6]).1 := by
  refine ⟨⟨_, .step (a := .call (.put [1, 2])) (.init ⟨fun _ => 0, 4, by decide, by decide, rfl⟩) rfl⟩, ?_, ?_⟩
  · decide
  · decide

end system

end ThyristorController.RingBuffers
