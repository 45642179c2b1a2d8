import ThyristorController.Drivers.Pipe

/-!
# The length of a write to a pipe (`components/drivers/src/pipe.c`)

`pipe_fops_write` with the ring buffer itself, while readers drain the pipe. What is left of the `size_t` count is
passed to `rt_ringbuffer_put` as a `rt_uint16_t`: `pipe_write_length` says that a blocking write of 65536 bytes or more
never returns, and when a non-blocking write stores as many bytes as there is space for.
-/

namespace ThyristorController.Pipes

open RingBuffers (RtRingbuffer)

/-! ## The write -/

/-- The other end of the pipe during a write: the number of its descriptors at each test, and the lengths of the reads
that come during each wait of the writer. -/
structure Readers where
  count : Nat → Nat
  reads : Nat → List Nat

/-- The reads that come during a wait: the bytes that they get. -/
def drain (fifo : RtRingbuffer) : List Nat → RtRingbuffer × List UInt8
  | [] => (fifo, [])
  | length :: lengths =>
    let (fifo, buf) := fifo.get (length16 length)
    let (fifo, bufs) := drain fifo lengths
    (fifo, buf ++ bufs)

/-- What a write has come to: the ring buffer, the bytes that readers have got meanwhile, and the result. -/
structure Written where
  fifo : RtRingbuffer
  taken : List UInt8
  ret : Int

/-- The loop of `pipe_fops_write` from its `i`-th look at the buffer on, in at most so many rounds. -/
def writeLoop (r : Readers) (nonblock : Bool) (count : Nat) :
    Nat → Nat → RtRingbuffer → List UInt8 → Nat → List UInt8 → Option Written
  | 0, _, _, _, _, _ => none
  | n + 1, i, fifo, pbuf, ret, taken =>
    if r.count (i + 1) = 0 then some ⟨fifo, taken, if ret = 0 then -epipe else ret⟩
    else
      let (fifo, len) := fifo.put (pbuf.take (length16 (count - ret)))
      let ret := ret + len
      let pbuf := pbuf.drop len
      if ret = count then some ⟨fifo, taken, ret⟩
      else if nonblock then some ⟨fifo, taken, if ret = 0 then -eagain else ret⟩
      else
        let (fifo, buf) := drain fifo (r.reads i)
        writeLoop r nonblock count n (i + 1) fifo pbuf ret (taken ++ buf)

/-- `pipe_fops_write`, in at most so many rounds of its loop. -/
def pipeFopsWrite (r : Readers) (nonblock : Bool) (n : Nat) (fifo : RtRingbuffer) (buf : List UInt8) :
    Option Written :=
  if r.count 0 = 0 then some ⟨fifo, [], -epipe⟩
  else if buf.length = 0 then some ⟨fifo, [], 0⟩
  else writeLoop r nonblock buf.length n 0 fifo buf 0 []

/-- There are readers, and during each wait of the writer one of them reads at least one byte if there is one. -/
structure Readers.Draining (r : Readers) : Prop where
  open' : ∀ i, r.count i ≠ 0
  reads : ∀ i, ∃ length ∈ r.reads i, length16 length ≠ 0

/-- A blocking write returns the count, and exactly the bytes of `buf` have been put, in order. -/
def WritesAll (r : Readers) (fifo : RtRingbuffer) (buf : List UInt8) : Prop :=
  ∃ n w, pipeFopsWrite r false n fifo buf = some w ∧ w.ret = buf.length ∧ w.taken ++ w.fifo.queue = fifo.queue ++ buf

/-- The number of bytes, or the would-block error if it is zero and the count is not. -/
def nonblockRet (count len : Nat) : Int := if len = 0 ∧ count ≠ 0 then -eagain else len

/-- A non-blocking write puts as many bytes as there is space for, and returns their number. -/
def WritesPrefix (r : Readers) (fifo : RtRingbuffer) (buf : List UInt8) : Prop :=
  ∃ n w, pipeFopsWrite r true n fifo buf = some w ∧ w.ret = nonblockRet buf.length (min buf.length fifo.spaceLen) ∧
    w.taken = [] ∧ w.fifo.queue = fifo.queue ++ buf.take (min buf.length fifo.spaceLen)

section lemmas

variable {r : Readers} {fifo : RtRingbuffer} {buf pbuf taken : List UInt8} {count ret i n : Nat}

/-! ## One round -/

theorem drain_spec (h : fifo.Ok) (lengths : List Nat) : (drain fifo lengths).1.Ok ∧
    (drain fifo lengths).1.bufferSize = fifo.bufferSize ∧
    (drain fifo lengths).2 ++ (drain fifo lengths).1.queue = fifo.queue := by
  induction lengths generalizing fifo with
  | nil => exact ⟨h, rfl, rfl⟩
  | cons length lengths ih =>
    obtain ⟨hbytes, hok, hsize, hqueue⟩ := RtRingbuffer.get_spec h (length16 length)
    obtain ⟨hok', hsize', htaken⟩ := ih hok
    refine ⟨hok', hsize'.trans hsize, ?_⟩
    show (fifo.get (length16 length)).2 ++ (drain (fifo.get (length16 length)).1 lengths).2 ++
      (drain (fifo.get (length16 length)).1 lengths).1.queue = _
    rw [List.append_assoc, htaken, hbytes, hqueue, List.take_append_drop]

theorem space_iff (fifo : RtRingbuffer) : fifo.spaceLen ≠ 0 ↔ fifo.queue.length < fifo.bufferSize := by
  rw [RtRingbuffer.length_queue, RtRingbuffer.spaceLen]
  omega

theorem drain_space (h : fifo.Ok) {lengths : List Nat} (hread : ∃ length ∈ lengths, length16 length ≠ 0) :
    (drain fifo lengths).1.spaceLen ≠ 0 := by
  induction lengths generalizing fifo with
  | nil =>
    obtain ⟨length, hmem, -⟩ := hread
    contradiction
  | cons first lengths ih =>
    obtain ⟨-, hok, hsize, hqueue⟩ := RtRingbuffer.get_spec h (length16 first)
    obtain ⟨length, hmem, hne⟩ := hread
    rcases List.mem_cons.mp hmem with rfl | hmem
    · obtain ⟨-, hsize', htaken⟩ := drain_spec hok lengths
      have hle := h.dataLen_le
      have hpos := h.read
      have hlen := congrArg List.length htaken
      rw [List.length_append, hqueue, List.length_drop, RtRingbuffer.length_queue fifo] at hlen
      rw [space_iff]
      show (drain (fifo.get (length16 length)).1 lengths).1.queue.length <
        (drain (fifo.get (length16 length)).1 lengths).1.bufferSize
      rw [hsize', hsize]
      omega
    · exact ih hok ⟨length, hmem, hne⟩

theorem round_spec (h : fifo.Ok) (hleft : ret + pbuf.length = count) :
    (fifo.put (pbuf.take (length16 (count - ret)))).2 = min fifo.spaceLen (length16 pbuf.length) ∧
    (fifo.put (pbuf.take (length16 (count - ret)))).1.Ok ∧
    (fifo.put (pbuf.take (length16 (count - ret)))).1.bufferSize = fifo.bufferSize ∧
    (fifo.put (pbuf.take (length16 (count - ret)))).1.queue =
      fifo.queue ++ pbuf.take (min fifo.spaceLen (length16 pbuf.length)) := by
  have hcount : count - ret = pbuf.length := by omega
  have hle : length16 pbuf.length ≤ pbuf.length := Nat.mod_le _ _
  obtain ⟨hlen, hok, hsize, hqueue⟩ := RtRingbuffer.put_spec h (pbuf.take (length16 pbuf.length))
  rw [hcount]
  refine ⟨?_, hok, hsize, ?_⟩
  · rw [hlen, List.length_take_of_le hle]
  · rw [hqueue, List.take_take]

theorem round_refines (h : fifo.Ok) (hleft : ret + pbuf.length = count) :
    ((fifo.put (pbuf.take (length16 (count - ret)))).1.queue, (fifo.put (pbuf.take (length16 (count - ret)))).2) =
      put fifo.bufferSize fifo.queue (pbuf.take (length16 pbuf.length)) := by
  obtain ⟨hlen, -, -, hqueue⟩ := round_spec h hleft
  have hle : length16 pbuf.length ≤ pbuf.length := Nat.mod_le _ _
  rw [put, hlen, hqueue, List.take_take, List.length_take_of_le hle, RtRingbuffer.length_queue]
  rfl

/-! ## Blocking writes -/

theorem loop_returns (hr : r.Draining) (m : Nat) (i : Nat) (hok : fifo.Ok) (hleft : ret + pbuf.length = count)
    (hsome : pbuf ≠ []) (hfit : pbuf.length < 2 ^ 16)
    (hm : pbuf.length + (if fifo.spaceLen = 0 then 1 else 0) ≤ m) :
    ∃ n w l, writeLoop r false count n i fifo pbuf ret taken = some w ∧ w.ret = count ∧ w.taken = taken ++ l ∧
      l ++ w.fifo.queue = fifo.queue ++ pbuf := by
  induction m generalizing i fifo pbuf ret taken with
  | zero =>
    have hpos := List.length_pos_iff.mpr hsome
    omega
  | succ m ih =>
    obtain ⟨hlen, hok', hsize, hqueue⟩ := round_spec hok hleft
    have hlength : length16 pbuf.length = pbuf.length := Nat.mod_eq_of_lt hfit
    rw [hlength] at hlen hqueue
    by_cases hdone : fifo.spaceLen < pbuf.length
    · rw [Nat.min_eq_left (Nat.le_of_lt hdone)] at hlen hqueue
      obtain ⟨hok₂, -, htaken⟩ := drain_spec hok' (r.reads i)
      have hspace := drain_space hok' (hr.reads i)
      obtain ⟨n, w, l, hw, hret, hl, hall⟩ := @ih _ (pbuf.drop fifo.spaceLen)
        (taken ++ (drain (fifo.put (pbuf.take (length16 (count - ret)))).1 (r.reads i)).2) (ret + fifo.spaceLen) (i + 1)
        hok₂ (by rw [List.length_drop]; omega) (List.drop_eq_nil_iff.not.mpr (Nat.not_le_of_lt hdone))
        (by rw [List.length_drop]; omega) (by
          rw [List.length_drop, if_neg hspace]
          split_ifs at hm <;> omega)
      refine ⟨n + 1, w, _ ++ l, ?_, hret, hl.trans (List.append_assoc _ _ _), ?_⟩
      · rw [writeLoop, if_neg (hr.open' _)]
        dsimp only
        rw [hlen, if_neg (by omega), if_neg Bool.false_ne_true]
        exact hw
      · rw [List.append_assoc, hall, ← List.append_assoc, htaken, hqueue, List.append_assoc, List.take_append_drop]
    · refine ⟨1, ⟨(fifo.put (pbuf.take (length16 (count - ret)))).1, taken, count⟩, [], ?_, rfl, by simp, ?_⟩
      · rw [writeLoop, if_neg (hr.open' _)]
        dsimp only
        rw [hlen, Nat.min_eq_right (Nat.le_of_not_lt hdone), if_pos hleft, hleft]
      · rw [List.nil_append, hqueue, Nat.min_eq_right (Nat.le_of_not_lt hdone), List.take_length]

theorem loop_goes_on (hr : ∀ i, r.count i ≠ 0) (hok : fifo.Ok) (hleft : ret + pbuf.length = count)
    (hlong : 2 ^ 16 ≤ pbuf.length) : writeLoop r false count n i fifo pbuf ret taken = none := by
  induction n generalizing i fifo pbuf ret taken with
  | zero => rfl
  | succ n ih =>
    obtain ⟨hlen, hok', hsize, hqueue⟩ := round_spec hok hleft
    have hmod : length16 pbuf.length + 2 ^ 16 ≤ pbuf.length := by
      unfold length16
      omega
    rw [writeLoop, if_neg (hr _)]
    dsimp only
    rw [hlen, if_neg (by omega), if_neg Bool.false_ne_true]
    exact ih (drain_spec hok' _).1 (by rw [List.length_drop]; omega) (by rw [List.length_drop]; omega)

/-! ## Non-blocking writes -/

theorem nonblockRet_inj {len len' : Nat} (h : nonblockRet count len = nonblockRet count len') : len = len' := by
  unfold nonblockRet eagain at h
  split_ifs at h <;> omega

theorem nonblock_spec (hr : ∀ i, r.count i ≠ 0) (hok : fifo.Ok) (buf : List UInt8) (n : Nat) :
    ∃ w, pipeFopsWrite r true (n + 1) fifo buf = some w ∧ w.taken = [] ∧
      w.ret = nonblockRet buf.length (min fifo.spaceLen (length16 buf.length)) ∧
      w.fifo.queue = fifo.queue ++ buf.take (min fifo.spaceLen (length16 buf.length)) := by
  have hle : length16 buf.length ≤ buf.length := Nat.mod_le _ _
  unfold pipeFopsWrite nonblockRet
  rw [if_neg (hr 0)]
  by_cases hnil : buf.length = 0
  · have hzero : min fifo.spaceLen (length16 buf.length) = 0 := by omega
    rw [if_pos hnil, hzero, if_neg (fun h => h.2 hnil), List.take_zero, List.append_nil]
    exact ⟨_, rfl, rfl, rfl, rfl⟩
  · rw [if_neg hnil, writeLoop, if_neg (hr _)]
    obtain ⟨hlen, hok', hsize, hqueue⟩ := @round_spec fifo buf buf.length 0 hok (Nat.zero_add _)
    dsimp only
    rw [hlen, Nat.zero_add]
    generalize min fifo.spaceLen (length16 buf.length) = len at hqueue
    by_cases hall : len = buf.length
    · rw [if_pos hall, if_neg (by omega)]
      exact ⟨_, rfl, rfl, rfl, hqueue⟩
    · rw [if_neg hall, if_pos rfl]
      refine ⟨_, rfl, rfl, ?_, hqueue⟩
      dsimp only
      simp only [hnil, ne_eq, not_false_eq_true, and_true]

end lemmas

/-- While there are readers: a non-blocking write puts the bytes there is space for if and only if the number that is
passed on is not less, and a blocking write returns the count, with the bytes put in order, if and only if it fits into
16 bits. -/
theorem pipe_write_length {fifo : RtRingbuffer} (hok : fifo.Ok) (r : Readers) (hr : r.Draining) (buf : List UInt8) :
    (WritesPrefix r fifo buf ↔ min fifo.spaceLen (length16 buf.length) = min fifo.spaceLen buf.length) ∧
      (WritesAll r fifo buf ↔ buf.length < 2 ^ 16) := by
  refine ⟨⟨?_, fun heq => ?_⟩, ⟨?_, fun hfit => ?_⟩⟩
  · rintro ⟨n, w, hw, hret, -⟩
    by_cases hnil : buf.length = 0
    · rw [hnil]
      rfl
    · cases n with
      | zero =>
        rw [pipeFopsWrite, if_neg (hr.open' 0), if_neg hnil] at hw
        contradiction
      | succ n =>
        obtain ⟨w', hw', -, hret', -⟩ := nonblock_spec hr.open' hok buf n
        obtain rfl := Option.some.inj (hw'.symm.trans hw)
        exact (nonblockRet_inj (hret'.symm.trans hret)).trans (Nat.min_comm _ _)
  · obtain ⟨w, hw, htaken, hret, hqueue⟩ := nonblock_spec hr.open' hok buf 0
    rw [heq, Nat.min_comm] at hret hqueue
    exact ⟨1, w, hw, hret, htaken, hqueue⟩
  · rintro ⟨n, w, hw, hret, -⟩
    by_contra hlong
    rw [pipeFopsWrite, if_neg (hr.open' 0), if_neg (by omega),
      loop_goes_on hr.open' hok (Nat.zero_add _) (Nat.le_of_not_lt hlong)] at hw
    contradiction
  · by_cases hnil : buf = []
    · subst hnil
      refine ⟨0, ⟨fifo, [], 0⟩, ?_, rfl, by simp⟩
      rw [pipeFopsWrite, if_neg (hr.open' 0), if_pos List.length_nil]
    · obtain ⟨n, w, l, hw, hret, hl, hall⟩ := @loop_returns r fifo buf [] buf.length 0 hr _ 0 hok (Nat.zero_add _) hnil
        hfit (Nat.le_refl _)
      refine ⟨n, w, ?_, hret, ?_⟩
      · rw [pipeFopsWrite, if_neg (hr.open' 0), if_neg (fun h0 => hnil (List.eq_nil_of_length_eq_zero h0))]
        exact hw
      · rw [hl, List.nil_append]
        exact hall

/-- A reader that takes four bytes in each wait. -/
def fourBytes : Readers := ⟨fun _ => 1, fun _ => [4]⟩

theorem fourBytes_draining : fourBytes.Draining :=
  ⟨fun _ => Nat.one_ne_zero, fun _ => ⟨4, List.mem_singleton.mpr rfl, by decide⟩⟩

/-- Six bytes go through a buffer of four. -/
theorem pipe_write_length_six :
    WritesAll fourBytes (RingBuffers.rtRingbufferInit (fun _ => 0) 4) [1, 2, 3, 4, 5, 6] ∧
    WritesPrefix fourBytes (RingBuffers.rtRingbufferInit (fun _ => 0) 4) [1, 2, 3, 4, 5, 6] :=
  ⟨(pipe_write_length (RingBuffers.init_ok (fun _ => 0) (Nat.le_refl 4) (by decide)).1 fourBytes fourBytes_draining
      [1, 2, 3, 4, 5, 6]).2.mpr (by decide),
    (pipe_write_length (RingBuffers.init_ok (fun _ => 0) (Nat.le_refl 4) (by decide)).1 fourBytes fourBytes_draining
      [1, 2, 3, 4, 5, 6]).1.mpr (by decide)⟩

/-- A write of 65536 bytes to the empty buffer passes on a length of 0: it would block, and a blocking one does, for
ever. -/
theorem write_of_65536 : (∃ w, pipeFopsWrite fourBytes true 1 (RingBuffers.rtRingbufferInit (fun _ => 0) 4)
      (List.replicate 65536 0) = some w ∧ w.ret = -eagain) ∧
    (RingBuffers.rtRingbufferInit (fun _ => 0) 4).spaceLen = 4 ∧
    ¬ WritesAll fourBytes (RingBuffers.rtRingbufferInit (fun _ => 0) 4) (List.replicate 65536 0) := by
  have hok := (RingBuffers.init_ok (fun _ => 0) (Nat.le_refl 4) (show 4 < 2 ^ 15 by decide)).1
  have hlen : (List.replicate 65536 (0 : UInt8)).length = 65536 := List.length_replicate
  generalize List.replicate 65536 (0 : UInt8) = buf at hlen
  refine ⟨?_, by decide, ?_⟩
  · obtain ⟨w, hw, -, hret, -⟩ := nonblock_spec fourBytes_draining.open' hok buf 0
    rw [hlen] at hret
    exact ⟨w, hw, hret.trans (by decide)⟩
  · rintro ⟨n, w, hw, -⟩
    rw [pipeFopsWrite, if_neg (fourBytes_draining.open' 0), if_neg (by rw [hlen]; decide),
      loop_goes_on fourBytes_draining.open' hok (Nat.zero_add _) (by rw [hlen]; decide)] at hw
    contradiction

end ThyristorController.Pipes
