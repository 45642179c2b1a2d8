import Mathlib.Data.Nat.ModEq
import ThyristorController.Lib.Ring
import ThyristorController.Lib.Run

/-!
# Reception by DMA, behind the interrupt (`components/drivers/serial/serial.c`)

The DMA stores the received bytes in the buffer of the FIFO, going round its end, and `rt_hw_serial_isr` is told how
many they are. The FIFO never sees a byte: `rt_dma_recv_update_put_index` finds out from the indices alone whether
unread bytes were overwritten, and `_serial_dma_rx` copies the bytes out. Both add to an index of 16 bits before they
divide it by the size of the buffer; `dma_rx_keeps` says that this is the only thing that can go wrong.
-/

namespace ThyristorController.SerialDmaRx

open Transition

/-! ## The functions -/

/-- `struct rt_serial_rx_fifo`. -/
structure RtSerialRxFifo where
  buffer : Nat → UInt8
  putIndex : Nat
  getIndex : Nat
  isFull : Bool

/-- An index is a `rt_uint16_t`. -/
def index16 (i : Nat) : Nat := i % 2 ^ 16

namespace RtSerialRxFifo

/-- `rt_dma_calc_recved_len`. -/
def rtDmaCalcRecvedLen (bufsz : Nat) (fifo : RtSerialRxFifo) : Nat :=
  if fifo.putIndex = fifo.getIndex then if fifo.isFull then bufsz else 0
  else if fifo.putIndex > fifo.getIndex then fifo.putIndex - fifo.getIndex
  else bufsz - (fifo.getIndex - fifo.putIndex)

/-- `rt_dma_recv_update_get_index`. -/
def rtDmaRecvUpdateGetIndex (bufsz : Nat) (fifo : RtSerialRxFifo) (len : Nat) : RtSerialRxFifo :=
  let getIndex := index16 (fifo.getIndex + len)
  { fifo with
    isFull := fifo.isFull && len = 0
    getIndex := if getIndex ≥ bufsz then getIndex % bufsz else getIndex }

/-- `rt_dma_recv_update_put_index`. -/
def rtDmaRecvUpdatePutIndex (bufsz : Nat) (fifo : RtSerialRxFifo) (len : Nat) : RtSerialRxFifo :=
  let putIndex := index16 (fifo.putIndex + len)
  let fifo :=
    if fifo.getIndex ≤ fifo.putIndex then
      -- beyond the fifo end
      if putIndex ≥ bufsz then
        let putIndex := putIndex % bufsz
        -- force overwrite get index
        { fifo with putIndex := putIndex, isFull := if putIndex ≥ fifo.getIndex then true else fifo.isFull }
      else { fifo with putIndex := putIndex }
    else
      if putIndex ≥ fifo.getIndex then
        { fifo with putIndex := if putIndex ≥ bufsz then putIndex % bufsz else putIndex, isFull := true }
      else { fifo with putIndex := putIndex }
  if fifo.isFull then { fifo with getIndex := fifo.putIndex } else fifo

/-- `_serial_dma_rx` of `length` bytes, with a buffer of `bufsz` places: the bytes at `data`. -/
def serialDmaRx (bufsz : Nat) (fifo : RtSerialRxFifo) (length : Nat) : RtSerialRxFifo × List UInt8 :=
  let fifoRecvedLen := fifo.rtDmaCalcRecvedLen bufsz
  let recvLen := if length < fifoRecvedLen then length else fifoRecvedLen
  let data :=
    if fifo.getIndex + recvLen < bufsz then Ring.segment fifo.buffer fifo.getIndex recvLen
    else
      Ring.segment fifo.buffer fifo.getIndex (bufsz - fifo.getIndex) ++
        Ring.segment fifo.buffer 0 (recvLen + fifo.getIndex - bufsz)
  (fifo.rtDmaRecvUpdateGetIndex bufsz recvLen, data)

end RtSerialRxFifo

/-! ## The system -/

/-- The FIFO, and the place where the DMA stores the next byte. -/
structure DmaRx where
  fifo : RtSerialRxFifo
  place : Nat

/-- The DMA has stored some bytes and their number is reported; a read. -/
inductive DmaRxAction where
  | received (l : List UInt8)
  | read (length : Nat)

namespace DmaRx

/-- The DMA stores the bytes, and `rt_hw_serial_isr` hands on their number. -/
def received (bufsz : Nat) (s : DmaRx) (l : List UInt8) : DmaRx where
  fifo := { s.fifo with buffer := Ring.store s.fifo.buffer bufsz s.place l }.rtDmaRecvUpdatePutIndex bufsz l.length
  place := (s.place + l.length) % bufsz

def read (bufsz : Nat) (s : DmaRx) (length : Nat) : DmaRx := { s with fifo := (s.fifo.serialDmaRx bufsz length).1 }

/-- The number of bytes that can be read. -/
def len (bufsz : Nat) (s : DmaRx) : Nat := s.fifo.rtDmaCalcRecvedLen bufsz

/-- The bytes that can be read, from the get index on. -/
def unread (bufsz : Nat) (s : DmaRx) : List UInt8 :=
  Ring.contents s.fifo.buffer bufsz s.fifo.getIndex (s.len bufsz)

end DmaRx

/-- Reception into a buffer of `bufsz` places, which the DMA fills from its start. A report is about at least one byte,
and about no more than the buffer holds. -/
def dmaRxSystem (bufsz : Nat) : System DmaRx DmaRxAction where
  init s := s.place = 0 ∧ s.fifo.putIndex = 0 ∧ s.fifo.getIndex = 0 ∧ s.fifo.isFull = false
  step s
    | .received l => if 1 ≤ l.length ∧ l.length ≤ bufsz then some (s.received bufsz l) else none
    | .read length => some (s.read bufsz length)

/-- The get index is the place of the oldest byte that can be read: as many places behind it, the DMA goes on. -/
def PointsToOldest (bufsz : Nat) (s : DmaRx) : Prop :=
  s.fifo.getIndex < bufsz ∧ (s.fifo.getIndex + s.len bufsz) % bufsz = s.place

/-- A report of the bytes of `l`: the newest bytes can be read, as many as there is room for. -/
def ReceivedOk (bufsz : Nat) (s : DmaRx) (l : List UInt8) (s' : DmaRx) : Prop :=
  s'.len bufsz = min bufsz (s.len bufsz + l.length) ∧ PointsToOldest bufsz s' ∧
    s'.unread bufsz = (s.unread bufsz ++ l).rtake bufsz

/-- A read returns the oldest bytes and takes them out. -/
def ReadOk (bufsz : Nat) (s : DmaRx) (length : Nat) (data : List UInt8) (s' : DmaRx) : Prop :=
  data = (s.unread bufsz).take length ∧ s'.len bufsz = s.len bufsz - min length (s.len bufsz) ∧
    PointsToOldest bufsz s' ∧ s'.unread bufsz = (s.unread bufsz).drop length

/-- No index goes beyond 16 bits before the division. -/
def Fits (bufsz : Nat) (s : DmaRx) : DmaRxAction → Prop
  | .received l => s.fifo.putIndex + l.length < 2 ^ 16
  | .read length => s.fifo.getIndex + min length (s.len bufsz) < 2 ^ 16

instance (bufsz : Nat) (s : DmaRx) : (a : DmaRxAction) → Decidable (Fits bufsz s a)
  | .received _ => inferInstanceAs (Decidable (_ < _))
  | .read _ => inferInstanceAs (Decidable (_ < _))

/-! ## The indices -/

namespace DmaRx

/-- The indices are places of the buffer, and they are equal if the buffer is full. -/
structure Indices (bufsz : Nat) (s : DmaRx) : Prop where
  put : s.fifo.putIndex < bufsz
  get : s.fifo.getIndex < bufsz
  full : s.fifo.isFull = true → s.fifo.getIndex = s.fifo.putIndex

/-- The DMA goes on at the put index. -/
structure Ok (bufsz : Nat) (s : DmaRx) : Prop extends Indices bufsz s where
  place : s.place = s.fifo.putIndex

variable {bufsz : Nat} {s s' : DmaRx} {l : List UInt8} {length : Nat}

theorem Indices.len_le (h : s.Indices bufsz) : s.len bufsz ≤ bufsz := by
  have hp := h.put
  unfold len RtSerialRxFifo.rtDmaCalcRecvedLen
  split_ifs <;> omega

theorem Indices.put_eq (h : s.Indices bufsz) : (s.fifo.getIndex + s.len bufsz) % bufsz = s.fifo.putIndex := by
  have hp := h.put
  have hg := h.get
  rw [Ring.place_eq hg h.len_le]
  unfold len RtSerialRxFifo.rtDmaCalcRecvedLen
  split_ifs <;> omega

theorem Indices.len_of_full (h : s.Indices bufsz) (hfull : s.fifo.isFull = true) : s.len bufsz = bufsz := by
  rw [len, RtSerialRxFifo.rtDmaCalcRecvedLen, if_pos (h.full hfull).symm, if_pos hfull]

theorem Indices.len_lt (h : s.Indices bufsz) (hfull : s.fifo.isFull = false) : s.len bufsz < bufsz := by
  have hp := h.put
  have hg := h.get
  rw [len, RtSerialRxFifo.rtDmaCalcRecvedLen, hfull]
  split_ifs <;> first | contradiction | omega

/-- The number of bytes follows from the put index, where the buffer is not full. -/
theorem Indices.len_eq (h : s.Indices bufsz) (hfull : s.fifo.isFull = false) {n : Nat} (hn : n < bufsz)
    (hput : s.fifo.putIndex = (s.fifo.getIndex + n) % bufsz) : s.len bufsz = n := by
  have hlt := h.len_lt hfull
  have heq := h.put_eq
  have hg := h.get
  rw [hput, Ring.place_eq hg h.len_le, Ring.place_eq hg (Nat.le_of_lt hn)] at heq
  split_ifs at heq <;> omega

theorem Ok.points (h : s.Ok bufsz) : PointsToOldest bufsz s := ⟨h.get, h.put_eq.trans h.place.symm⟩

theorem Indices.ok (h : s.Indices bufsz) (hpoints : PointsToOldest bufsz s) : s.Ok bufsz :=
  ⟨h, hpoints.2.symm.trans h.put_eq⟩

theorem index16_eq {i : Nat} (h : i < 2 ^ 16) : index16 i = i := Nat.mod_eq_of_lt h

theorem index16_ne {i : Nat} (hsz : bufsz < 2 ^ 16) (hge : 2 ^ 16 ≤ i) (hlt : i < 2 * bufsz) :
    index16 i % bufsz ≠ i % bufsz := by
  have hlow : index16 i = i - 2 ^ 16 := by
    rw [index16, Nat.mod_eq_sub_mod hge, Nat.mod_eq_of_lt (by omega)]
  rw [hlow, Nat.mod_eq_of_lt (by omega), Nat.mod_eq_sub_mod (by omega), Nat.mod_eq_of_lt (by omega)]
  omega

theorem wrap_eq (i : Nat) : (if i ≥ bufsz then i % bufsz else i) = i % bufsz := by
  split_ifs with h
  · rfl
  · exact (Nat.mod_eq_of_lt (Nat.lt_of_not_le h)).symm

section received

/-- Whether a report that moves the put index to `putIndex` says that unread bytes were overwritten. -/
def Overwrites (bufsz : Nat) (fifo : RtSerialRxFifo) (putIndex : Nat) : Prop :=
  fifo.getIndex ≤ fifo.putIndex ∧ bufsz ≤ putIndex ∧ fifo.getIndex ≤ putIndex % bufsz ∨
    fifo.putIndex < fifo.getIndex ∧ fifo.getIndex ≤ putIndex

/-- A report moves the put index on, and the get index to the same place if the buffer is full. -/
theorem rtDmaRecvUpdatePutIndex_eq (fifo fifo' : RtSerialRxFifo) (len : Nat) (hg : fifo.getIndex < bufsz)
    (h : fifo' = fifo.rtDmaRecvUpdatePutIndex bufsz len) :
    fifo'.buffer = fifo.buffer ∧ fifo'.putIndex = index16 (fifo.putIndex + len) % bufsz ∧
      (fifo'.isFull = true ↔ fifo.isFull = true ∨ Overwrites bufsz fifo (index16 (fifo.putIndex + len))) ∧
      fifo'.getIndex = if fifo'.isFull then fifo'.putIndex else fifo.getIndex := by
  obtain ⟨buffer, put, get, full⟩ := fifo
  subst h
  unfold RtSerialRxFifo.rtDmaRecvUpdatePutIndex Overwrites
  dsimp only at hg ⊢
  generalize index16 (put + len) = p
  by_cases hle : get ≤ put
  · have hno : ¬ put < get := Nat.not_lt_of_le hle
    by_cases hend : bufsz ≤ p
    · by_cases hover : get ≤ p % bufsz <;> cases full <;> simp [hend, hover, hle, hno]
    · have hp : p % bufsz = p := Nat.mod_eq_of_lt (Nat.lt_of_not_le hend)
      cases full <;> simp [hend, hle, hno, hp]
  · have hlt : put < get := Nat.lt_of_not_le hle
    by_cases hover : get ≤ p
    · have hwrap := @wrap_eq bufsz p
      cases full <;> simp [hover, hle, hlt, hwrap]
    · have hp : p % bufsz = p := Nat.mod_eq_of_lt (by omega)
      cases full <;> simp [hover, hle, hp]

theorem Indices.overwrites_iff (h : s.Indices bufsz) (hfull : s.fifo.isFull = false) {k : Nat} (hpos : 1 ≤ k)
    (hk : k ≤ bufsz) : Overwrites bufsz s.fifo (s.fifo.putIndex + k) ↔ bufsz ≤ s.len bufsz + k := by
  have hp := h.put
  have hg := h.get
  have hplace := Ring.place_eq hp hk
  rw [Overwrites, hplace, len, RtSerialRxFifo.rtDmaCalcRecvedLen, hfull]
  split_ifs <;> first | contradiction | omega

theorem received_eq (h : s.Indices bufsz) (l : List UInt8) :
    (s.received bufsz l).fifo.buffer = Ring.store s.fifo.buffer bufsz s.place l ∧
      (s.received bufsz l).fifo.putIndex = index16 (s.fifo.putIndex + l.length) % bufsz ∧
      ((s.received bufsz l).fifo.isFull = true ↔
        s.fifo.isFull = true ∨ Overwrites bufsz s.fifo (index16 (s.fifo.putIndex + l.length))) ∧
      (s.received bufsz l).fifo.getIndex =
        if (s.received bufsz l).fifo.isFull then (s.received bufsz l).fifo.putIndex else s.fifo.getIndex :=
  rtDmaRecvUpdatePutIndex_eq { s.fifo with buffer := Ring.store s.fifo.buffer bufsz s.place l } _ l.length h.get rfl

theorem received_indices (h : s.Indices bufsz) (l : List UInt8) : (s.received bufsz l).Indices bufsz := by
  obtain ⟨-, hput, -, hget⟩ := received_eq h l
  have hlt : (s.received bufsz l).fifo.putIndex < bufsz := hput ▸ Nat.mod_lt _ (Nat.zero_lt_of_lt h.put)
  refine ⟨hlt, ?_, fun hfull => ?_⟩
  · rw [hget]
    split_ifs
    · exact hlt
    · exact h.get
  · rw [hget, if_pos hfull]

/-- The bytes that can be read after a report that fits, with the DMA at the put index. -/
theorem Ok.received_unread (h : s.Ok bufsz) (hpos : 1 ≤ l.length) (hl : l.length ≤ bufsz)
    (hfit : s.fifo.putIndex + l.length < 2 ^ 16) :
    (s.received bufsz l).len bufsz = min bufsz (s.len bufsz + l.length) ∧
      (s.received bufsz l).unread bufsz = (s.unread bufsz ++ l).rtake bufsz := by
  obtain ⟨hbuf, hput, hfull, hget⟩ := received_eq h.toIndices l
  have hind := received_indices h.toIndices l
  have hstored := @Ring.stored_store _ s.fifo.buffer bufsz s.place l (h.place ▸ h.put) hl
  have hlast : s.place = (s.fifo.getIndex + s.len bufsz) % bufsz := h.place.trans h.put_eq.symm
  have hle := h.len_le
  rw [index16_eq hfit] at hput hfull
  rw [unread, hbuf]
  by_cases hf : (s.received bufsz l).fifo.isFull = true
  · have hover : bufsz ≤ s.len bufsz + l.length := by
      by_cases hwas : s.fifo.isFull = true
      · rw [h.len_of_full hwas]
        exact Nat.le_add_right _ _
      · exact (h.overwrites_iff (Bool.eq_false_iff.mpr hwas) hpos hl).mp ((hfull.mp hf).resolve_left hwas)
    have hlen := hind.len_of_full hf
    refine ⟨by omega, ?_⟩
    rw [hlen, hind.full hf, hput, ← h.place]
    exact hstored.overrun hlast hle hover
  · obtain ⟨hwas, hno⟩ := not_or.mp fun hor => hf (hfull.mpr hor)
    have hroom : s.len bufsz + l.length < bufsz :=
      Nat.lt_of_not_le fun hge => hno ((h.overwrites_iff (Bool.eq_false_iff.mpr hwas) hpos hl).mpr hge)
    rw [if_neg hf] at hget
    have hlen : (s.received bufsz l).len bufsz = s.len bufsz + l.length := by
      refine hind.len_eq (Bool.eq_false_iff.mpr hf) hroom ?_
      rw [hput, hget, ← h.put_eq, Nat.mod_add_mod, Nat.add_assoc]
    have hfew : (s.unread bufsz ++ l).length - bufsz = 0 := by
      rw [List.length_append, unread, Ring.length_contents]
      omega
    refine ⟨by omega, ?_⟩
    rw [hlen, hget, List.rtake, hfew, List.drop_zero]
    exact hstored.append hlast (by omega)

/-- A report goes right if and only if the put index fits: otherwise it is not the place where the DMA goes on. -/
theorem Ok.received (h : s.Ok bufsz) (hsz : bufsz < 2 ^ 16) (hpos : 1 ≤ l.length) (hl : l.length ≤ bufsz) :
    (s.fifo.putIndex + l.length < 2 ^ 16 → (s.received bufsz l).Ok bufsz) ∧
      (ReceivedOk bufsz s l (s.received bufsz l) ↔ s.fifo.putIndex + l.length < 2 ^ 16) := by
  have hput := (received_eq h.toIndices l).2.1
  have hind := received_indices h.toIndices l
  have hplace : (s.received bufsz l).place = (s.fifo.putIndex + l.length) % bufsz := by
    rw [← h.place]
    rfl
  have hok (hfit : s.fifo.putIndex + l.length < 2 ^ 16) : (s.received bufsz l).Ok bufsz := by
    refine ⟨hind, ?_⟩
    rw [hplace, hput, index16_eq hfit]
  refine ⟨hok, fun hreceived => ?_, fun hfit => ?_⟩
  · have heq := (hind.ok hreceived.2.1).place
    have hp := h.put
    rw [hplace, hput] at heq
    by_contra hge
    exact index16_ne hsz (Nat.le_of_not_lt hge) (by omega) heq.symm
  · obtain ⟨hlen, hunread⟩ := h.received_unread hpos hl hfit
    exact ⟨hlen, (hok hfit).points, hunread⟩

end received

section read

theorem read_eq (s : DmaRx) (length : Nat) : (s.read bufsz length).fifo =
    { s.fifo with
      isFull := s.fifo.isFull && min length (s.len bufsz) = 0
      getIndex := index16 (s.fifo.getIndex + min length (s.len bufsz)) % bufsz } := by
  have hmin : (if length < s.len bufsz then length else s.len bufsz) = min length (s.len bufsz) := by
    split_ifs <;> omega
  unfold read RtSerialRxFifo.serialDmaRx RtSerialRxFifo.rtDmaRecvUpdateGetIndex
  dsimp only
  rw [← len, hmin, wrap_eq]

theorem Indices.read_data (h : s.Indices bufsz) (length : Nat) :
    (s.fifo.serialDmaRx bufsz length).2 = (s.unread bufsz).take length := by
  have hle := h.len_le
  have hg := h.get
  have hmin : (if length < s.len bufsz then length else s.len bufsz) = min length (s.len bufsz) := by
    split_ifs <;> omega
  have htake : (s.unread bufsz).take length =
      Ring.contents s.fifo.buffer bufsz s.fifo.getIndex (min length (s.len bufsz)) := by
    rw [unread, ← Ring.contents_take (Nat.min_le_right length _), List.take_eq_take_iff, Ring.length_contents]
    omega
  rw [htake]
  unfold RtSerialRxFifo.serialDmaRx
  dsimp only
  rw [← len, hmin]
  split_ifs with hfit
  · exact (Ring.contents_segment (Nat.le_of_lt hfit)).symm
  · rw [Ring.contents_wrap hg (by omega) (by omega)]
    congr 2
    omega

theorem read_indices (h : s.Indices bufsz) (hsz : bufsz < 2 ^ 16) (length : Nat) :
    (s.read bufsz length).Indices bufsz := by
  have hp := h.put
  have hg := h.get
  refine ⟨?_, ?_, ?_⟩ <;> rw [read_eq]
  · exact hp
  · exact Nat.mod_lt _ (Nat.zero_lt_of_lt hp)
  · intro hfull
    simp only [Bool.and_eq_true, decide_eq_true_eq] at hfull
    show index16 _ % bufsz = s.fifo.putIndex
    rw [hfull.2, Nat.add_zero, index16_eq (by omega), Nat.mod_eq_of_lt hg]
    exact h.full hfull.1

theorem Indices.read_place (h : s.Indices bufsz) (length : Nat) : s.fifo.putIndex =
    (s.fifo.getIndex + min length (s.len bufsz) + (s.len bufsz - min length (s.len bufsz))) % bufsz := by
  rw [Nat.add_assoc, Nat.add_sub_cancel' (Nat.min_le_right _ _)]
  exact h.put_eq.symm

theorem Indices.read_unread (h : s.Indices bufsz) (hsz : bufsz < 2 ^ 16)
    (hfit : s.fifo.getIndex + min length (s.len bufsz) < 2 ^ 16) :
    (s.read bufsz length).len bufsz = s.len bufsz - min length (s.len bufsz) ∧
      (s.read bufsz length).unread bufsz = (s.unread bufsz).drop length := by
  have hind := read_indices h hsz length
  have hle := h.len_le
  have hput := h.read_place length
  have hdrop : (s.unread bufsz).drop length = (s.unread bufsz).drop (min length (s.len bufsz)) := by
    rcases Nat.le_total length (s.len bufsz) with hlt | hge
    · rw [Nat.min_eq_left hlt]
    · rw [Nat.min_eq_right hge, List.drop_of_length_le (by rwa [unread, Ring.length_contents]),
        List.drop_of_length_le (by rw [unread, Ring.length_contents])]
  have hlen : (s.read bufsz length).len bufsz = s.len bufsz - min length (s.len bufsz) := by
    by_cases hf : (s.read bufsz length).fifo.isFull = true
    · have hfull := hf
      rw [read_eq] at hfull
      simp only [Bool.and_eq_true, decide_eq_true_eq] at hfull
      rw [hind.len_of_full hf, hfull.2, h.len_of_full hfull.1, Nat.sub_zero]
    · refine hind.len_eq (Bool.eq_false_iff.mpr hf) ?_ ?_
      · by_contra hge
        have hfull : s.fifo.isFull = true := by
          by_contra hno
          have hlt := h.len_lt (Bool.eq_false_iff.mpr hno)
          omega
        have hzero : min length (s.len bufsz) = 0 := by omega
        rw [read_eq] at hf
        exact hf (by simp [hfull, hzero])
      · rw [read_eq, index16_eq hfit, Nat.mod_add_mod]
        exact hput
  refine ⟨hlen, ?_⟩
  rw [hdrop, unread, hlen, read_eq, index16_eq hfit]
  exact Ring.contents_drop

theorem Ok.read (h : s.Ok bufsz) (hsz : bufsz < 2 ^ 16) (length : Nat) :
    (s.read bufsz length).Ok bufsz ∧
      (ReadOk bufsz s length (s.fifo.serialDmaRx bufsz length).2 (s.read bufsz length) ↔
        s.fifo.getIndex + min length (s.len bufsz) < 2 ^ 16) := by
  have hind := read_indices h.toIndices hsz length
  have hok : (s.read bufsz length).Ok bufsz := by
    refine ⟨hind, ?_⟩
    rw [read_eq]
    exact h.place
  have hdata := h.read_data length
  refine ⟨hok, fun hread => ?_, fun hfit => ?_⟩
  · have hplace := hind.put_eq
    have hput := h.read_place length
    have hg := h.get
    have hle := h.len_le
    rw [hread.2.1, read_eq, Nat.mod_add_mod] at hplace
    by_contra hge
    refine index16_ne hsz (Nat.le_of_not_lt hge) (by omega) ?_
    exact Nat.ModEq.add_right_cancel' _ (hplace.trans hput)
  · obtain ⟨hlen, hunread⟩ := h.read_unread hsz hfit
    exact ⟨hdata, hlen, hok.points, hunread⟩

end read

end DmaRx

/-! ## Every run -/

section system

variable {bufsz : Nat} {h : History DmaRx DmaRxAction} {s : DmaRx}

theorem received_step {l : List UInt8} (hpos : 1 ≤ l.length) (hl : l.length ≤ bufsz) :
    (dmaRxSystem bufsz).step s (.received l) = some (s.received bufsz l) := if_pos ⟨hpos, hl⟩

theorem dmaRxSystem_ok (hpos : 0 < bufsz) (hsz : bufsz < 2 ^ 16) (hrun : (dmaRxSystem bufsz).Run h s)
    (hfits : Throughout (fun _ s a => Fits bufsz s a) h) : s.Ok bufsz := by
  refine hrun.invariant (I := fun _ s => s.Ok bufsz) ?_ (fun _ s a s' _ hok hfit hstep => ?_) hfits
  · rintro s ⟨hplace, hput, hget, hfull⟩
    exact ⟨⟨by omega, by omega, fun hf => by simp [hfull] at hf⟩, by omega⟩
  · cases a with
    | received l =>
      obtain ⟨hl, hsome⟩ := Option.ite_none_right_eq_some.mp hstep
      obtain rfl := Option.some.inj hsome
      exact (hok.received hsz hl.1 hl.2).1 hfit
    | read length =>
      obtain rfl := Option.some.inj hstep
      exact (hok.read hsz length).1

/-- In every run in which the indices have fitted so far, a report makes the newest bytes available, and a read
returns the oldest ones and takes them out, if and only if the index fits again. -/
theorem dma_rx_keeps (hpos : 0 < bufsz) (hsz : bufsz < 2 ^ 16) (hrun : (dmaRxSystem bufsz).Run h s)
    (hfits : Throughout (fun _ s a => Fits bufsz s a) h) :
    (∀ l : List UInt8, 1 ≤ l.length → l.length ≤ bufsz →
      (ReceivedOk bufsz s l (s.received bufsz l) ↔ Fits bufsz s (.received l))) ∧
    ∀ length, ReadOk bufsz s length (s.fifo.serialDmaRx bufsz length).2 (s.read bufsz length) ↔
      Fits bufsz s (.read length) := by
  have hok := dmaRxSystem_ok hpos hsz hrun hfits
  exact ⟨fun l h1 hl => (hok.received hsz h1 hl).2, fun length => (hok.read hsz length).2⟩

/-- The end of a buffer of four places is passed by a report that takes the place of unread bytes. -/
theorem dma_rx_keeps_wrapped : ReceivedOk 4 (((DmaRx.mk ⟨fun _ => 0, 0, 0, false⟩ 0).received 4 [1, 2, 3]).read 4 1)
      [4, 5, 6] ((((DmaRx.mk ⟨fun _ => 0, 0, 0, false⟩ 0).received 4 [1, 2, 3]).read 4 1).received 4 [4, 5, 6]) ∧
    ((((DmaRx.mk ⟨fun _ => 0, 0, 0, false⟩ 0).received 4 [1, 2, 3]).read 4 1).received 4 [4, 5, 6]).unread 4 =
      [3, 4, 5, 6] :=
  ⟨((dma_rx_keeps (by decide) (by decide) (.step (a := .read 1) (.step (a := .received [1, 2, 3])
    (.init ⟨rfl, rfl, rfl, rfl⟩) rfl) rfl)
    ⟨show Fits 4 _ _ by decide, show Fits 4 _ _ by decide, trivial⟩).1 [4, 5, 6] (by decide) (by decide)).mpr
    (by decide), by decide⟩

/-- In a buffer of 40000 places, the put index goes from 39999 on to 69999, which 16 bits do not hold. -/
theorem put_index_overflows : (∃ h, (dmaRxSystem 40000).Run h
      ((DmaRx.mk ⟨fun _ => 0, 0, 0, false⟩ 0).received 40000 (List.replicate 39999 0))) ∧
    ¬ ReceivedOk 40000 ((DmaRx.mk ⟨fun _ => 0, 0, 0, false⟩ 0).received 40000 (List.replicate 39999 0))
      (List.replicate 30000 0) (((DmaRx.mk ⟨fun _ => 0, 0, 0, false⟩ 0).received 40000
        (List.replicate 39999 0)).received 40000 (List.replicate 30000 0)) := by
  have hinit : (DmaRx.mk ⟨fun _ => 0, 0, 0, false⟩ 0).Ok 40000 :=
    ⟨⟨by decide, by decide, fun hf => by cases hf⟩, rfl⟩
  have hlen (n : Nat) : (List.replicate n (0 : UInt8)).length = n := List.length_replicate
  have hrun : (dmaRxSystem 40000).Run [] (DmaRx.mk ⟨fun _ => 0, 0, 0, false⟩ 0) := .init ⟨rfl, rfl, rfl, rfl⟩
  have hfirst : 1 ≤ (List.replicate 39999 (0 : UInt8)).length ∧ (List.replicate 39999 (0 : UInt8)).length ≤ 40000 := by
    rw [hlen]
    decide
  have hsecond : 1 ≤ (List.replicate 30000 (0 : UInt8)).length ∧ (List.replicate 30000 (0 : UInt8)).length ≤ 40000 := by
    rw [hlen]
    decide
  have hok := (hinit.received (by decide) hfirst.1 hfirst.2).1 (by rw [hlen]; decide)
  have hput := (DmaRx.received_eq hinit.toIndices (List.replicate 39999 0)).2.1
  refine ⟨⟨_, .step hrun (received_step hfirst.1 hfirst.2)⟩, fun hreceived => ?_⟩
  have hfit := (hok.received (by decide) hsecond.1 hsecond.2).2.mp hreceived
  rw [hput, hlen, hlen] at hfit
  exact absurd hfit (by decide)

end system

end ThyristorController.SerialDmaRx
