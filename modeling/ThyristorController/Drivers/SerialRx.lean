import Mathlib.Data.List.Basic
import Mathlib.Tactic.Common

/-!
# The receive FIFO of a serial device (`components/drivers/serial/serial.c`)

`rt_hw_serial_isr` stores received bytes in a ring of `bufsz` places and drops the oldest byte when the
ring is full; `_serial_int_rx` takes bytes out. Both work on the indices in critical sections, one byte
each. The fields carry the bounds of the indices, and that a full ring never looks empty; the last needs a
ring of at least two places.
-/

namespace ThyristorController

/-- `RT_SERIAL_RB_BUFSZ`. -/
def rtSerialRbBufsz : Nat := 64

/-- `struct rt_serial_rx_fifo`. -/
structure RxFifo (bufsz : Nat) where
  buffer : Nat → UInt8
  putIndex : Nat
  getIndex : Nat
  isFull : Bool
  put_lt : putIndex < bufsz
  get_lt : getIndex < bufsz
  full_ne : isFull = true → getIndex ≠ putIndex

/-- `index += 1; if (index >= bufsz) index = 0`. -/
def nextIndex (bufsz i : Nat) : Nat := if i + 1 ≥ bufsz then 0 else i + 1

theorem nextIndex_lt {bufsz : Nat} (hsz : 2 ≤ bufsz) (i : Nat) : nextIndex bufsz i < bufsz := by
  unfold nextIndex
  split_ifs <;> omega

theorem nextIndex_ne {bufsz : Nat} (hsz : 2 ≤ bufsz) (i : Nat) : nextIndex bufsz i ≠ i := by
  unfold nextIndex
  split_ifs <;> omega

namespace RxFifo

variable {bufsz : Nat}

/-- The FIFO that `rt_serial_open` allocates. -/
def init (hsz : 2 ≤ bufsz) : RxFifo bufsz where
  buffer := fun _ => 0
  putIndex := 0
  getIndex := 0
  isFull := false
  put_lt := by omega
  get_lt := by omega
  full_ne := by simp

/-- The critical section in which `rt_hw_serial_isr` stores a byte. -/
def store (hsz : 2 ≤ bufsz) (fifo : RxFifo bufsz) (ch : UInt8) : RxFifo bufsz :=
  if h : nextIndex bufsz fifo.putIndex = fifo.getIndex then
    { buffer := Function.update fifo.buffer fifo.putIndex ch
      putIndex := nextIndex bufsz fifo.putIndex
      getIndex := nextIndex bufsz fifo.getIndex
      isFull := true
      put_lt := nextIndex_lt hsz _
      get_lt := nextIndex_lt hsz _
      full_ne := fun _ => h ▸ nextIndex_ne hsz _ }
  else
    { buffer := Function.update fifo.buffer fifo.putIndex ch
      putIndex := nextIndex bufsz fifo.putIndex
      getIndex := fifo.getIndex
      isFull := fifo.isFull
      put_lt := nextIndex_lt hsz _
      get_lt := fifo.get_lt
      full_ne := fun _ => Ne.symm h }

/-- The test of `_serial_int_rx` for no data. -/
def IsEmpty (fifo : RxFifo bufsz) : Prop := fifo.getIndex = fifo.putIndex ∧ fifo.isFull = false

instance (fifo : RxFifo bufsz) : Decidable fifo.IsEmpty := inferInstanceAs (Decidable (_ ∧ _))

/-- One pass of the loop of `_serial_int_rx`: the byte taken out, if there is one. -/
def take (hsz : 2 ≤ bufsz) (fifo : RxFifo bufsz) : Option (UInt8 × RxFifo bufsz) :=
  if fifo.IsEmpty then none
  else
    some (fifo.buffer fifo.getIndex,
      { buffer := fifo.buffer
        putIndex := fifo.putIndex
        getIndex := nextIndex bufsz fifo.getIndex
        isFull := false
        put_lt := fifo.put_lt
        get_lt := nextIndex_lt hsz _
        full_ne := by simp })

/-- `rx_length`, as `rt_hw_serial_isr` computes it for its callback. -/
def rxLength (fifo : RxFifo bufsz) : Nat :=
  if fifo.putIndex ≥ fifo.getIndex then fifo.putIndex - fifo.getIndex
  else bufsz - (fifo.getIndex - fifo.putIndex)

theorem rxLength_eq_zero (fifo : RxFifo bufsz) : fifo.rxLength = 0 ↔ fifo.IsEmpty := by
  have hp := fifo.put_lt
  have hg := fifo.get_lt
  have hfull := fifo.full_ne
  have hlen : fifo.rxLength = 0 ↔ fifo.getIndex = fifo.putIndex := by
    unfold rxLength
    split_ifs <;> omega
  rw [hlen, IsEmpty]
  refine ⟨fun h => ⟨h, ?_⟩, fun h => h.1⟩
  by_contra hne
  exact hfull (by simpa using hne) h

theorem take_eq_none (hsz : 2 ≤ bufsz) (fifo : RxFifo bufsz) : fifo.take hsz = none ↔ fifo.IsEmpty := by
  unfold take
  split_ifs with h <;> simp [h]

end RxFifo

end ThyristorController
