import Mathlib.Data.List.Basic
import Mathlib.Tactic.Common
import ThyristorController.Kernel.Scheduler
import ThyristorController.Lib.Duplex

/-!
# Receiving with YMODEM (`components/utilities/ymodem/ymodem.c`)

`rym_recv_on_device` as a party that reads one byte at a time: what it does between two readings is a function of its
state and the byte. No time-out expires, but for those between two invitations of the handshake.

The data of a block are read behind its code, to the places from 1 on of the buffer. What stood there before stays
behind a shorter block.
-/

namespace ThyristorController.Ymodem

open Duplex

abbrev Byte := BitVec 8

/-! ## Codes and sizes -/

/-- `RYM_CODE_NONE`. -/
def rymCodeNone : Byte := 0x00

/-- `RYM_CODE_SOH`. -/
def rymCodeSoh : Byte := 0x01

/-- `RYM_CODE_STX`. -/
def rymCodeStx : Byte := 0x02

/-- `RYM_CODE_EOT`. -/
def rymCodeEot : Byte := 0x04

/-- `RYM_CODE_ACK`. -/
def rymCodeAck : Byte := 0x06

/-- `RYM_CODE_NAK`. -/
def rymCodeNak : Byte := 0x15

/-- `RYM_CODE_CAN`. -/
def rymCodeCan : Byte := 0x18

/-- `RYM_CODE_C`. -/
def rymCodeC : Byte := 0x43

/-- `RYM_ERR_TMO`. -/
def rymErrTmo : Int := 0x70

/-- `RYM_ERR_CODE`. -/
def rymErrCode : Int := 0x71

/-- `RYM_ERR_SEQ`. -/
def rymErrSeq : Int := 0x72

/-- `RYM_ERR_CRC`. -/
def rymErrCrc : Int := 0x73

/-- `RYM_ERR_CAN`. -/
def rymErrCan : Int := 0x75

/-- `RYM_ERR_ACK`. -/
def rymErrAck : Int := 0x76

/-- `RYM_END_SESSION_SEND_CAN_NUM`. -/
def rymEndSessionSendCanNum : Nat := 7

/-- `_RYM_SOH_PKG_SZ`. -/
def rymSohPkgSz : Nat := 1 + 2 + 128 + 2

/-- `_RYM_STX_PKG_SZ`. -/
def rymStxPkgSz : Nat := 1 + 2 + 1024 + 2

/-! ## Packets -/

def ccittTable : List (BitVec 16) := [
  0x0000, 0x1021, 0x2042, 0x3063, 0x4084, 0x50a5, 0x60c6, 0x70e7, 0x8108, 0x9129, 0xa14a, 0xb16b,
  0xc18c, 0xd1ad, 0xe1ce, 0xf1ef, 0x1231, 0x0210, 0x3273, 0x2252, 0x52b5, 0x4294, 0x72f7, 0x62d6,
  0x9339, 0x8318, 0xb37b, 0xa35a, 0xd3bd, 0xc39c, 0xf3ff, 0xe3de, 0x2462, 0x3443, 0x0420, 0x1401,
  0x64e6, 0x74c7, 0x44a4, 0x5485, 0xa56a, 0xb54b, 0x8528, 0x9509, 0xe5ee, 0xf5cf, 0xc5ac, 0xd58d,
  0x3653, 0x2672, 0x1611, 0x0630, 0x76d7, 0x66f6, 0x5695, 0x46b4, 0xb75b, 0xa77a, 0x9719, 0x8738,
  0xf7df, 0xe7fe, 0xd79d, 0xc7bc, 0x48c4, 0x58e5, 0x6886, 0x78a7, 0x0840, 0x1861, 0x2802, 0x3823,
  0xc9cc, 0xd9ed, 0xe98e, 0xf9af, 0x8948, 0x9969, 0xa90a, 0xb92b, 0x5af5, 0x4ad4, 0x7ab7, 0x6a96,
  0x1a71, 0x0a50, 0x3a33, 0x2a12, 0xdbfd, 0xcbdc, 0xfbbf, 0xeb9e, 0x9b79, 0x8b58, 0xbb3b, 0xab1a,
  0x6ca6, 0x7c87, 0x4ce4, 0x5cc5, 0x2c22, 0x3c03, 0x0c60, 0x1c41, 0xedae, 0xfd8f, 0xcdec, 0xddcd,
  0xad2a, 0xbd0b, 0x8d68, 0x9d49, 0x7e97, 0x6eb6, 0x5ed5, 0x4ef4, 0x3e13, 0x2e32, 0x1e51, 0x0e70,
  0xff9f, 0xefbe, 0xdfdd, 0xcffc, 0xbf1b, 0xaf3a, 0x9f59, 0x8f78, 0x9188, 0x81a9, 0xb1ca, 0xa1eb,
  0xd10c, 0xc12d, 0xf14e, 0xe16f, 0x1080, 0x00a1, 0x30c2, 0x20e3, 0x5004, 0x4025, 0x7046, 0x6067,
  0x83b9, 0x9398, 0xa3fb, 0xb3da, 0xc33d, 0xd31c, 0xe37f, 0xf35e, 0x02b1, 0x1290, 0x22f3, 0x32d2,
  0x4235, 0x5214, 0x6277, 0x7256, 0xb5ea, 0xa5cb, 0x95a8, 0x8589, 0xf56e, 0xe54f, 0xd52c, 0xc50d,
  0x34e2, 0x24c3, 0x14a0, 0x0481, 0x7466, 0x6447, 0x5424, 0x4405, 0xa7db, 0xb7fa, 0x8799, 0x97b8,
  0xe75f, 0xf77e, 0xc71d, 0xd73c, 0x26d3, 0x36f2, 0x0691, 0x16b0, 0x6657, 0x7676, 0x4615, 0x5634,
  0xd94c, 0xc96d, 0xf90e, 0xe92f, 0x99c8, 0x89e9, 0xb98a, 0xa9ab, 0x5844, 0x4865, 0x7806, 0x6827,
  0x18c0, 0x08e1, 0x3882, 0x28a3, 0xcb7d, 0xdb5c, 0xeb3f, 0xfb1e, 0x8bf9, 0x9bd8, 0xabbb, 0xbb9a,
  0x4a75, 0x5a54, 0x6a37, 0x7a16, 0x0af1, 0x1ad0, 0x2ab3, 0x3a92, 0xfd2e, 0xed0f, 0xdd6c, 0xcd4d,
  0xbdaa, 0xad8b, 0x9de8, 0x8dc9, 0x7c26, 0x6c07, 0x5c64, 0x4c45, 0x3ca2, 0x2c83, 0x1ce0, 0x0cc1,
  0xef1f, 0xff3e, 0xcf5d, 0xdf7c, 0xaf9b, 0xbfba, 0x8fd9, 0x9ff8, 0x6e17, 0x7e36, 0x4e55, 0x5e74,
  0x2e93, 0x3eb2, 0x0ed1, 0x1ef0]

/-- `CRC16`, one byte further. -/
def crc16Byte (crc : BitVec 16) (q : Byte) : BitVec 16 :=
  (crc <<< 8) ^^^ ccittTable.getD ((crc >>> 8 ^^^ q.setWidth 16) &&& 0xff).toNat 0

def crc16 (q : List Byte) : BitVec 16 := q.foldl crc16Byte 0

/-- The bytes that `_rym_send_packet` puts around a payload. -/
def packet (code index : Byte) (payload : List Byte) : List Byte :=
  code :: index :: ~~~index :: (payload ++ [(crc16 payload >>> 8).setWidth 8, (crc16 payload).setWidth 8])

/-- The two forms of a block. -/
inductive Form
  | soh
  | stx
  deriving DecidableEq

namespace Form

def code : Form → Byte
  | .soh => rymCodeSoh
  | .stx => rymCodeStx

def size : Form → Nat
  | .soh => 128
  | .stx => 1024

end Form

/-- A payload of the length that its form has. -/
structure Block where
  form : Form
  payload : List Byte
  length_eq : payload.length = form.size

def Block.packet (b : Block) (index : Byte) : List Byte := Ymodem.packet b.form.code index b.payload

/-! ## The receiver -/

/-- `enum rym_stage`. -/
inductive Stage
  | none
  | establishing
  | established
  | transmitting
  | finishing
  | finished
  deriving DecidableEq

/-- The calls of the callbacks, with the bytes that they are given. -/
inductive Call
  | onBegin (buf : List Byte)
  | onData (buf : List Byte)
  | onEnd (buf : List Byte)
  deriving DecidableEq

/-- What the receiver waits for: a code in the `i`-th round of `_rym_do_handshake`, the rest of the header, a code in
`_rym_do_trans`, the rest of a data block, in `_rym_do_fin` the second end of transmission, a code, or the rest of the
next header; or it has returned. -/
inductive RecvPc
  | handshake (i : Nat)
  | header (dataSz : Nat)
  | code
  | data (dataSz : Nat)
  | eot
  | next
  | nextHeader (dataSz : Nat)
  | returned (err : Int)
  deriving DecidableEq

/-- `struct rym_ctx` of a receiver; `got` bytes have been read in `_rym_read_data`. -/
structure Recv where
  pc : RecvPc
  got : Nat
  buf : List Byte
  stage : Stage
  calls : List Call
  deriving DecidableEq

namespace Recv

/-- How many bytes `_rym_read_data` is to read. -/
def wanted : RecvPc → Option Nat
  | .header dataSz => some (dataSz - 1)
  | .data dataSz => some (2 + dataSz + 2)
  | .nextHeader _ => some (rymSohPkgSz - 1)
  | _ => none

def byte (r : Recv) (k : Nat) : Byte := r.buf.getD k 0

/-- The `n` bytes from `buf + 3` on. -/
def data (r : Recv) (n : Nat) : List Byte := (r.buf.drop 3).take n

/-- The received checksum is that of the `n` bytes before it. -/
def CrcOk (r : Recv) (n : Nat) : Prop :=
  (r.byte (3 + n)).setWidth 16 <<< 8 ||| (r.byte (4 + n)).setWidth 16 = crc16 (r.data n)

instance (r : Recv) (n : Nat) : Decidable (r.CrcOk n) := by
  unfold CrcOk
  infer_instance

def returns (r : Recv) (err : Int) : Recv := { r with pc := .returned err }

/-- `_rym_read_data` is called. -/
def startReading (r : Recv) (pc : RecvPc) : Recv := { r with pc := pc, got := 0 }

/-- Call a callback. -/
def call (r : Recv) (c : Call) : Recv := { r with calls := r.calls ++ [c] }

/-- `_rym_do_handshake`, after a code or none. -/
def doHandshake (tmSec i : Nat) (r : Recv) (code : Byte) : Recv × List Byte :=
  if code = rymCodeSoh then (r.startReading (.header rymSohPkgSz), [])
  else if code = rymCodeStx then (r.startReading (.header rymStxPkgSz), [])
  else if i + 1 < tmSec then ({ r with pc := .handshake (i + 1) }, [rymCodeC])
  else (r.returns (-rymErrTmo), [])

/-- `_rym_do_trans`, up to its loop. -/
def doTrans (r : Recv) : Recv × List Byte := ({ r with pc := .code, stage := .established }, [rymCodeAck, rymCodeC])

/-- `_rym_do_handshake`, after the header has been read. -/
def checkHeader (answer : List Call → Byte) (dataSz : Nat) (r : Recv) : Recv × List Byte :=
  if ¬ (r.byte 1 = 0 ∧ r.byte 2 = 0xff) then (r.returns (-rymErrSeq), [])
  else if ¬ r.CrcOk (dataSz - 5) then (r.returns (-rymErrCrc), [])
  else
    let r' := r.call (.onBegin (r.data (dataSz - 5)))
    if answer r'.calls ≠ rymCodeAck then (r'.returns (-rymErrCan), []) else r'.doTrans

/-- `_rym_do_fin`, up to the second end of transmission. -/
def doFin (r : Recv) : Recv × List Byte :=
  let r' := { r with pc := .eot, stage := .finishing }
  (r'.call (.onEnd (r'.data 128)), [rymCodeNak])

/-- The loop of `_rym_do_trans`, after a code. -/
def transCode (r : Recv) (code : Byte) : Recv × List Byte :=
  if code = rymCodeSoh then (r.startReading (.data 128), [])
  else if code = rymCodeStx then (r.startReading (.data 1024), [])
  else if code = rymCodeEot then r.doFin
  else (r.returns (-rymErrCode), [])

/-- The loop of `_rym_do_trans`, with what `on_data` has returned. -/
def transAnswer (r : Recv) (code : Byte) : Recv × List Byte :=
  if code = rymCodeCan then (r.returns (-rymErrCan), List.replicate rymEndSessionSendCanNum rymCodeCan)
  else if code = rymCodeAck then ({ r with pc := .code }, [rymCodeAck])
  else ({ r with pc := .code }, [])

/-- `_rym_trans_data`, after the block has been read. The number of the block is looked at only before the first one. -/
def transData (answer : List Call → Byte) (dataSz : Nat) (r : Recv) : Recv × List Byte :=
  if (r.byte 1).toNat + (r.byte 2).toNat ≠ 0xff then (r.returns (-rymErrSeq), [])
  else if r.stage = .established ∧ r.byte 1 = 0 then ({ r with pc := .code }, [])
  else
    let r' := { r with stage := .transmitting }
    if ¬ r'.CrcOk dataSz then (r'.returns (-rymErrCrc), [])
    else
      let r'' := r'.call (.onData (r'.data dataSz))
      r''.transAnswer (answer r''.calls)

/-- `_rym_do_fin`, after the code that should be the second end of transmission. -/
def finEot (r : Recv) (code : Byte) : Recv × List Byte :=
  if code ≠ rymCodeEot then (r.returns (-rymErrCode), [])
  else ({ r with pc := .next }, [rymCodeAck, rymCodeC])

/-- `_rym_do_fin`, after the code of the next header. -/
def finCode (r : Recv) (code : Byte) : Recv × List Byte :=
  if code = rymCodeSoh then (r.startReading (.nextHeader rymSohPkgSz), [])
  else if code = rymCodeStx then (r.startReading (.nextHeader rymStxPkgSz), [])
  else (r.returns (-rymErrCode), [])

/-- `_rym_do_fin`, after the next header has been read. -/
def checkNext (answer : List Call → Byte) (dataSz : Nat) (r : Recv) : Recv × List Byte :=
  if ¬ (r.byte 1 = 0 ∧ r.byte 2 = 0xff) then (r.returns (-rymErrSeq), [])
  else if ¬ r.CrcOk (rymSohPkgSz - 5) then (r.returns (-rymErrCrc), [])
  else if r.byte 3 ≠ 0 then
    let r' := r.call (.onBegin (r.data (dataSz - 5)))
    if answer r'.calls ≠ rymCodeAck then (r'.returns (-rymErrCan), []) else r'.doTrans
  else ({ r with pc := .returned rtEok, stage := .finished }, [rymCodeAck])

/-- After a code has been read. -/
def onCode (tmSec : Nat) (r : Recv) (code : Byte) : Recv × List Byte :=
  match r.pc with
  | .handshake i => r.doHandshake tmSec i code
  | .code => r.transCode code
  | .eot => r.finEot code
  | .next => r.finCode code
  | _ => (r, [])

/-- After `_rym_read_data`. -/
def onRead (answer : List Call → Byte) (r : Recv) : Recv × List Byte :=
  match r.pc with
  | .header dataSz => r.checkHeader answer dataSz
  | .data dataSz => r.transData answer dataSz
  | .nextHeader dataSz => r.checkNext answer dataSz
  | _ => (r, [])

/-- A byte is read: the next one of `_rym_read_data`, or that of `_rym_read_code`. -/
def react (tmSec : Nat) (answer : List Call → Byte) (r : Recv) (b : Byte) : Recv × List Byte :=
  match wanted r.pc with
  | some len =>
    let r' := { r with buf := r.buf.set (1 + r.got) b, got := r.got + 1 }
    if r'.got < len then (r', []) else r'.onRead answer
  | none => { r with buf := r.buf.set 0 b }.onCode tmSec b

def halted (r : Recv) : Bool :=
  match r.pc with
  | .returned _ => true
  | _ => false

end Recv

/-- `rym_recv_on_device`; `answer` gives what a callback returns after the calls up to this one. -/
def receiver (tmSec : Nat) (answer : List Call → Byte) : Party Recv Byte where
  halted := Recv.halted
  react := Recv.react tmSec answer

/-! ## What the receiver makes of a block -/

section lemmas

variable {tmSec : Nat} {answer : List Call → Byte} {r r' : Recv} {pc : RecvPc} {stage : Stage} {calls : List Call}
  {front : List Byte} {b : Block} {index : Byte} {len : Nat}

theorem crc_bytes (w : BitVec 16) :
    ((w >>> 8).setWidth 8).setWidth 16 <<< 8 ||| (w.setWidth 8).setWidth 16 = w := by
  apply BitVec.eq_of_getLsbD_eq
  intro i hi
  simp only [BitVec.getLsbD_or, BitVec.getLsbD_shiftLeft, BitVec.getLsbD_setWidth, BitVec.getLsbD_ushiftRight]
  by_cases h8 : i < 8
  · simp [h8, hi]
  · have hsub : i - 8 < 8 := by omega
    have hsub' : i - 8 < 16 := by omega
    have hadd : 8 + (i - 8) = i := by omega
    simp [h8, hi, hsub, hsub', hadd]

@[simp] theorem crc16_zeros (n : Nat) : crc16 (List.replicate n 0) = 0 := by
  induction n with
  | zero => rfl
  | succ n ih => exact ih

theorem size_pos (f : Form) : 0 < f.size := by cases f <;> decide

theorem not_halted (hpc : ∀ err, r.pc ≠ .returned err) : r.halted = false := by
  unfold Recv.halted
  cases hr : r.pc with
  | returned err => exact absurd hr (hpc err)
  | _ => rfl

theorem not_halted_of_wanted (hw : Recv.wanted r.pc = some len) : r.halted = false := by
  apply not_halted
  intro err hpc
  rw [hpc] at hw
  cases hw

/-- What the buffer holds when the bytes `ws` have been read behind the code `c`. -/
def Recv.filled (r : Recv) (c : Byte) (pre ws old : List Byte) (len : Nat) : Recv :=
  { r with buf := c :: (pre ++ ws ++ old.drop ws.length), got := len }

theorem set_next {c x y : Byte} {pre old : List Byte} (hbuf : r.buf = c :: (pre ++ y :: old))
    (hgot : r.got = pre.length) : r.buf.set (1 + r.got) x = c :: (pre ++ [x] ++ old) := by
  rw [hbuf, hgot, Nat.add_comm, List.set_cons_succ, List.set_append_right _ _ (Nat.le_refl _)]
  simp

theorem react_last {c x y : Byte} {pre old : List Byte} (hw : Recv.wanted r.pc = some len)
    (hbuf : r.buf = c :: (pre ++ y :: old)) (hgot : r.got = pre.length) (hlen : pre.length + 1 = len) :
    r.react tmSec answer x = (r.filled c pre [x] (y :: old) len).onRead answer := by
  have hset : r.buf.set (1 + r.got) x = c :: (pre ++ [x] ++ old) := set_next hbuf hgot
  unfold Recv.react
  rw [hw]
  dsimp only
  rw [if_neg (by omega), hset, hgot, hlen]
  rfl

theorem react_more {c x y : Byte} {pre old : List Byte} (hw : Recv.wanted r.pc = some len)
    (hbuf : r.buf = c :: (pre ++ y :: old)) (hgot : r.got = pre.length) (hlen : pre.length + 1 < len) :
    r.react tmSec answer x = ({ r with buf := c :: (pre ++ [x] ++ old), got := pre.length + 1 }, []) := by
  have hset : r.buf.set (1 + r.got) x = c :: (pre ++ [x] ++ old) := set_next hbuf hgot
  unfold Recv.react
  rw [hw]
  dsimp only
  rw [if_pos (by omega), hset, hgot]

theorem takes_reading {c : Byte} {ws pre old : List Byte} (hw : Recv.wanted r.pc = some len)
    (hbuf : r.buf = c :: (pre ++ old)) (hgot : r.got = pre.length) (hws : ws ≠ [])
    (hlen : pre.length + ws.length = len) (hold : ws.length ≤ old.length) :
    Takes (receiver tmSec answer) r ws ((r.filled c pre ws old len).onRead answer).2
      ((r.filled c pre ws old len).onRead answer).1 := by
  induction ws generalizing r pre old with
  | nil => exact absurd rfl hws
  | cons x xs ih =>
    obtain ⟨y, old, rfl⟩ : ∃ y rest, old = y :: rest := by
      cases old with
      | nil => exact absurd hold (by simp)
      | cons y rest => exact ⟨y, rest, rfl⟩
    rw [List.length_cons] at hlen hold
    have hhalted : (receiver tmSec answer).halted r = false := not_halted_of_wanted hw
    cases xs with
    | nil =>
      have hone := Takes.one (b := x) hhalted
      have hreact : (receiver tmSec answer).react r x = (r.filled c pre [x] (y :: old) len).onRead answer :=
        react_last hw hbuf hgot hlen
      rwa [hreact] at hone
    | cons z zs =>
      have hreact : (receiver tmSec answer).react r x =
          ({ r with buf := c :: (pre ++ [x] ++ old), got := pre.length + 1 }, []) :=
        react_more hw hbuf hgot (by rw [List.length_cons] at hlen; omega)
      have hrest := @ih { r with buf := c :: (pre ++ [x] ++ old), got := pre.length + 1 } (pre ++ [x]) old hw rfl
        (by simp) (by simp) (by simp at hlen ⊢; omega) (by simp at hold ⊢; omega)
      have hfilled : Recv.filled { r with buf := c :: (pre ++ [x] ++ old), got := pre.length + 1 } c (pre ++ [x])
          (z :: zs) old len = r.filled c pre (x :: z :: zs) (y :: old) len := by
        simp [Recv.filled]
      rw [hfilled] at hrest
      have htakes := Takes.cons (b := x) hhalted (by rw [hreact]; exact hrest)
      rwa [hreact, List.nil_append] at htakes

/-- Behind the code, the numbers `i` and `j`, the bytes `body` and a checksum have been read. -/
structure Loaded (pc : RecvPc) (stage : Stage) (calls : List Call) (i j : Byte) (body : List Byte) (hi lo : Byte)
    (r : Recv) : Prop where
  pc : r.pc = pc
  stage : r.stage = stage
  calls : r.calls = calls
  length : r.buf.length = rymStxPkgSz
  number : r.byte 1 = i
  inverse : r.byte 2 = j
  data : r.data body.length = body
  checkHigh : r.byte (3 + body.length) = hi
  checkLow : r.byte (4 + body.length) = lo
  front : 128 ≤ body.length → r.data 128 = body.take 128

theorem filled_loaded {c i j hi lo : Byte} {body old : List Byte} (hold : old.length = 1028)
    (hbody : body.length ≤ 1024) :
    Loaded r.pc r.stage r.calls i j body hi lo (r.filled c [] (i :: j :: (body ++ [hi, lo])) old len) where
  pc := rfl
  stage := rfl
  calls := rfl
  length := by
    simp [Recv.filled, rymStxPkgSz, hold]
    omega
  number := rfl
  inverse := rfl
  data := by simp [Recv.data, Recv.filled]
  checkHigh := by
    rw [Recv.byte, Recv.filled, Nat.add_comm]
    simp
  checkLow := by
    rw [Recv.byte, Recv.filled, Nat.add_comm]
    simp
  front hle := by simp [Recv.data, Recv.filled, List.take_append_of_le_length hle]

theorem takes_loaded {c i j hi lo : Byte} {body : List Byte} (hlen : r.buf.length = rymStxPkgSz)
    (hw : Recv.wanted r.pc = none) (hh : r.halted = false) (hbody : body.length ≤ 1024)
    (hcode : ∀ r' : Recv, r'.pc = r.pc → r'.onCode tmSec c = (r'.startReading pc, []))
    (hw' : Recv.wanted pc = some (2 + body.length + 2)) :
    ∃ r₁ : Recv, Loaded pc r.stage r.calls i j body hi lo r₁ ∧
      Takes (receiver tmSec answer) r (c :: i :: j :: (body ++ [hi, lo])) (r₁.onRead answer).2
        (r₁.onRead answer).1 := by
  obtain ⟨c₀, old, hbuf⟩ : ∃ c₀ old, r.buf = c₀ :: old := by
    cases hr : r.buf with
    | nil =>
      rw [hr] at hlen
      cases hlen
    | cons c₀ old => exact ⟨c₀, old, rfl⟩
  have hold : old.length = 1028 := by
    rw [hbuf] at hlen
    exact Nat.succ.inj hlen
  have hreact : (receiver tmSec answer).react r c = ({ r with buf := c :: old }.startReading pc, []) := by
    have hset : r.buf.set 0 c = c :: old := by
      rw [hbuf]
      rfl
    have hcode' := hcode { r with buf := c :: old } rfl
    simp only [receiver, Recv.react, hw, hset]
    exact hcode'
  refine ⟨_, @filled_loaded ({ r with buf := c :: old }.startReading pc) (2 + body.length + 2) c i j hi lo body old
    hold hbody, ?_⟩
  have hrest := @takes_reading tmSec answer ({ r with buf := c :: old }.startReading pc) (2 + body.length + 2) c
    (i :: j :: (body ++ [hi, lo])) [] old hw' rfl rfl (by simp) (by simp; omega) (by simp [hold]; omega)
  have htakes := Takes.cons (A := receiver tmSec answer) (b := c) hh (by rw [hreact]; exact hrest)
  rwa [hreact, List.nil_append] at htakes

theorem Loaded.crcOk {i j hi lo : Byte} {body : List Byte} (hr : Loaded pc stage calls i j body hi lo r) :
    r.CrcOk body.length ↔ hi.setWidth 16 <<< 8 ||| lo.setWidth 16 = crc16 body := by
  rw [Recv.CrcOk, hr.checkHigh, hr.checkLow, hr.data]

theorem Loaded.crcOk_packet {i j : Byte} {body : List Byte}
    (hr : Loaded pc stage calls i j body ((crc16 body >>> 8).setWidth 8) ((crc16 body).setWidth 8) r) :
    r.CrcOk body.length := hr.crcOk.mpr (crc_bytes _)

/-- The receiver, between two readings; `front` are the first 128 bytes of the last block. -/
structure At (pc : RecvPc) (stage : Stage) (calls : List Call) (front : List Byte) (r : Recv) : Prop where
  pc : r.pc = pc
  stage : r.stage = stage
  calls : r.calls = calls
  length : r.buf.length = rymStxPkgSz
  front : r.data 128 = front

theorem size_le (f : Form) : f.size ≤ 1024 := by cases f <;> decide

theorem le_size (f : Form) : 128 ≤ f.size := by cases f <;> decide

theorem At.takes_block (answer : List Call → Byte) (b : Block) (index : Byte) {pc' : RecvPc}
    (hr : At pc stage calls front r) (hw : Recv.wanted pc = none)
    (hpc : ∀ err, pc ≠ .returned err)
    (hcode : ∀ r' : Recv, r'.pc = pc → r'.onCode tmSec b.form.code = (r'.startReading pc', []))
    (hw' : Recv.wanted pc' = some (2 + b.form.size + 2)) :
    ∃ r₁ : Recv, Loaded pc' stage calls index (~~~index) b.payload ((crc16 b.payload >>> 8).setWidth 8)
      ((crc16 b.payload).setWidth 8) r₁ ∧
      Takes (receiver tmSec answer) r (b.packet index) (r₁.onRead answer).2 (r₁.onRead answer).1 := by
  have hhalted : r.halted = false := not_halted (hr.pc ▸ hpc)
  have hbody : b.payload.length ≤ 1024 := by
    rw [b.length_eq]
    exact size_le _
  obtain ⟨r₁, hloaded, htakes⟩ := @takes_loaded tmSec answer r pc' b.form.code index (~~~index)
    ((crc16 b.payload >>> 8).setWidth 8) ((crc16 b.payload).setWidth 8) b.payload hr.length (by rw [hr.pc, hw]) hhalted
    hbody (fun r' hr' => hcode r' (hr'.trans hr.pc)) (by rw [hw', b.length_eq])
  rw [hr.stage, hr.calls] at hloaded
  exact ⟨r₁, hloaded, htakes⟩

theorem Loaded.front_eq {i j hi lo : Byte} (hr : Loaded pc stage calls i j b.payload hi lo r) :
    r.data 128 = b.payload.take 128 := hr.front (by rw [b.length_eq]; exact le_size _)

theorem Loaded.doTrans {i j hi lo : Byte} (hr : Loaded pc stage calls i j b.payload hi lo r) :
    At .code .established (calls ++ [.onBegin b.payload]) (b.payload.take 128)
      (r.call (.onBegin b.payload)).doTrans.1 where
  pc := rfl
  stage := rfl
  calls := by
    rw [← hr.calls]
    rfl
  length := hr.length
  front := hr.front_eq

theorem Loaded.numbers {hi lo : Byte} {body : List Byte} (hr : Loaded pc stage calls index (~~~index) body hi lo r) :
    (r.byte 1).toNat + (r.byte 2).toNat = 0xff := by
  rw [hr.number, hr.inverse, BitVec.toNat_not]
  have := index.isLt
  omega

theorem call_calls (hcalls : r.calls = calls) (c : Call) : (r.call c).calls = calls ++ [c] := by
  rw [Recv.call, hcalls]

theorem onCode_data (tmSec : Nat) (f : Form) (hpc : r.pc = .code) :
    r.onCode tmSec f.code = (r.startReading (.data f.size), []) := by
  simp only [Recv.onCode, hpc, Recv.transCode]
  cases f <;> rfl

theorem At.takes_header (tmSec : Nat) {i : Nat} (hr : At (.handshake i) stage calls front r)
    (hans : answer (calls ++ [.onBegin b.payload]) = rymCodeAck) :
    ∃ r', Takes (receiver tmSec answer) r (b.packet 0) [rymCodeAck, rymCodeC] r' ∧
      At .code .established (calls ++ [.onBegin b.payload]) (b.payload.take 128) r' := by
  have hcode : ∀ r' : Recv, r'.pc = .handshake i →
      r'.onCode tmSec b.form.code = (r'.startReading (.header (b.form.size + 5)), []) := by
    intro r' hr'
    simp only [Recv.onCode, hr', Recv.doHandshake]
    cases b.form <;> rfl
  have hwanted : Recv.wanted (.header (b.form.size + 5)) = some (2 + b.form.size + 2) := by
    simp only [Recv.wanted, Option.some.injEq]
    omega
  obtain ⟨r₁, hloaded, htakes⟩ := hr.takes_block answer b 0 rfl (by simp) hcode hwanted
  have hread : r₁.onRead answer = (r₁.call (.onBegin b.payload)).doTrans := by
    have hcrc : r₁.CrcOk b.form.size := b.length_eq ▸ hloaded.crcOk_packet
    have hdata : r₁.data b.form.size = b.payload := b.length_eq ▸ hloaded.data
    have hcalls := call_calls hloaded.calls (.onBegin b.payload)
    simp only [Recv.onRead, hloaded.pc, Recv.checkHeader, Nat.add_sub_cancel]
    rw [if_neg (by simp [hloaded.number, hloaded.inverse]), if_neg (not_not_intro hcrc), hdata, hcalls,
      if_neg (not_not_intro hans)]
  rw [hread] at htakes
  exact ⟨_, htakes, hloaded.doTrans⟩

theorem At.takes_code (tmSec : Nat) (answer : List Call → Byte) (c : Byte) (hr : At pc stage calls front r)
    (hw : Recv.wanted pc = none) (hpc : ∀ err, pc ≠ .returned err) :
    ∃ r₁ : Recv, At pc stage calls front r₁ ∧
      Takes (receiver tmSec answer) r [c] (r₁.onCode tmSec c).2 (r₁.onCode tmSec c).1 := by
  have hhalted : (receiver tmSec answer).halted r = false := not_halted (hr.pc ▸ hpc)
  have hreact : (receiver tmSec answer).react r c = Recv.onCode tmSec { r with buf := r.buf.set 0 c } c := by
    simp only [receiver, Recv.react, hr.pc, hw]
  have htakes := Takes.one (b := c) hhalted
  rw [hreact] at htakes
  refine ⟨{ r with buf := r.buf.set 0 c }, ⟨hr.pc, hr.stage, hr.calls, ?_, ?_⟩, htakes⟩
  · rw [← hr.length]
    exact List.length_set
  · rw [← hr.front, Recv.data, Recv.data, List.drop_set_of_lt (by omega)]

/-- A data block is delivered and acknowledged; before the first one, none has the number 0. -/
theorem At.takes_data (tmSec : Nat) (hr : At .code stage calls front r) (hfirst : stage = .established → index ≠ 0)
    (hans : answer (calls ++ [.onData b.payload]) = rymCodeAck) :
    ∃ r', Takes (receiver tmSec answer) r (b.packet index) [rymCodeAck] r' ∧
      At .code .transmitting (calls ++ [.onData b.payload]) (b.payload.take 128) r' := by
  obtain ⟨r₁, hloaded, htakes⟩ := hr.takes_block answer b index rfl (by simp)
    (fun _ => onCode_data tmSec b.form) rfl
  have hread : r₁.onRead answer = ({ r₁ with stage := .transmitting, calls := r₁.calls ++ [.onData b.payload],
                                             pc := .code }, [rymCodeAck]) := by
    have hcrc : Recv.CrcOk { r₁ with stage := .transmitting } b.form.size := b.length_eq ▸ hloaded.crcOk_packet
    have hdata : Recv.data { r₁ with stage := .transmitting } b.form.size = b.payload := b.length_eq ▸ hloaded.data
    have hsum := hloaded.numbers
    have hnumber : ¬ (r₁.stage = .established ∧ r₁.byte 1 = 0) := by
      rw [hloaded.stage, hloaded.number]
      rintro ⟨hst, h0⟩
      exact hfirst hst h0
    have hread : r₁.onRead answer = r₁.transData answer b.form.size := by simp only [Recv.onRead, hloaded.pc]
    rw [hread, Recv.transData, if_neg (not_not_intro hsum), if_neg hnumber]
    dsimp only
    rw [if_neg (not_not_intro hcrc), hdata]
    simp only [Recv.call, hloaded.calls, hans]
    rfl
  rw [hread] at htakes
  refine ⟨_, htakes, rfl, rfl, ?_, hloaded.length, hloaded.front_eq⟩
  rw [← hloaded.calls]

/-- Before the first data block, a block with the number 0 is not answered. -/
theorem At.takes_again (tmSec : Nat) (answer : List Call → Byte) (b : Block)
    (hr : At .code .established calls front r) :
    ∃ r', Takes (receiver tmSec answer) r (b.packet 0) [] r' ∧
      At .code .established calls (b.payload.take 128) r' := by
  obtain ⟨r₁, hloaded, htakes⟩ := hr.takes_block answer b 0 rfl (by simp)
    (fun _ => onCode_data tmSec b.form) rfl
  have hread : r₁.onRead answer = ({ r₁ with pc := .code }, []) := by
    have hsum := hloaded.numbers
    simp only [Recv.onRead, hloaded.pc, Recv.transData]
    rw [if_neg (not_not_intro hsum), if_pos ⟨hloaded.stage, hloaded.number⟩]
  rw [hread] at htakes
  exact ⟨_, htakes, rfl, hloaded.stage, hloaded.calls, hloaded.length, hloaded.front_eq⟩

theorem At.takes_eot (tmSec : Nat) (answer : List Call → Byte) (hr : At .code stage calls front r) :
    ∃ r', Takes (receiver tmSec answer) r [rymCodeEot] [rymCodeNak] r' ∧
      At .eot .finishing (calls ++ [.onEnd front]) front r' := by
  obtain ⟨r₁, hat, htakes⟩ := hr.takes_code tmSec answer rymCodeEot rfl (by simp)
  have hcode : r₁.onCode tmSec rymCodeEot = r₁.doFin := by
    simp only [Recv.onCode, hat.pc]
    rfl
  rw [hcode] at htakes
  refine ⟨_, htakes, rfl, rfl, ?_, hat.length, hat.front⟩
  rw [← hat.calls, ← hat.front]
  rfl

theorem At.takes_end (tmSec : Nat) (answer : List Call → Byte) (hr : At .eot stage calls front r) :
    ∃ r', Takes (receiver tmSec answer) r [rymCodeEot] [rymCodeAck, rymCodeC] r' ∧
      At .next stage calls front r' := by
  obtain ⟨r₁, hat, htakes⟩ := hr.takes_code tmSec answer rymCodeEot rfl (by simp)
  have hcode : r₁.onCode tmSec rymCodeEot = ({ r₁ with pc := .next }, [rymCodeAck, rymCodeC]) := by
    simp only [Recv.onCode, hat.pc]
    rfl
  rw [hcode] at htakes
  exact ⟨_, htakes, rfl, hat.stage, hat.calls, hat.length, hat.front⟩

theorem At.takes_surplus (tmSec : Nat) (answer : List Call → Byte) (hr : At .next stage calls front r) :
    ∃ r', Takes (receiver tmSec answer) r [rymCodeEot] [] r' ∧ At (.returned (-rymErrCode)) stage calls front r' := by
  obtain ⟨r₁, hat, htakes⟩ := hr.takes_code tmSec answer rymCodeEot rfl (by simp)
  have hcode : r₁.onCode tmSec rymCodeEot = (r₁.returns (-rymErrCode), []) := by
    simp only [Recv.onCode, hat.pc]
    rfl
  rw [hcode] at htakes
  exact ⟨_, htakes, rfl, hat.stage, hat.calls, hat.length, hat.front⟩

theorem At.halted {err : Int} (hr : At (.returned err) stage calls front r) :
    (receiver tmSec answer).halted r = true := by simp only [receiver, Recv.halted, hr.pc]

theorem At.takes_fin (tmSec : Nat) (answer : List Call → Byte) (f : Form) (i j hi lo : Byte) {body : List Byte}
    (hr : At .next stage calls front r) (hbody : body.length = 128) :
    ∃ r₁ : Recv, Loaded (.nextHeader (f.size + 5)) stage calls i j body hi lo r₁ ∧
      Takes (receiver tmSec answer) r (f.code :: i :: j :: (body ++ [hi, lo])) (r₁.checkNext answer (f.size + 5)).2
        (r₁.checkNext answer (f.size + 5)).1 := by
  have hhalted : r.halted = false := by simp only [Recv.halted, hr.pc]
  have hcode : ∀ r' : Recv, r'.pc = r.pc →
      r'.onCode tmSec f.code = (r'.startReading (.nextHeader (f.size + 5)), []) := by
    intro r' hr'
    simp only [Recv.onCode, hr', hr.pc, Recv.finCode]
    cases f <;> rfl
  obtain ⟨r₁, hloaded, htakes⟩ := @takes_loaded tmSec answer r (.nextHeader (f.size + 5)) f.code i j hi lo body
    hr.length (by rw [hr.pc]; rfl) hhalted (by omega) hcode (by rw [hbody]; rfl)
  rw [hr.stage, hr.calls] at hloaded
  have hread : r₁.onRead answer = r₁.checkNext answer (f.size + 5) := by simp only [Recv.onRead, hloaded.pc]
  rw [hread] at htakes
  exact ⟨r₁, hloaded, htakes⟩

theorem Loaded.name {i j hi lo : Byte} {body : List Byte} (hr : Loaded pc stage calls i j body hi lo r)
    (hbody : body.length = 128) : r.byte 3 = body.getD 0 0 := by
  have hdata := hr.data
  rw [hbody] at hdata
  rw [← hdata, Recv.data, Recv.byte]
  simp [List.getD, List.getElem?_drop]

theorem soh_length (hform : b.form = .soh) : b.payload.length = 128 := by
  rw [b.length_eq, hform]
  rfl

theorem soh_packet (hform : b.form = .soh) : b.packet index = Form.soh.code :: index :: ~~~index ::
    (b.payload ++ [(crc16 b.payload >>> 8).setWidth 8, (crc16 b.payload).setWidth 8]) := by
  rw [Block.packet, hform]
  rfl

theorem At.takes_next (tmSec : Nat) (hr : At .next stage calls front r) (hform : b.form = .soh)
    (hname : b.payload.getD 0 0 ≠ 0) (hans : answer (calls ++ [.onBegin b.payload]) = rymCodeAck) :
    ∃ r', Takes (receiver tmSec answer) r (b.packet 0) [rymCodeAck, rymCodeC] r' ∧
      At .code .established (calls ++ [.onBegin b.payload]) (b.payload.take 128) r' := by
  have hlen := soh_length hform
  obtain ⟨r₁, hloaded, htakes⟩ := hr.takes_fin tmSec answer .soh 0 (~~~0) ((crc16 b.payload >>> 8).setWidth 8)
    ((crc16 b.payload).setWidth 8) hlen
  rw [← soh_packet hform] at htakes
  have hread : r₁.checkNext answer (Form.soh.size + 5) = (r₁.call (.onBegin b.payload)).doTrans := by
    have hcrc : r₁.CrcOk (rymSohPkgSz - 5) := by
      have hcrc := hloaded.crcOk_packet
      rwa [hlen] at hcrc
    have hdata : r₁.data (Form.soh.size + 5 - 5) = b.payload := by
      have hdata := hloaded.data
      rwa [hlen] at hdata
    have hcalls := call_calls hloaded.calls (.onBegin b.payload)
    rw [Recv.checkNext, if_neg (by simp [hloaded.number, hloaded.inverse]), if_neg (not_not_intro hcrc),
      if_pos (by rwa [hloaded.name hlen])]
    dsimp only
    rw [hdata, hcalls, if_neg (not_not_intro hans)]
  rw [hread] at htakes
  exact ⟨_, htakes, hloaded.doTrans⟩

/-- The first 133 bytes of the terminating header, when they carry their checksum. -/
theorem At.takes_last (tmSec : Nat) (answer : List Call → Byte) (f : Form) (hi lo : Byte) {body : List Byte}
    (hr : At .next stage calls front r) (hbody : body.length = 128) (hname : body.getD 0 0 = 0)
    (hcrc : hi.setWidth 16 <<< 8 ||| lo.setWidth 16 = crc16 body) :
    ∃ r', Takes (receiver tmSec answer) r (f.code :: 0 :: ~~~0 :: (body ++ [hi, lo])) [rymCodeAck] r' ∧
      At (.returned rtEok) .finished calls (body.take 128) r' := by
  obtain ⟨r₁, hloaded, htakes⟩ := hr.takes_fin tmSec answer f 0 (~~~0) hi lo hbody
  have hread : r₁.checkNext answer (f.size + 5) =
      ({ r₁ with pc := .returned rtEok, stage := .finished }, [rymCodeAck]) := by
    have hcrc' : r₁.CrcOk (rymSohPkgSz - 5) := by
      have hcrc' := hloaded.crcOk.mpr hcrc
      rwa [hbody] at hcrc'
    rw [Recv.checkNext, if_neg (by simp [hloaded.number, hloaded.inverse]), if_neg (not_not_intro hcrc'),
      if_neg (by rw [hloaded.name hbody]; exact not_not_intro hname)]
  rw [hread] at htakes
  exact ⟨_, htakes, rfl, rfl, hloaded.calls, hloaded.length, hloaded.front (by omega)⟩

/-- The first 133 bytes of a header, when they do not carry their checksum. -/
theorem At.takes_wrong (tmSec : Nat) (answer : List Call → Byte) (f : Form) (hi lo : Byte) {body : List Byte}
    (hr : At .next stage calls front r) (hbody : body.length = 128)
    (hcrc : hi.setWidth 16 <<< 8 ||| lo.setWidth 16 ≠ crc16 body) :
    ∃ r', Takes (receiver tmSec answer) r (f.code :: 0 :: ~~~0 :: (body ++ [hi, lo])) [] r' ∧
      At (.returned (-rymErrCrc)) stage calls (body.take 128) r' := by
  obtain ⟨r₁, hloaded, htakes⟩ := hr.takes_fin tmSec answer f 0 (~~~0) hi lo hbody
  have hread : r₁.checkNext answer (f.size + 5) = (r₁.returns (-rymErrCrc), []) := by
    have hcrc' : ¬ r₁.CrcOk (rymSohPkgSz - 5) := by
      intro hok
      refine hcrc (hloaded.crcOk.mp ?_)
      rwa [hbody]
    rw [Recv.checkNext, if_neg (by simp [hloaded.number, hloaded.inverse]), if_pos hcrc']
  rw [hread] at htakes
  exact ⟨_, htakes, rfl, hloaded.stage, hloaded.calls, hloaded.length, hloaded.front (by omega)⟩

end lemmas

end ThyristorController.Ymodem
