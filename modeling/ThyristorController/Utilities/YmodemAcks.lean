import ThyristorController.Utilities.YmodemBatch

/-!
# Lost acknowledgements (`components/utilities/ymodem/ymodem.c`)

A sender that sends the current block again, with the same number, until it sees an `ACK`, on a line that may lose those
of the receiver. The receiver compares the number of a data block with nothing but its complement: a block that arrives
twice is delivered twice (`delivered_once`). It is only the header that it does not take for data when it comes again.
-/

namespace ThyristorController.Ymodem

open Duplex Transition

/-- The receiver with what it has yet to put out, and the line in both directions. The sender is at the block with the
number `cur`, the header being number 0, and `sent` is whether it has sent it; `eots` ends of transmission have been
sent, and `closed` is whether the empty header has. `blocks` are the data blocks that have been put on the line. -/
structure LossyLine where
  recv : Recv
  out : List Byte
  toRecv : List Byte
  toSend : List Byte
  cur : Nat
  sent : Bool
  eots : Nat
  closed : Bool
  blocks : List Block

/-- The receiver puts a byte on the line, where an `ACK` may get lost, and reads one; the sender sends the current
block, for the first time or again, reads a byte, and sends an end of transmission or the empty header. -/
inductive LossyAction
  | put
  | lose
  | get
  | transmit
  | read
  | finish
  | close (f : Form)
  deriving DecidableEq

/-- The block with a number. -/
def numbered (header : Block) (file : List Block) : Nat → Option Block
  | 0 => some header
  | k + 1 => file[k]?

def lossyStep (header : Block) (file : List Block) (tmSec : Nat) (answer : List Call → Byte) (s : LossyLine) :
    LossyAction → Option LossyLine
  | .put =>
    match s.out with
    | [] => none
    | b :: rest => some { s with out := rest, toSend := s.toSend ++ [b] }
  | .lose =>
    match s.out with
    | [] => none
    | b :: rest => if b = rymCodeAck then some { s with out := rest } else none
  | .get =>
    match s.out, s.toRecv with
    | [], b :: rest =>
      if s.recv.halted then none
      else
        some { s with
          recv := (s.recv.react tmSec answer b).1
          out := (s.recv.react tmSec answer b).2
          toRecv := rest }
    | _, _ => none
  | .transmit =>
    (numbered header file s.cur).map fun b =>
      { s with
        toRecv := s.toRecv ++ b.packet (BitVec.ofNat 8 s.cur)
        sent := true
        blocks := if s.cur = 0 then s.blocks else s.blocks ++ [b] }
  | .read =>
    match s.toSend with
    | [] => none
    | b :: rest =>
      if b = rymCodeAck ∧ s.sent = true then some { s with toSend := rest, cur := s.cur + 1, sent := false }
      else some { s with toSend := rest }
  | .finish =>
    if s.cur = file.length + 1 ∧ s.closed = false then
      some { s with toRecv := s.toRecv ++ [rymCodeEot], eots := s.eots + 1 }
    else none
  | .close f =>
    if 2 ≤ s.eots ∧ s.closed = false then
      some { s with toRecv := s.toRecv ++ (terminator f).packet 0, closed := true }
    else none

def LossyLine.start (tmSec : Nat) (junk : List Byte) : LossyLine :=
  ⟨.start tmSec junk, [rymCodeC], [], [], 0, false, 0, false, []⟩

def lossy (header : Block) (file : List Block) (tmSec : Nat) (answer : List Call → Byte) (junk : List Byte) :
    System LossyLine LossyAction where
  init s := s = .start tmSec junk
  step := lossyStep header file tmSec answer

/-- The payloads that `on_data` has been given. -/
def delivered (calls : List Call) : List (List Byte) :=
  calls.filterMap fun c =>
    match c with
    | .onData buf => some buf
    | _ => none

/-- No data block is sent again. -/
def FirstTime (s : LossyLine) (a : LossyAction) : Prop := a = .transmit → s.cur = 0 ∨ s.sent = false

instance (s : LossyLine) (a : LossyAction) : Decidable (FirstTime s a) := by
  unfold FirstTime
  infer_instance

/-! ## The calls of the receiver -/

section lemmas

variable {header : Block} {file : List Block} {tmSec : Nat} {answer : List Call → Byte} {junk : List Byte}
  {r : Recv} {s s' : LossyLine} {a : LossyAction} {h : History LossyLine LossyAction}

theorem onCode_calls (b : Byte) : r.calls <+: (r.onCode tmSec b).1.calls := by
  unfold Recv.onCode
  cases r.pc with
  | handshake i =>
    simp only [Recv.doHandshake]
    split_ifs <;> exact List.prefix_rfl
  | code =>
    simp only [Recv.transCode]
    split_ifs
    · exact List.prefix_rfl
    · exact List.prefix_rfl
    · exact List.prefix_append ..
    · exact List.prefix_rfl
  | eot =>
    simp only [Recv.finEot]
    split_ifs <;> exact List.prefix_rfl
  | next =>
    simp only [Recv.finCode]
    split_ifs <;> exact List.prefix_rfl
  | _ => exact List.prefix_rfl

theorem onRead_calls : r.calls <+: (r.onRead answer).1.calls := by
  unfold Recv.onRead
  cases r.pc with
  | header dataSz =>
    simp only [Recv.checkHeader]
    split_ifs <;> first | exact List.prefix_rfl | exact List.prefix_append ..
  | data dataSz =>
    simp only [Recv.transData, Recv.transAnswer]
    split_ifs <;> first | exact List.prefix_rfl | exact List.prefix_append ..
  | nextHeader dataSz =>
    simp only [Recv.checkNext]
    split_ifs <;> first | exact List.prefix_rfl | exact List.prefix_append ..
  | _ => exact List.prefix_rfl

theorem react_calls (b : Byte) : r.calls <+: (r.react tmSec answer b).1.calls := by
  unfold Recv.react
  cases Recv.wanted r.pc with
  | none => exact @onCode_calls tmSec { r with buf := r.buf.set 0 b } b
  | some len =>
    dsimp only
    split_ifs
    · exact List.prefix_rfl
    · exact @onRead_calls answer { r with buf := r.buf.set (1 + r.got) b, got := r.got + 1 }

theorem drain_calls (bs : List Byte) : r.calls <+: (drain (receiver tmSec answer) r bs).calls := by
  induction bs generalizing r with
  | nil => exact List.prefix_rfl
  | cons b bs ih =>
    rw [drain]
    split_ifs
    · exact List.prefix_rfl
    · exact (react_calls b).trans ih

/-! ## What the receiver comes to -/

/-- Where the receiver is when it has read what is on the line. -/
def endPc (s : LossyLine) : RecvPc :=
  if s.eots = 0 then if s.cur = 0 ∧ s.sent = false then .handshake 0 else .code
  else if s.eots = 1 then .eot
  else if s.eots = 2 then if s.closed = true then .returned rtEok else .next
  else .returned (-rymErrCode)

/-- The data blocks that have been put on the line are delivered when the receiver has read what is there. -/
structure Ahead (file : List Block) (tmSec : Nat) (answer : List Call → Byte) (s : LossyLine) : Prop where
  recv : ∃ stage calls front, At (endPc s) stage calls front (drain (receiver tmSec answer) s.recv s.toRecv) ∧
    delivered calls = s.blocks.map Block.payload ∧ (endPc s = .code → (stage = .established ↔ s.blocks = []))
  cur_le : s.cur ≤ file.length + 1
  sent_le : s.sent = true → s.cur ≤ file.length
  eots : s.eots ≠ 0 → s.cur = file.length + 1
  closed : s.closed = true → 2 ≤ s.eots
  header : s.cur = 0 → s.blocks = []
  le_blocks : s.cur ≤ s.blocks.length + 1
  sent_blocks : s.sent = true → s.cur ≤ s.blocks.length

theorem delivered_append (calls : List Call) (c : Call) : delivered (calls ++ [c]) = delivered calls ++ delivered [c] :=
  List.filterMap_append

theorem start_ahead (hjunk : junk.length = rymStxPkgSz) (hpos : 0 < tmSec) :
    Ahead file tmSec answer (.start tmSec junk) where
  recv := by
    have hat := @invited_at tmSec junk 0 hjunk hpos
    exact ⟨.establishing, [], _, hat, rfl, fun hpc => by cases hpc⟩
  cur_le := Nat.zero_le _
  sent_le hs := by cases hs
  eots he := absurd rfl he
  closed hc := by cases hc
  header _ := rfl
  le_blocks := Nat.zero_le _
  sent_blocks hs := by cases hs

/-- A step that changes neither what is on the line to the receiver nor the place of the sender. -/
theorem Ahead.same (hs : Ahead file tmSec answer s) (hdrain : drain (receiver tmSec answer) s'.recv s'.toRecv =
      drain (receiver tmSec answer) s.recv s.toRecv) (hcur : s'.cur = s.cur) (hsent : s'.sent = s.sent)
    (heots : s'.eots = s.eots) (hclosed : s'.closed = s.closed) (hblocks : s'.blocks = s.blocks) :
    Ahead file tmSec answer s' where
  recv := by
    have hpc : endPc s' = endPc s := by simp only [endPc, hcur, hsent, heots, hclosed]
    rw [hpc, hdrain, hblocks]
    exact hs.recv
  cur_le := hcur ▸ hs.cur_le
  sent_le h := hcur ▸ hs.sent_le (hsent ▸ h)
  eots h := hcur ▸ hs.eots (heots ▸ h)
  closed h := heots ▸ hs.closed (hclosed ▸ h)
  header h := hblocks ▸ hs.header (hcur ▸ h)
  le_blocks := by
    rw [hcur, hblocks]
    exact hs.le_blocks
  sent_blocks h := by
    rw [hcur, hblocks]
    exact hs.sent_blocks (hsent ▸ h)

theorem Ahead.get (hs : Ahead file tmSec answer s) (hstep : lossyStep header file tmSec answer s .get = some s') :
    Ahead file tmSec answer s' := by
  simp only [lossyStep] at hstep
  split at hstep
  · rename_i b rest hout hline
    obtain ⟨hh, hstep⟩ := Option.ite_none_left_eq_some.mp hstep
    obtain rfl := Option.some.inj hstep
    refine hs.same ?_ rfl rfl rfl rfl rfl
    have hh' : ¬ (receiver tmSec answer).halted s.recv = true := hh
    rw [hline, drain, if_neg hh']
    rfl
  · cases hstep

theorem Ahead.put (hs : Ahead file tmSec answer s) (hstep : lossyStep header file tmSec answer s .put = some s') :
    Ahead file tmSec answer s' := by
  simp only [lossyStep] at hstep
  split at hstep
  · cases hstep
  · obtain rfl := Option.some.inj hstep
    exact hs.same rfl rfl rfl rfl rfl rfl

theorem Ahead.lose (hs : Ahead file tmSec answer s) (hstep : lossyStep header file tmSec answer s .lose = some s') :
    Ahead file tmSec answer s' := by
  simp only [lossyStep] at hstep
  split at hstep
  · cases hstep
  · obtain ⟨_, hstep⟩ := Option.ite_none_right_eq_some.mp hstep
    obtain rfl := Option.some.inj hstep
    exact hs.same rfl rfl rfl rfl rfl rfl

theorem Ahead.eots_eq (hs : Ahead file tmSec answer s) (hcur : s.cur ≤ file.length) : s.eots = 0 := by
  by_contra hne
  have := hs.eots hne
  omega

theorem At.drain_returned {err : Int} {stage : Stage} {calls : List Call} {front line : List Byte} {r : Recv}
    (hr : At (.returned err) stage calls front (drain (receiver tmSec answer) r line)) (more : List Byte) :
    At (.returned err) stage calls front (drain (receiver tmSec answer) r (line ++ more)) := by
  rw [drain_append, drain_halted _ hr.halted]
  exact hr

theorem Ahead.transmit_header (hans : ∀ calls, answer calls = rymCodeAck) (hs : Ahead file tmSec answer s)
    (hcur : s.cur = 0) : Ahead file tmSec answer { s with toRecv := s.toRecv ++ header.packet 0, sent := true } where
  recv := by
    obtain ⟨stage, calls, front, hat, hdelivered, hstage⟩ := hs.recv
    have heots := hs.eots_eq (hcur ▸ Nat.zero_le _)
    have hpc : endPc { s with toRecv := s.toRecv ++ header.packet 0, sent := true } = .code := by
      simp [endPc, heots]
    have hblocks := hs.header hcur
    rw [hpc]
    by_cases hsent : s.sent = false
    · have hbefore : endPc s = .handshake 0 := by simp [endPc, heots, hcur, hsent]
      rw [hbefore] at hat
      obtain ⟨r', htakes, hat'⟩ := hat.takes_header (b := header) tmSec (hans _)
      rw [← htakes.drain_behind] at hat'
      refine ⟨_, _, _, hat', ?_, fun _ => iff_of_true rfl hblocks⟩
      rw [delivered_append, hdelivered]
      exact List.append_nil _
    · have hbefore : endPc s = .code := by simp [endPc, heots, hsent]
      rw [hbefore, (hstage hbefore).mpr hblocks] at hat
      obtain ⟨r', htakes, hat'⟩ := hat.takes_again tmSec answer header
      rw [← htakes.drain_behind] at hat'
      exact ⟨_, _, _, hat', hdelivered, fun _ => iff_of_true rfl hblocks⟩
  cur_le := hs.cur_le
  sent_le _ := by
    show s.cur ≤ file.length
    omega
  eots := hs.eots
  closed := hs.closed
  header := hs.header
  le_blocks := hs.le_blocks
  sent_blocks _ := by
    show s.cur ≤ s.blocks.length
    omega

theorem Ahead.transmit_data {b : Block} {k : Nat} (hans : ∀ calls, answer calls = rymCodeAck)
    (hs : Ahead file tmSec answer s) (hcur : s.cur = k + 1) (hb : file[k]? = some b) :
    Ahead file tmSec answer { s with
      toRecv := s.toRecv ++ b.packet (BitVec.ofNat 8 s.cur), sent := true, blocks := s.blocks ++ [b] } where
  recv := by
    obtain ⟨stage, calls, front, hat, hdelivered, hstage⟩ := hs.recv
    have hlt : k < file.length := (List.getElem?_eq_some_iff.mp hb).1
    have heots := hs.eots_eq (hcur ▸ hlt)
    have hbefore : endPc s = .code := by simp [endPc, heots, hcur]
    have hpc : endPc { s with toRecv := s.toRecv ++ b.packet (BitVec.ofNat 8 s.cur), sent := true,
                              blocks := s.blocks ++ [b] } = .code := by
      simp [endPc, heots]
    have hnumber : stage = .established → BitVec.ofNat 8 s.cur ≠ 0 := by
      intro hst
      have hle := hs.le_blocks
      rw [(hstage hbefore).mp hst, hcur, List.length_nil] at hle
      obtain rfl : k = 0 := by omega
      rw [hcur]
      decide
    rw [hbefore] at hat
    obtain ⟨r', htakes, hat'⟩ := hat.takes_data (b := b) tmSec hnumber (hans _)
    rw [← htakes.drain_behind] at hat'
    rw [hpc]
    refine ⟨_, _, _, hat', ?_, fun _ => iff_of_false (fun hst => by cases hst) (by simp)⟩
    rw [delivered_append, hdelivered, List.map_append]
    rfl
  cur_le := hs.cur_le
  sent_le _ := by
    have hlt : k < file.length := (List.getElem?_eq_some_iff.mp hb).1
    show s.cur ≤ file.length
    omega
  eots := hs.eots
  closed := hs.closed
  header h := by
    have : s.cur = 0 := h
    omega
  le_blocks := by
    have hle := hs.le_blocks
    rw [List.length_append]
    show s.cur ≤ s.blocks.length + [b].length + 1
    omega
  sent_blocks _ := by
    have hle := hs.le_blocks
    rw [List.length_append]
    exact hle

theorem Ahead.read (hs : Ahead file tmSec answer s) (hstep : lossyStep header file tmSec answer s .read = some s') :
    Ahead file tmSec answer s' := by
  simp only [lossyStep] at hstep
  split at hstep
  · cases hstep
  · rename_i b rest hline
    by_cases hack : b = rymCodeAck ∧ s.sent = true
    · rw [if_pos hack] at hstep
      obtain rfl := Option.some.inj hstep
      have hle := hs.sent_le hack.2
      have heots := hs.eots_eq hle
      have hpc : endPc { s with toSend := rest, cur := s.cur + 1, sent := false } = endPc s := by
        simp [endPc, heots, hack.2]
      have hblocks := hs.sent_blocks hack.2
      exact
        { recv := by
            rw [hpc]
            exact hs.recv
          cur_le := Nat.succ_le_succ hle
          sent_le := fun h => by cases h
          eots := fun h => absurd heots h
          closed := hs.closed
          header := fun h => by cases h
          le_blocks := Nat.succ_le_succ hblocks
          sent_blocks := fun h => by cases h }
    · rw [if_neg hack] at hstep
      obtain rfl := Option.some.inj hstep
      exact hs.same rfl rfl rfl rfl rfl rfl

theorem delivered_onEnd (calls : List Call) (front : List Byte) :
    delivered (calls ++ [.onEnd front]) = delivered calls := by
  rw [delivered_append]
  exact List.append_nil _

theorem Ahead.finish (hs : Ahead file tmSec answer s) (hcur : s.cur = file.length + 1) (hclosed : s.closed = false) :
    Ahead file tmSec answer { s with toRecv := s.toRecv ++ [rymCodeEot], eots := s.eots + 1 } where
  recv := by
    obtain ⟨stage, calls, front, hat, hdelivered, _⟩ := hs.recv
    by_cases h0 : s.eots = 0
    · have hbefore : endPc s = .code := by simp [endPc, h0, hcur]
      have hpc : endPc { s with toRecv := s.toRecv ++ [rymCodeEot], eots := s.eots + 1 } = .eot := by simp [endPc, h0]
      rw [hbefore] at hat
      obtain ⟨r', htakes, hat'⟩ := hat.takes_eot tmSec answer
      rw [← htakes.drain_behind] at hat'
      rw [hpc]
      exact ⟨_, _, _, hat', (delivered_onEnd _ _).trans hdelivered, fun h => by cases h⟩
    by_cases h1 : s.eots = 1
    · have hbefore : endPc s = .eot := by simp [endPc, h1]
      have hpc : endPc { s with toRecv := s.toRecv ++ [rymCodeEot], eots := s.eots + 1 } = .next := by
        simp [endPc, h1, hclosed]
      rw [hbefore] at hat
      obtain ⟨r', htakes, hat'⟩ := hat.takes_end tmSec answer
      rw [← htakes.drain_behind] at hat'
      rw [hpc]
      exact ⟨_, _, _, hat', hdelivered, fun h => by cases h⟩
    have hpc : endPc { s with toRecv := s.toRecv ++ [rymCodeEot], eots := s.eots + 1 } = .returned (-rymErrCode) := by
      have h1' : s.eots + 1 ≠ 1 := by omega
      have h2' : s.eots + 1 ≠ 2 := by omega
      simp only [endPc, Nat.succ_ne_zero, h1', h2', if_false]
    rw [hpc]
    by_cases h2 : s.eots = 2
    · have hbefore : endPc s = .next := by simp [endPc, h2, hclosed]
      rw [hbefore] at hat
      obtain ⟨r', htakes, hat'⟩ := hat.takes_surplus tmSec answer
      rw [← htakes.drain_behind] at hat'
      exact ⟨_, _, _, hat', hdelivered, fun h => by cases h⟩
    · have hbefore : endPc s = .returned (-rymErrCode) := by simp [endPc, h0, h1, h2]
      rw [hbefore] at hat
      exact ⟨stage, calls, front, hat.drain_returned _, hdelivered, fun h => by cases h⟩
  cur_le := hs.cur_le
  sent_le := hs.sent_le
  eots _ := hcur
  closed h := by
    rw [hclosed] at h
    cases h
  header := hs.header
  le_blocks := hs.le_blocks
  sent_blocks := hs.sent_blocks

theorem Ahead.close {f : Form} (hs : Ahead file tmSec answer s) (heots : 2 ≤ s.eots) (hclosed : s.closed = false) :
    Ahead file tmSec answer { s with toRecv := s.toRecv ++ (terminator f).packet 0, closed := true } where
  recv := by
    obtain ⟨stage, calls, front, hat, hdelivered, _⟩ := hs.recv
    by_cases h2 : s.eots = 2
    · have hbefore : endPc s = .next := by simp [endPc, h2, hclosed]
      have hpc : endPc { s with toRecv := s.toRecv ++ (terminator f).packet 0, closed := true } = .returned rtEok := by
        simp [endPc, h2]
      rw [hbefore] at hat
      obtain ⟨more, hpacket⟩ := terminator_packet f
      obtain ⟨r', htakes, hat'⟩ := hat.takes_last tmSec answer f 0 0 List.length_replicate rfl (crc16_zeros 128).symm
      refine ⟨.finished, calls, (List.replicate 128 0).take 128, ?_, hdelivered, fun h => ?_⟩
      · rw [hpc, hpacket, drain_append, htakes.drain, drain_halted _ hat'.halted]
        exact hat'
      · rw [hpc] at h
        cases h
    · have h0 : s.eots ≠ 0 := by omega
      have h1 : s.eots ≠ 1 := by omega
      have hbefore : endPc s = .returned (-rymErrCode) := by simp [endPc, h0, h1, h2]
      have hpc : endPc { s with toRecv := s.toRecv ++ (terminator f).packet 0, closed := true } =
          .returned (-rymErrCode) := by simp [endPc, h0, h1, h2]
      rw [hbefore] at hat
      rw [hpc]
      exact ⟨stage, calls, front, hat.drain_returned _, hdelivered, fun h => by cases h⟩
  cur_le := hs.cur_le
  sent_le := hs.sent_le
  eots := hs.eots
  closed _ := heots
  header := hs.header
  le_blocks := hs.le_blocks
  sent_blocks := hs.sent_blocks

theorem step_ahead (hans : ∀ calls, answer calls = rymCodeAck) (hs : Ahead file tmSec answer s)
    (hstep : lossyStep header file tmSec answer s a = some s') : Ahead file tmSec answer s' := by
  cases a with
  | put => exact hs.put hstep
  | lose => exact hs.lose hstep
  | get => exact hs.get hstep
  | read => exact hs.read hstep
  | transmit =>
    obtain ⟨b, hb, rfl⟩ := Option.map_eq_some_iff.mp hstep
    rcases Nat.eq_zero_or_eq_succ_pred s.cur with hcur | hcur
    · rw [hcur] at hb
      obtain rfl := Option.some.inj hb
      have hnumber : BitVec.ofNat 8 s.cur = 0 := by
        rw [hcur]
        rfl
      rw [if_pos hcur, hnumber]
      exact hs.transmit_header hans hcur
    · rw [hcur] at hb
      rw [if_neg (by omega)]
      exact hs.transmit_data hans hcur hb
  | finish =>
    obtain ⟨⟨hcur, hclosed⟩, hstep⟩ := Option.ite_none_right_eq_some.mp hstep
    obtain rfl := Option.some.inj hstep
    exact hs.finish hcur hclosed
  | close f =>
    obtain ⟨⟨heots, hclosed⟩, hstep⟩ := Option.ite_none_right_eq_some.mp hstep
    obtain rfl := Option.some.inj hstep
    exact hs.close heots hclosed

theorem run_ahead (hans : ∀ calls, answer calls = rymCodeAck) (hjunk : junk.length = rymStxPkgSz) (hpos : 0 < tmSec)
    (hrun : (lossy header file tmSec answer junk).Run h s) : Ahead file tmSec answer s := by
  refine hrun.always (I := fun _ s => Ahead file tmSec answer s) ?_ ?_
  · intro s hs
    obtain rfl : s = .start tmSec junk := hs
    exact start_ahead hjunk hpos
  · intro _ _ _ _ _ hs hstep
    exact step_ahead hans hs hstep

/-! ## How often the blocks have been sent -/

/-- How many data blocks have been sent. -/
def LossyLine.distinct (s : LossyLine) : Nat := if s.sent = true then s.cur else s.cur - 1

/-- Each block has been sent once, or more have been sent than there are. -/
def Counted (file : List Block) (h : History LossyLine LossyAction) (s : LossyLine) : Prop :=
  (Throughout (fun _ s a => FirstTime s a) h → s.blocks = file.take s.distinct) ∧
    (¬ Throughout (fun _ s a => FirstTime s a) h → s.distinct < s.blocks.length)

theorem Counted.same (hs : Counted file h s) (ha : a ≠ .transmit) (hdistinct : s'.distinct = s.distinct)
    (hblocks : s'.blocks = s.blocks) : Counted file ((s, a) :: h) s' := by
  have hfirst : FirstTime s a := fun heq => absurd heq ha
  unfold Counted
  rw [throughout_cons, and_iff_right hfirst, hdistinct, hblocks]
  exact hs

theorem Counted.transmit {b : Block} (hs : Counted file h s) (hb : numbered header file s.cur = some b) :
    Counted file ((s, .transmit) :: h)
      { s with toRecv := s.toRecv ++ b.packet (BitVec.ofNat 8 s.cur), sent := true,
               blocks := if s.cur = 0 then s.blocks else s.blocks ++ [b] } := by
  unfold Counted
  rw [throughout_cons]
  rcases Nat.eq_zero_or_eq_succ_pred s.cur with hcur | hcur
  · have hfirst : FirstTime s .transmit := fun _ => .inl hcur
    have hdistinct : s.distinct = 0 := by
      unfold LossyLine.distinct
      split_ifs <;> omega
    rw [and_iff_right hfirst, if_pos hcur]
    rw [Counted, hdistinct, ← hcur] at hs
    exact hs
  · rw [hcur] at hb
    have hlt : s.cur.pred < file.length := (List.getElem?_eq_some_iff.mp hb).1
    rw [if_neg (by omega), List.length_append, List.length_singleton]
    have hafter : LossyLine.distinct { s with toRecv := s.toRecv ++ b.packet (BitVec.ofNat 8 s.cur), sent := true,
                                              blocks := s.blocks ++ [b] } = s.cur := rfl
    rw [hafter]
    by_cases hsent : s.sent = true
    · have hagain : ¬ FirstTime s .transmit := by
        intro hfirst
        rcases hfirst rfl with h0 | hnot
        · omega
        · rw [hsent] at hnot
          cases hnot
      have hdistinct : s.distinct = s.cur := if_pos hsent
      refine ⟨fun hall => absurd hall.1 hagain, fun _ => ?_⟩
      by_cases hall : Throughout (fun _ s a => FirstTime s a) h
      · have hlen := congrArg List.length (hs.1 hall)
        rw [List.length_take, hdistinct] at hlen
        omega
      · have hlen := hs.2 hall
        omega
    · have hfirst : FirstTime s .transmit := fun _ => .inr (Bool.eq_false_iff.mpr hsent)
      have hdistinct : s.distinct = s.cur.pred := if_neg hsent
      rw [and_iff_right hfirst]
      constructor
      · intro hall
        rw [hcur, Nat.succ_eq_add_one, List.take_add_one, show file[s.cur.pred]? = some b from hb, ← hdistinct,
          ← hs.1 hall]
        rfl
      · intro hall
        have hlen := hs.2 hall
        omega

theorem step_counted (hs : Counted file h s) (hstep : lossyStep header file tmSec answer s a = some s') :
    Counted file ((s, a) :: h) s' := by
  cases a with
  | put =>
    simp only [lossyStep] at hstep
    split at hstep
    · cases hstep
    · obtain rfl := Option.some.inj hstep
      exact hs.same (by simp) rfl rfl
  | lose =>
    simp only [lossyStep] at hstep
    split at hstep
    · cases hstep
    · obtain ⟨_, hstep⟩ := Option.ite_none_right_eq_some.mp hstep
      obtain rfl := Option.some.inj hstep
      exact hs.same (by simp) rfl rfl
  | get =>
    simp only [lossyStep] at hstep
    split at hstep
    · obtain ⟨_, hstep⟩ := Option.ite_none_left_eq_some.mp hstep
      obtain rfl := Option.some.inj hstep
      exact hs.same (by simp) rfl rfl
    · cases hstep
  | transmit =>
    obtain ⟨b, hb, rfl⟩ := Option.map_eq_some_iff.mp hstep
    exact hs.transmit hb
  | read =>
    simp only [lossyStep] at hstep
    split at hstep
    · cases hstep
    · rename_i b rest hline
      by_cases hack : b = rymCodeAck ∧ s.sent = true
      · rw [if_pos hack] at hstep
        obtain rfl := Option.some.inj hstep
        have hdistinct : s.distinct = s.cur := if_pos hack.2
        exact hs.same (by simp) hdistinct.symm rfl
      · rw [if_neg hack] at hstep
        obtain rfl := Option.some.inj hstep
        exact hs.same (by simp) rfl rfl
  | finish =>
    obtain ⟨_, hstep⟩ := Option.ite_none_right_eq_some.mp hstep
    obtain rfl := Option.some.inj hstep
    exact hs.same (by simp) rfl rfl
  | close f =>
    obtain ⟨_, hstep⟩ := Option.ite_none_right_eq_some.mp hstep
    obtain rfl := Option.some.inj hstep
    exact hs.same (by simp) rfl rfl

theorem run_counted (hrun : (lossy header file tmSec answer junk).Run h s) : Counted file h s := by
  refine hrun.always (I := fun h s => Counted file h s) ?_ ?_
  · intro s hs
    obtain rfl : s = .start tmSec junk := hs
    exact ⟨fun _ => rfl, fun hnot => absurd throughout_nil hnot⟩
  · intro _ _ _ _ _ hs hstep
    exact step_counted hs hstep

/-! ## What is delivered -/

theorem delivered_prefix {calls calls' : List Call} (hcalls : calls <+: calls') :
    delivered calls <+: delivered calls' := hcalls.filterMap _

theorem closed_of_returned (hend : endPc s = .returned rtEok) : s.eots = 2 := by
  by_contra h2
  unfold endPc at hend
  rw [if_neg h2] at hend
  split_ifs at hend
  have herr : -rymErrCode = rtEok := RecvPc.returned.inj hend
  exact absurd herr (by decide)

/-- A block of zeros. -/
def zeroBlock : Block := terminator .soh

/-- The receiver reads a block of the short form. -/
def readBlock : List LossyAction := List.replicate 133 .get

/-- The sender and the receiver, from the last acknowledgement to the end. -/
def finishing : List LossyAction :=
  [.put, .read, .finish, .get, .put, .finish, .get, .put, .put, .close .soh] ++ readBlock

end lemmas

end ThyristorController.Ymodem
