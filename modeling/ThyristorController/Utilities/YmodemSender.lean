import ThyristorController.Utilities.YmodemReceiver

/-!
# Sending with YMODEM (`components/utilities/ymodem/ymodem.c`)

`rym_send_on_device`, and its transfer of a file to `rym_recv_on_device`. The receiver repeats its invitation until it
is answered, and the sender takes one that it finds behind the first for the answer to its header: a transfer comes to a
good end, in any order of the steps, just if it finds no such one (`transfer_completes`). The last block has to be one
that the receiver does not take for a further header.
-/

namespace ThyristorController.Ymodem

open Duplex

/-- What a callback of the sender fills in. -/
abbrev Payload := {p : List Byte // p.length = 128}

def Payload.block (p : Payload) : Block := ⟨.soh, p.1, p.2⟩

/-- What the callbacks of a sender fill in: `on_begin`, `on_data` one after the other, and `on_end`. -/
structure Source where
  header : Payload
  blocks : List Payload
  ending : Payload
  nonempty : blocks ≠ []

/-- What the sender waits for: the invitation, the answers to its header, the one to a data block, those to the ends of
transmission; or it has returned. -/
inductive SendPc
  | handshake (i : Nat)
  | ack
  | invitation
  | dataAck
  | nak
  | finAck
  | finInvitation
  | returned (err : Int)
  deriving DecidableEq

/-- `struct rym_ctx` of a sender. `rest` is what `on_data` has yet to fill in; with the last of it, it sets the stage.
`index` is the number of the next block. -/
structure Sender where
  pc : SendPc
  stage : Stage
  index : Nat
  rest : List Payload
  deriving DecidableEq

namespace Sender

def returns (s : Sender) (err : Int) : Sender := { s with pc := .returned err }

/-- The bytes that `_rym_send_packet` writes. -/
def sendPacket (index : Nat) (p : Payload) : List Byte := packet rymCodeSoh (BitVec.ofNat 8 index) p.1

/-- `_rym_do_send_handshake`, after a code or none. -/
def doSendHandshake (tmSec i : Nat) (src : Source) (s : Sender) (code : Byte) : Sender × List Byte :=
  if code = rymCodeC then ({ s with pc := .ack }, sendPacket 0 src.header)
  else if i + 1 < tmSec then ({ s with pc := .handshake (i + 1) }, [])
  else (s.returns (-rymErrTmo), [])

/-- The loop of `_rym_do_send_trans`, up to the answer. -/
def sendData (s : Sender) : Sender × List Byte :=
  match s.rest with
  | [] => (s.returns (-rymErrCode), [])
  | p :: rest =>
    ({ s with pc := .dataAck, stage := if rest = [] then .finishing else s.stage, index := s.index + 1, rest := rest },
      sendPacket s.index p)

/-- `_rym_do_send_trans`, up to the first answer. -/
def doSendTrans (s : Sender) : Sender × List Byte := sendData { s with stage := .transmitting, index := 1 }

/-- The sender has read a byte. -/
def react (tmSec : Nat) (src : Source) (s : Sender) (b : Byte) : Sender × List Byte :=
  match s.pc with
  | .handshake i => s.doSendHandshake tmSec i src b
  | .ack => if b ≠ rymCodeAck then (s.returns (-rymErrAck), []) else ({ s with pc := .invitation }, [])
  | .invitation =>
    if b ≠ rymCodeC then (s.returns (-rymErrAck), []) else doSendTrans { s with stage := .established }
  | .dataAck =>
    if b ≠ rymCodeAck then (s.returns (-rymErrAck), [])
    else if s.stage = .finishing then ({ s with pc := .nak }, [rymCodeEot])
    else s.sendData
  | .nak => if b ≠ rymCodeNak then (s.returns (-rymErrAck), []) else ({ s with pc := .finAck }, [rymCodeEot])
  | .finAck => if b ≠ rymCodeAck then (s.returns (-rymErrAck), []) else ({ s with pc := .finInvitation }, [])
  | .finInvitation =>
    if b ≠ rymCodeC then (s.returns (-rymErrAck), [])
    else ({ s with pc := .returned rtEok, stage := .finished }, sendPacket 0 src.ending)
  | .returned _ => (s, [])

def halted (s : Sender) : Bool :=
  match s.pc with
  | .returned _ => true
  | _ => false

end Sender

/-- `rym_send_on_device`. -/
def sender (tmSec : Nat) (src : Source) : Party Sender Byte where
  halted := Sender.halted
  react := Sender.react tmSec src

/-! ## A transfer -/

/-- `rym_send_on_device` waits for an invitation. -/
def Sender.start (tmSec : Nat) (src : Source) : Sender :=
  ⟨if 0 < tmSec then .handshake 0 else .returned (-rymErrTmo), .establishing, 0, src.blocks⟩

/-- `rym_recv_on_device` waits for the answer to its invitation. The buffer holds `junk`. -/
def Recv.start (tmSec : Nat) (junk : List Byte) : Recv :=
  ⟨if 0 < tmSec then .handshake 0 else .returned (-rymErrTmo), 0, junk, .establishing, []⟩

/-- The receiver after `k` invitations without an answer. -/
def Recv.invited (tmSec : Nat) (junk : List Byte) : Nat → Recv
  | 0 => .start tmSec junk
  | k + 1 => ((Recv.invited tmSec junk k).doHandshake tmSec k rymCodeNone).1

/-- The sender begins to read when the receiver has put out `n` invitations; the first one is under way if there is none
yet. -/
def opening {σ : Type} (n tmRecv : Nat) (junk : List Byte) (s : σ) : Link σ Recv Byte :=
  ⟨s, [], [], .invited tmRecv junk (n - 1), if n = 0 then [rymCodeC] else [], List.replicate n rymCodeC⟩

/-- The payload of a header or of a data block. -/
def Call.payload : Call → Option (List Byte)
  | .onBegin buf => some buf
  | .onData buf => some buf
  | .onEnd _ => none

/-- Both have returned `RT_EOK`, and the receiver has got what the sender has filled in. -/
def Transferred (src : Source) (s : Link Sender Recv Byte) : Prop :=
  s.left.pc = .returned rtEok ∧ s.right.pc = .returned rtEok ∧
    s.right.calls.filterMap Call.payload = (src.header :: src.blocks).map Subtype.val

instance (src : Source) (s : Link Sender Recv Byte) : Decidable (Transferred src s) := by
  unfold Transferred
  infer_instance

section lemmas

variable {tmSend tmRecv n : Nat} {src : Source} {answer : List Call → Byte} {junk : List Byte} {s : Sender}
  {r : Recv} {calls : List Call} {stage : Stage} {front : List Byte} {p : Payload} {rest : List Payload}

theorem invited_eq {k : Nat} (hlt : k < tmRecv) :
    Recv.invited tmRecv junk k = ⟨.handshake k, 0, junk, .establishing, []⟩ := by
  induction k with
  | zero => rw [Recv.invited, Recv.start, if_pos hlt]
  | succ k ih =>
    rw [Recv.invited, ih (by omega), Recv.doHandshake, if_neg (by decide), if_neg (by decide), if_pos hlt]

theorem invited_at {k : Nat} (hjunk : junk.length = rymStxPkgSz) (hlt : k < tmRecv) :
    At (.handshake k) .establishing [] ((Recv.invited tmRecv junk k).data 128) (Recv.invited tmRecv junk k) := by
  rw [invited_eq hlt]
  exact ⟨rfl, rfl, rfl, hjunk, rfl⟩

/-- What `on_data` does to the stage before the blocks of `rest` are left. -/
def stageBefore (rest : List Payload) : Stage := if rest = [] then .finishing else .transmitting

theorem takes_ack {p' : Payload} {index : Nat} :
    Takes (sender tmSend src) ⟨.dataAck, stageBefore (p' :: rest), index, p' :: rest⟩ [rymCodeAck]
      (Sender.sendPacket index p') ⟨.dataAck, stageBefore rest, index + 1, rest⟩ := by
  have hone := Takes.one (A := sender tmSend src) (l := ⟨.dataAck, stageBefore (p' :: rest), index, p' :: rest⟩)
    (b := rymCodeAck) rfl
  exact hone

theorem takes_last_ack {index : Nat} :
    Takes (sender tmSend src) ⟨.dataAck, stageBefore [], index, []⟩ [rymCodeAck] [rymCodeEot]
      ⟨.nak, .finishing, index, []⟩ :=
  Takes.one (A := sender tmSend src) (l := ⟨.dataAck, stageBefore [], index, []⟩) (b := rymCodeAck) rfl

theorem blocks_leads {index : Nat} (hans : ∀ calls, answer calls = rymCodeAck) (hr : At .code stage calls front r)
    (hfirst : stage = .established → BitVec.ofNat 8 index ≠ 0) :
    ∃ index' front' r', At .code .transmitting (calls ++ (p :: rest).map fun p => .onData p.1) front' r' ∧
      Leads (sender tmSend src) (receiver tmRecv answer)
        (.quiet ⟨.dataAck, stageBefore rest, index + 1, rest⟩ (Sender.sendPacket index p) r [])
        (.quiet ⟨.nak, .finishing, index', []⟩ [rymCodeEot] r' []) := by
  induction rest generalizing p index stage calls front r with
  | nil =>
    obtain ⟨r', htakes, hat⟩ := hr.takes_data (b := p.block) tmRecv hfirst (hans _)
    exact ⟨_, _, r', hat, htakes.answer takes_last_ack⟩
  | cons p' rest ih =>
    obtain ⟨r₁, htakes, hat⟩ := hr.takes_data (b := p.block) tmRecv hfirst (hans _)
    obtain ⟨index', front', r', hat', hleads⟩ := @ih r₁ _ _ _ p' (index + 1) hat (fun hst => by cases hst)
    refine ⟨index', front', r', ?_, (htakes.answer takes_ack).trans hleads⟩
    rw [List.append_assoc] at hat'
    exact hat'

theorem opening_leads {σ : Type} {A : Party σ Byte} {l : σ} (hn : n ≤ 1) :
    Leads A (receiver tmRecv answer) (opening n tmRecv junk l)
      (.quiet l [] (.invited tmRecv junk (n - 1)) [rymCodeC]) := by
  obtain rfl | rfl : n = 0 ∨ n = 1 := by omega
  · exact flushRight ..
  · exact .refl _

theorem takes_invitation {tail : List Payload} {index : Nat} :
    Takes (sender tmSend src) ⟨.handshake 0, stage, index, tail⟩ [rymCodeC] (Sender.sendPacket 0 src.header)
      ⟨.ack, stage, index, tail⟩ :=
  Takes.one (A := sender tmSend src) (l := ⟨.handshake 0, stage, index, tail⟩) (b := rymCodeC) rfl

theorem takes_established {index : Nat} :
    Takes (sender tmSend src) ⟨.ack, stage, index, p :: rest⟩ [rymCodeAck, rymCodeC] (Sender.sendPacket 1 p)
      ⟨.dataAck, stageBefore rest, 2, rest⟩ := by
  have hack := Takes.one (A := sender tmSend src) (l := ⟨.ack, stage, index, p :: rest⟩) (b := rymCodeAck) rfl
  exact hack.append
    (Takes.one (A := sender tmSend src) (l := ⟨.invitation, stage, index, p :: rest⟩) (b := rymCodeC) rfl)

theorem takes_nak {index : Nat} :
    Takes (sender tmSend src) ⟨.nak, stage, index, rest⟩ [rymCodeNak] [rymCodeEot] ⟨.finAck, stage, index, rest⟩ :=
  Takes.one (A := sender tmSend src) (l := ⟨.nak, stage, index, rest⟩) (b := rymCodeNak) rfl

theorem takes_finished {index : Nat} :
    Takes (sender tmSend src) ⟨.finAck, stage, index, rest⟩ [rymCodeAck, rymCodeC] (Sender.sendPacket 0 src.ending)
      ⟨.returned rtEok, .finished, index, rest⟩ := by
  have hack := Takes.one (A := sender tmSend src) (l := ⟨.finAck, stage, index, rest⟩) (b := rymCodeAck) rfl
  exact hack.append
    (Takes.one (A := sender tmSend src) (l := ⟨.finInvitation, stage, index, rest⟩) (b := rymCodeC) rfl)

/-- The calls of a receiver to which a file has been transferred. -/
def fileCalls (src : Source) (front : List Byte) : List Call :=
  .onBegin src.header.1 :: src.blocks.map (fun p => .onData p.1) ++ [.onEnd front]

theorem payloads_fileCalls :
    (fileCalls src front).filterMap Call.payload = (src.header :: src.blocks).map Subtype.val := by
  have hblocks : ∀ ps : List Payload,
      (ps.map fun p => Call.onData p.1).filterMap Call.payload = ps.map Subtype.val := by
    intro ps
    induction ps with
    | nil => rfl
    | cons p ps ih => exact congrArg (p.1 :: ·) ih
  rw [fileCalls, List.filterMap_append]
  exact (List.append_nil _).trans (congrArg (src.header.1 :: ·) (hblocks src.blocks))

theorem start_eq (hpos : 0 < tmSend) : Sender.start tmSend src = ⟨.handshake 0, .establishing, 0, src.blocks⟩ := by
  rw [Sender.start, if_pos hpos]

/-- The transfer up to the last block of the sender, which has returned. -/
theorem dialogue (hans : ∀ calls, answer calls = rymCodeAck) (hjunk : junk.length = rymStxPkgSz) (hsend : 0 < tmSend)
    (hrecv : n - 1 < tmRecv) (hn : n ≤ 1) :
    ∃ index front r, At .next .finishing (fileCalls src front) front r ∧
      Leads (sender tmSend src) (receiver tmRecv answer) (opening n tmRecv junk (.start tmSend src))
        (.quiet ⟨.returned rtEok, .finished, index, []⟩ (Sender.sendPacket 0 src.ending) r []) := by
  obtain ⟨p, rest, hblocks⟩ : ∃ p rest, src.blocks = p :: rest := List.exists_cons_of_ne_nil src.nonempty
  have hinvite : Leads (sender tmSend src) (receiver tmRecv answer)
      (.quiet ⟨.handshake 0, .establishing, 0, p :: rest⟩ [] (.invited tmRecv junk (n - 1)) ([rymCodeC] ++ []))
      (.quiet ⟨.ack, .establishing, 0, p :: rest⟩ ([] ++ Sender.sendPacket 0 src.header)
        (.invited tmRecv junk (n - 1)) []) :=
    takes_invitation.left
  rw [List.append_nil, List.nil_append] at hinvite
  obtain ⟨r₁, hheader, hat₁⟩ := (invited_at hjunk hrecv).takes_header (b := src.header.block) tmRecv (hans _)
  obtain ⟨index, front, r₂, hat₂, hdata⟩ :=
    @blocks_leads tmSend tmRecv src answer r₁ _ .established _ p rest 1 hans hat₁ (fun _ => by decide)
  obtain ⟨r₃, heot, hat₃⟩ := hat₂.takes_eot tmRecv answer
  obtain ⟨r₄, hend, hat₄⟩ := hat₃.takes_end tmRecv answer
  refine ⟨index, front, r₄, ?_, ?_⟩
  · rw [fileCalls, hblocks]
    exact hat₄
  · rw [start_eq hsend, hblocks]
    exact (opening_leads hn).trans <| hinvite.trans <| (hheader.answer takes_established).trans <| hdata.trans <|
      (heot.answer takes_nak).trans (hend.answer takes_finished)

theorem settles_one (hans : ∀ calls, answer calls = rymCodeAck) (hjunk : junk.length = rymStxPkgSz)
    (hsend : 0 < tmSend) (hrecv : n - 1 < tmRecv) (hn : n ≤ 1) :
    Settles (sender tmSend src) (receiver tmRecv answer) (opening n tmRecv junk (.start tmSend src)) (Transferred src) ↔
      src.ending.1.getD 0 0 = 0 := by
  obtain ⟨index, front, r, hat, hleads⟩ := @dialogue tmSend tmRecv n src answer junk hans hjunk hsend hrecv hn
  by_cases hname : src.ending.1.getD 0 0 = 0
  · obtain ⟨r', htakes, hat'⟩ := hat.takes_last tmRecv answer .soh _ _ src.ending.2 hname
      (crc_bytes (crc16 src.ending.1))
    have hlast : Leads (sender tmSend src) (receiver tmRecv answer)
        (.quiet ⟨.returned rtEok, .finished, index, []⟩ (Sender.sendPacket 0 src.ending ++ []) r [])
        (.quiet ⟨.returned rtEok, .finished, index, []⟩ [] r' ([] ++ [rymCodeAck])) := htakes.right
    rw [List.append_nil, List.nil_append] at hlast
    obtain ⟨k, hsteps⟩ := hleads.trans hlast
    rw [settles_iff hsteps (stuck_quiet (.inl rfl) (.inl hat'.halted))]
    refine iff_of_true ⟨rfl, hat'.pc, ?_⟩ hname
    exact (congrArg (List.filterMap Call.payload) hat'.calls).trans payloads_fileCalls
  · obtain ⟨r', htakes, hat'⟩ := hat.takes_next (b := src.ending.block) tmRecv rfl hname (hans _)
    have hlast : Leads (sender tmSend src) (receiver tmRecv answer)
        (.quiet ⟨.returned rtEok, .finished, index, []⟩ (Sender.sendPacket 0 src.ending ++ []) r [])
        (.quiet ⟨.returned rtEok, .finished, index, []⟩ [] r' ([] ++ [rymCodeAck, rymCodeC])) := htakes.right
    rw [List.append_nil, List.nil_append] at hlast
    obtain ⟨k, hsteps⟩ := hleads.trans hlast
    rw [settles_iff hsteps (stuck_quiet (.inl rfl) (.inr rfl))]
    refine iff_of_false ?_ hname
    rintro ⟨_, hpc, _⟩
    cases hat'.pc.symm.trans hpc

theorem takes_stale {tail : List Payload} {index : Nat} :
    Takes (sender tmSend src) ⟨.handshake 0, stage, index, tail⟩ [rymCodeC, rymCodeC] (Sender.sendPacket 0 src.header)
      ⟨.returned (-rymErrAck), stage, index, tail⟩ := by
  have hstale := Takes.one (A := sender tmSend src) (l := ⟨.ack, stage, index, tail⟩) (b := rymCodeC) rfl
  have htakes := takes_invitation.append hstale
  rwa [show ((sender tmSend src).react ⟨.ack, stage, index, tail⟩ rymCodeC).2 = [] from rfl, List.append_nil] at htakes

theorem stale_end (hans : ∀ calls, answer calls = rymCodeAck) (hjunk : junk.length = rymStxPkgSz)
    (hsend : 0 < tmSend) (hrecv : n - 1 < tmRecv) (hn : 1 < n) :
    ∃ k t, Steps (sender tmSend src) (receiver tmRecv answer) k (opening n tmRecv junk (.start tmSend src)) t ∧
      t.Stuck (sender tmSend src) (receiver tmRecv answer) ∧ t.left.pc = .returned (-rymErrAck) ∧
        t.right.pc = .code := by
  obtain ⟨m, rfl⟩ : ∃ m, n = m + 2 := ⟨n - 2, by omega⟩
  obtain ⟨r', hheader, hat⟩ := (invited_at hjunk hrecv).takes_header (b := src.header.block) tmRecv (hans _)
  have hstale : Leads (sender tmSend src) (receiver tmRecv answer) (opening (m + 2) tmRecv junk (.start tmSend src))
      (.quiet ⟨.returned (-rymErrAck), .establishing, 0, src.blocks⟩ ([] ++ Sender.sendPacket 0 src.header)
        (.invited tmRecv junk (m + 2 - 1)) (List.replicate m rymCodeC)) := by
    rw [start_eq hsend]
    exact takes_stale.left
  have hanswer : Leads (sender tmSend src) (receiver tmRecv answer)
      (.quiet ⟨.returned (-rymErrAck), .establishing, 0, src.blocks⟩ (Sender.sendPacket 0 src.header ++ [])
        (.invited tmRecv junk (m + 2 - 1)) (List.replicate m rymCodeC))
      (.quiet ⟨.returned (-rymErrAck), .establishing, 0, src.blocks⟩ [] r'
        (List.replicate m rymCodeC ++ [rymCodeAck, rymCodeC])) := hheader.right
  rw [List.nil_append] at hstale
  rw [List.append_nil] at hanswer
  obtain ⟨k, hsteps⟩ := hstale.trans hanswer
  exact ⟨k, _, hsteps, stuck_quiet (.inl rfl) (.inr rfl), rfl, hat.pc⟩

/-- Every transfer comes to its end, both have returned `RT_EOK` there and the payloads have arrived, exactly if the
receiver has put out no second invitation before the sender reads the first one, and the block that `on_end` fills in
begins with 0. -/
theorem transfer_completes (hans : ∀ calls, answer calls = rymCodeAck) (hjunk : junk.length = rymStxPkgSz)
    (hsend : 0 < tmSend) (hrecv : n - 1 < tmRecv) :
    Settles (sender tmSend src) (receiver tmRecv answer) (opening n tmRecv junk (.start tmSend src)) (Transferred src) ↔
      n ≤ 1 ∧ src.ending.1.getD 0 0 = 0 := by
  rcases Nat.lt_or_ge 1 n with hn | hn
  · obtain ⟨k, t, hsteps, hstuck, hleft, _⟩ := @stale_end tmSend tmRecv n src answer junk hans hjunk hsend hrecv hn
    rw [settles_iff hsteps hstuck]
    constructor
    · rintro ⟨hpc, _⟩
      have herr : -rymErrAck = rtEok := SendPc.returned.inj (hleft.symm.trans hpc)
      exact absurd herr (by decide)
    · rintro ⟨hle, _⟩
      omega
  · rw [settles_one hans hjunk hsend hrecv hn]
    exact (and_iff_right hn).symm

/-- A file of one block. -/
def smallFile : Source where
  header := ⟨0x61 :: List.replicate 127 0, congrArg (· + 1) List.length_replicate⟩
  blocks := [⟨List.replicate 128 0x1a, List.length_replicate⟩]
  ending := ⟨List.replicate 128 0, List.length_replicate⟩
  nonempty := by simp

theorem transfer_completes_run : Settles (sender 10 smallFile) (receiver 10 fun _ => rymCodeAck)
    (opening 0 10 (List.replicate 1029 0) (.start 10 smallFile)) (Transferred smallFile) :=
  (transfer_completes (fun _ => rfl) List.length_replicate (by decide) (by decide)).mpr ⟨by decide, rfl⟩

/-- With two invitations, the sender gives up and the receiver waits on. -/
theorem stale_invitation :
    let start := opening 2 10 (List.replicate 1029 0) (Sender.start 10 smallFile)
    ¬ Settles (sender 10 smallFile) (receiver 10 fun _ => rymCodeAck) start (Transferred smallFile) ∧
      Settles (sender 10 smallFile) (receiver 10 fun _ => rymCodeAck) start
        fun s => s.left.pc = .returned (-rymErrAck) ∧ s.right.pc = .code := by
  obtain ⟨k, t, hsteps, hstuck, hleft, hright⟩ := @stale_end 10 10 2 smallFile (fun _ => rymCodeAck)
    (List.replicate 1029 0) (fun _ => rfl) List.length_replicate (by decide) (by decide) (by decide)
  refine ⟨?_, (settles_iff hsteps hstuck).mpr ⟨hleft, hright⟩⟩
  rw [settles_iff hsteps hstuck]
  rintro ⟨hpc, _⟩
  have herr : -rymErrAck = rtEok := SendPc.returned.inj (hleft.symm.trans hpc)
  exact absurd herr (by decide)

end lemmas

end ThyristorController.Ymodem
