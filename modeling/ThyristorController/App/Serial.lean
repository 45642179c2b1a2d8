import ThyristorController.App.Steps
import Mathlib.Data.List.FinRange

/-!
# The serial protocol (`applications/uart_sample.c`)

`serial_thread_entry` handles one received byte at a time. Its answer to a query is sent through the
variable `ch` that holds the received byte, and the chain of tests that follows looks at `ch` again: an
answer that ends with the byte `0x02` is taken for the start of a set-point message.

`serial_iff_grammar` compares the thread with the grammar of the protocol, over all byte streams and all
voltages: they agree exactly if no query is answered with such a byte.
-/

namespace ThyristorController

/-- A received byte, with the values of `adc_voltage` present when it is handled. -/
structure Received where
  byte : UInt8
  adcVoltage : Fin 7 → Int

/-- What the thread does that others see. -/
inductive SerialAction where
  | reply (bytes : List UInt8)
  | paraWrite (voltageSetObay currentSetObay : Nat)
deriving DecidableEq

/-- `start`, `voltage_recv` and `current_recv`. -/
structure SerialState where
  start : Nat
  voltageRecv : UInt16
  currentRecv : UInt16
deriving DecidableEq

def serialInit : SerialState where
  start := 0
  voltageRecv := 0
  currentRecv := 0

/-- `(((unsigned char)adc_voltage[i]) & 0xff00) >> 8`. -/
def highByte (v : Int) : UInt8 := UInt8.ofNat (((UInt8.ofInt v).toNat &&& 0xff00) >>> 8)

/-- `((unsigned char)adc_voltage[i]) & 0x00ff`. -/
def lowByte (v : Int) : UInt8 := UInt8.ofNat ((UInt8.ofInt v).toNat &&& 0x00ff)

/-- The loop that answers a query: the value it leaves in `ch`, and the bytes it writes. -/
def queryReply (adcVoltage : Fin 7 → Int) (ch : UInt8) : UInt8 × List UInt8 :=
  (List.finRange 7).foldl
    (fun r i => (lowByte (adcVoltage i), r.2 ++ [highByte (adcVoltage i), lowByte (adcVoltage i)])) (ch, [])

/-- The body of the loop of `serial_thread_entry`, after it has read a byte. -/
def serialThreadEntry (s : SerialState) (r : Received) : SerialState × List SerialAction :=
  let (ch, sent) :=
    if r.byte = 0x01 ∧ s.start = 0 then
      let (ch, bytes) := queryReply r.adcVoltage r.byte
      (ch, [.reply bytes])
    else (r.byte, [])
  if ch = 0x02 ∧ s.start = 0 then ({ s with start := 1 }, sent)
  else if s.start = 1 then ({ s with voltageRecv := ch.toUInt16 <<< 8, start := s.start + 1 }, sent)
  else if s.start = 2 then
    ({ s with voltageRecv := s.voltageRecv + ch.toUInt16, start := s.start + 1 }, sent)
  else if s.start = 3 then ({ s with currentRecv := ch.toUInt16 <<< 8, start := s.start + 1 }, sent)
  else if s.start = 4 then
    let currentRecv := s.currentRecv + ch.toUInt16
    ({ s with currentRecv := currentRecv, start := 0 },
      sent ++ [.paraWrite s.voltageRecv.toNat currentRecv.toNat])
  else (s, sent)

/-- The actions of the thread on a stream. -/
def serialActions (s : SerialState) : List Received → List SerialAction
  | [] => []
  | r :: rest => (serialThreadEntry s r).2 ++ serialActions (serialThreadEntry s r).1 rest

/-- Every query that the thread answers leaves its state as it was. -/
def QueriesKeepState (s : SerialState) : List Received → Prop
  | [] => True
  | r :: rest =>
    (r.byte = 0x01 ∧ s.start = 0 → (serialThreadEntry s r).1 = s) ∧
      QueriesKeepState (serialThreadEntry s r).1 rest

/-! ## The grammar -/

/-- The answer to a query: high and low byte of each voltage. -/
def replyBytes (adcVoltage : Fin 7 → Int) : List UInt8 :=
  (List.finRange 7).flatMap fun i => [highByte (adcVoltage i), lowByte (adcVoltage i)]

/-- The stream read as `(0x01 | 0x02 b1 b2 b3 b4 | any other byte)*`; a message that the stream does not
complete does nothing. -/
def grammarActions : List Received → List SerialAction
  | [] => []
  | r :: rest =>
    if r.byte = 0x01 then .reply (replyBytes r.adcVoltage) :: grammarActions rest
    else if r.byte = 0x02 then
      match rest with
      | b1 :: b2 :: b3 :: b4 :: rest =>
        .paraWrite (256 * b1.byte.toNat + b2.byte.toNat) (256 * b3.byte.toNat + b4.byte.toNat) ::
          grammarActions rest
      | _ => []
    else grammarActions rest

/-- The queries of the stream, read so. -/
def grammarQueries : List Received → List Received
  | [] => []
  | r :: rest =>
    if r.byte = 0x01 then r :: grammarQueries rest
    else if r.byte = 0x02 then
      match rest with
      | _ :: _ :: _ :: _ :: rest => grammarQueries rest
      | _ => []
    else grammarQueries rest

/-! ## The answer to a query -/

theorem queryReply_eq (adcVoltage : Fin 7 → Int) (ch : UInt8) :
    queryReply adcVoltage ch = (lowByte (adcVoltage 6), replyBytes adcVoltage) := by
  simp [queryReply, replyBytes, List.finRange_succ]

/-- The answer to a query as the host reads it: pairs of a high and a low byte. -/
def decodeReply : List UInt8 → List Int
  | high :: low :: rest => (256 * high.toNat + low.toNat) :: decodeReply rest
  | _ => []

theorem highByte_eq (v : Int) : highByte v = 0 := by
  have hlt := (UInt8.ofInt v).toNat_lt
  have hmask : ((UInt8.ofInt v).toNat &&& 0xff00) >>> 8 = 0 := by
    rw [Nat.shiftRight_and_distrib, Nat.shiftRight_eq_div_pow, Nat.div_eq_of_lt hlt, Nat.zero_and]
  rw [highByte, hmask]
  rfl

theorem lowByte_toNat (v : Int) : ((lowByte v).toNat : Int) = v % 256 := by
  have hlt := (UInt8.ofInt v).toNat_lt
  have hmask : (UInt8.ofInt v).toNat &&& 0x00ff = (UInt8.ofInt v).toNat := by
    rw [show 0x00ff = 2 ^ 8 - 1 from rfl, Nat.and_two_pow_sub_one_eq_mod]
    omega
  rw [lowByte, hmask, UInt8.ofNat_toNat, UInt8.ofInt, UInt8.toNat_ofNat']
  omega

theorem decodeReply_queryReply (adcVoltage : Fin 7 → Int) (ch : UInt8) :
    decodeReply (queryReply adcVoltage ch).2 = (List.finRange 7).map fun i => adcVoltage i % 256 := by
  simp [queryReply_eq, replyBytes, List.finRange_succ, decodeReply, highByte_eq, lowByte_toNat]

/-- The answer to a query gives the voltages back exactly if each of them fits in one byte. -/
theorem reply_decodes_iff (adcVoltage : Fin 7 → Int) (ch : UInt8) :
    decodeReply (queryReply adcVoltage ch).2 = (List.finRange 7).map adcVoltage ↔
      ∀ i, 0 ≤ adcVoltage i ∧ adcVoltage i < 256 := by
  rw [decodeReply_queryReply, List.map_inj_left]
  refine ⟨fun h i => ?_, fun h i _ => ?_⟩
  · have := h i (List.mem_finRange i)
    omega
  · have := h i
    omega

/-- The greatest sample, read again and again, raises the voltages above 255. -/
theorem reply_loses_the_high_byte :
    ∃ h s, controller.Run h s ∧ (∀ i, 256 ≤ s.adcVoltage i) ∧
      decodeReply (queryReply s.adcVoltage 0x01).2 ≠ (List.finRange 7).map s.adcVoltage :=
  run_of_schedule ⟨true, none⟩ [List.replicate 52 (.adc fun _ => 4095)]
    (fun _ s => (∀ i, 256 ≤ s.adcVoltage i) ∧
      decodeReply (queryReply s.adcVoltage 0x01).2 ≠ (List.finRange 7).map s.adcVoltage)
    (by decide +kernel)

theorem recv_toNat (hi lo : UInt8) :
    (hi.toUInt16 <<< 8 + lo.toUInt16).toNat = 256 * hi.toNat + lo.toNat := by
  have hhi := hi.toNat_lt
  have hlo := lo.toNat_lt
  simp [Nat.shiftLeft_eq]
  omega

section steps

variable {s : SerialState} {r : Received}

theorem serial_query (hs : s.start = 0) (hr : r.byte = 0x01) :
    serialThreadEntry s r =
      (if lowByte (r.adcVoltage 6) = 0x02 then { s with start := 1 } else s,
        [.reply (replyBytes r.adcVoltage)]) := by
  rw [serialThreadEntry, if_pos ⟨hr, hs⟩, queryReply_eq]
  by_cases h2 : lowByte (r.adcVoltage 6) = 0x02 <;> simp [h2, hs]

theorem serial_message (hs : s.start = 0) (hr : r.byte = 0x02) :
    serialThreadEntry s r = ({ s with start := 1 }, []) := by
  simp [serialThreadEntry, hs, hr]

theorem serial_other (hs : s.start = 0) (h1 : r.byte ≠ 0x01) (h2 : r.byte ≠ 0x02) :
    serialThreadEntry s r = (s, []) := by
  simp [serialThreadEntry, hs, h1, h2]

theorem serial_payload (hs : s.start ≠ 0) :
    serialThreadEntry s r =
      if s.start = 1 then ({ s with voltageRecv := r.byte.toUInt16 <<< 8, start := 2 }, [])
      else if s.start = 2 then ({ s with voltageRecv := s.voltageRecv + r.byte.toUInt16, start := 3 }, [])
      else if s.start = 3 then ({ s with currentRecv := r.byte.toUInt16 <<< 8, start := 4 }, [])
      else if s.start = 4 then
        ({ s with currentRecv := s.currentRecv + r.byte.toUInt16, start := 0 },
          [.paraWrite s.voltageRecv.toNat (s.currentRecv + r.byte.toUInt16).toNat])
      else (s, []) := by
  simp only [serialThreadEntry, hs, and_false, if_false, List.nil_append]
  split_ifs <;> simp_all

end steps

theorem serial_four (s : SerialState) (b1 b2 b3 b4 : Received) (rest : List Received) :
    ∃ t : SerialState, t.start = 0 ∧
      serialActions { s with start := 1 } (b1 :: b2 :: b3 :: b4 :: rest) =
        .paraWrite (256 * b1.byte.toNat + b2.byte.toNat) (256 * b3.byte.toNat + b4.byte.toNat) ::
          serialActions t rest ∧
      (QueriesKeepState { s with start := 1 } (b1 :: b2 :: b3 :: b4 :: rest) ↔ QueriesKeepState t rest) := by
  refine ⟨⟨0, b1.byte.toUInt16 <<< 8 + b2.byte.toUInt16, b3.byte.toUInt16 <<< 8 + b4.byte.toUInt16⟩,
    rfl, ?_, ?_⟩
  · simp [serialActions, serial_payload, ← recv_toNat]
  · simp [QueriesKeepState, serial_payload]

theorem serial_short (s : SerialState) (rest : List Received)
    (hshort : ∀ b1 b2 b3 b4 more, rest ≠ b1 :: b2 :: b3 :: b4 :: more) :
    serialActions { s with start := 1 } rest = [] ∧ QueriesKeepState { s with start := 1 } rest := by
  match rest with
  | [] => exact ⟨rfl, trivial⟩
  | [_] | [_, _] | [_, _, _] => simp [serialActions, QueriesKeepState, serial_payload]
  | b1 :: b2 :: b3 :: b4 :: more => exact absurd rfl (hshort b1 b2 b3 b4 more)

/-! ## The thread and the grammar -/

section grammar

variable {r : Received} (rest : List Received)

theorem grammar_query (hr : r.byte = 0x01) :
    grammarActions (r :: rest) = .reply (replyBytes r.adcVoltage) :: grammarActions rest ∧
      grammarQueries (r :: rest) = r :: grammarQueries rest := by
  rw [grammarActions.eq_def, grammarQueries.eq_def]
  exact ⟨if_pos hr, if_pos hr⟩

theorem grammar_message (hr : r.byte = 0x02) (b1 b2 b3 b4 : Received) :
    grammarActions (r :: b1 :: b2 :: b3 :: b4 :: rest) =
        .paraWrite (256 * b1.byte.toNat + b2.byte.toNat) (256 * b3.byte.toNat + b4.byte.toNat) ::
          grammarActions rest ∧
      grammarQueries (r :: b1 :: b2 :: b3 :: b4 :: rest) = grammarQueries rest := by
  simp [grammarActions, grammarQueries, hr]

theorem grammar_short (hr : r.byte = 0x02)
    (hshort : ∀ b1 b2 b3 b4 more, rest ≠ b1 :: b2 :: b3 :: b4 :: more) :
    grammarActions (r :: rest) = [] ∧ grammarQueries (r :: rest) = [] := by
  match rest with
  | [] | [_] | [_, _] | [_, _, _] => simp [grammarActions, grammarQueries, hr]
  | b1 :: b2 :: b3 :: b4 :: more => exact absurd rfl (hshort b1 b2 b3 b4 more)

theorem grammar_other (h1 : r.byte ≠ 0x01) (h2 : r.byte ≠ 0x02) :
    grammarActions (r :: rest) = grammarActions rest ∧
      grammarQueries (r :: rest) = grammarQueries rest := by
  rw [grammarActions.eq_def, grammarQueries.eq_def]
  dsimp only
  rw [if_neg h1, if_neg h2, if_neg h1, if_neg h2]
  exact ⟨rfl, rfl⟩

end grammar

theorem grammar_agrees (stream : List Received) : ∀ s : SerialState, s.start = 0 →
    (serialActions s stream = grammarActions stream ∧ QueriesKeepState s stream ↔
      ∀ r ∈ grammarQueries stream, lowByte (r.adcVoltage 6) ≠ 0x02) := by
  induction stream using grammarQueries.induct with
  | case1 =>
    intro s _
    simp [serialActions, grammarActions, QueriesKeepState, grammarQueries]
  | case2 r rest hr ih =>
    intro s hs
    obtain ⟨hacts, hqueries⟩ := grammar_query rest hr
    rw [serialActions, hacts, QueriesKeepState, hqueries, serial_query hs hr]
    by_cases h2 : lowByte (r.adcVoltage 6) = 0x02
    · -- the answer leaves `start = 1`
      have hne : { s with start := 1 } ≠ s := fun he => by simpa [hs] using congrArg SerialState.start he
      simp [h2, hs, hr, hne]
    · simp [h2, ih s hs]
  | case3 r h1 h2 b1 b2 b3 b4 rest ih =>
    intro s hs
    obtain ⟨t, ht, hacts, hkeep⟩ := serial_four s b1 b2 b3 b4 rest
    obtain ⟨hgrammar, hqueries⟩ := grammar_message rest h2 b1 b2 b3 b4
    rw [serialActions, hgrammar, QueriesKeepState, hqueries, serial_message hs h2, hacts, hkeep, ← ih t ht]
    simp [h1]
  | case4 r rest h1 h2 hshort =>
    intro s hs
    have hne : ∀ b1 b2 b3 b4 more, rest ≠ b1 :: b2 :: b3 :: b4 :: more := hshort
    obtain ⟨hacts, hkeep⟩ := serial_short s rest hne
    obtain ⟨hgrammar, hqueries⟩ := grammar_short rest h2 hne
    rw [serialActions, hgrammar, QueriesKeepState, hqueries, serial_message hs h2, hacts]
    simp [h1, hkeep]
  | case5 r rest h1 h2 ih =>
    intro s hs
    obtain ⟨hgrammar, hqueries⟩ := grammar_other rest h1 h2
    rw [serialActions, hgrammar, QueriesKeepState, hqueries, serial_other hs h1 h2, ← ih s hs]
    simp [h1]

/-- The thread follows the grammar, and answers to queries leave its state alone, exactly if no query is
answered with the last byte `0x02`. -/
theorem serial_iff_grammar (stream : List Received) :
    (serialActions serialInit stream = grammarActions stream ∧ QueriesKeepState serialInit stream) ↔
      ∀ r ∈ grammarQueries stream, lowByte (r.adcVoltage 6) ≠ 0x02 :=
  grammar_agrees stream serialInit rfl

/-- Two queries at `adc_voltage[6] = 2`: the second one is swallowed. -/
theorem second_query_unanswered :
    let stream : List Received := [⟨0x01, fun _ => 2⟩, ⟨0x01, fun _ => 2⟩]
    serialActions serialInit stream = [.reply (replyBytes fun _ => 2)] ∧
      grammarActions stream = [.reply (replyBytes fun _ => 2), .reply (replyBytes fun _ => 2)] ∧
      ¬ (serialActions serialInit stream = grammarActions stream ∧ QueriesKeepState serialInit stream) := by
  have hacts : serialActions serialInit [⟨0x01, fun _ => 2⟩, ⟨0x01, fun _ => 2⟩] ≠
      grammarActions [⟨0x01, fun _ => 2⟩, ⟨0x01, fun _ => 2⟩] := by decide +kernel
  exact ⟨by decide +kernel, by decide +kernel, fun h => hacts h.1⟩

end ThyristorController
