import Mathlib.Data.List.Basic
import Mathlib.Tactic.Common

/-!
# Transmission by interrupt and by polling (`components/drivers/serial/serial.c`)

`_serial_poll_tx` hands the bytes to `putc` one after the other, in stream mode with a carriage return before each line
feed. `_serial_int_tx` does the same with a driver that may answer that it is busy; it waits then, and tries the same
character again from the top. `int_tx_eq_poll_tx` says that both transmit the same bytes unless a line feed is refused
behind its carriage return.
-/

namespace ThyristorController.SerialTx

/-! ## The functions -/

def lineFeed : UInt8 := 10

def carriageReturn : UInt8 := 13

/-- The driver: whether it accepts the bytes that follow (`false` is a busy answer, and it accepts every byte behind the
last answer), and what it has accepted. -/
structure Driver where
  answers : List Bool
  accepted : List UInt8
deriving DecidableEq

/-- `putc`, and whether the byte has been accepted (the result is not -1). -/
def Driver.putc (d : Driver) (ch : UInt8) : Driver × Bool :=
  match d.answers with
  | [] => ({ d with accepted := d.accepted ++ [ch] }, true)
  | true :: answers => ({ answers := answers, accepted := d.accepted ++ [ch] }, true)
  | false :: answers => ({ d with answers := answers }, false)

/-- `_serial_poll_tx`, with `RT_DEVICE_FLAG_STREAM` in `open_flag` or not. -/
def serialPollTx (stream : Bool) (d : Driver) : List UInt8 → Driver
  | [] => d
  | ch :: data =>
    let d := if ch = lineFeed ∧ stream then (d.putc carriageReturn).1 else d
    serialPollTx stream (d.putc ch).1 data

/-- One pass of the loop of `_serial_int_tx`: the bytes that are left. A refused byte is waited for, and the loop goes
on with the same character. -/
def intTxPass (stream : Bool) (d : Driver) (ch : UInt8) (data : List UInt8) : Driver × List UInt8 :=
  let (d, ok) := if ch = lineFeed ∧ stream then d.putc carriageReturn else (d, true)
  if !ok then (d, ch :: data)
  else
    let (d, ok) := d.putc ch
    if !ok then (d, ch :: data) else (d, data)

/-- `_serial_int_tx`, in at most so many passes: the driver and the bytes that are left. -/
def serialIntTx (stream : Bool) : Nat → Driver → List UInt8 → Driver × List UInt8
  | _, d, [] => (d, [])
  | 0, d, data => (d, data)
  | n + 1, d, ch :: data =>
    let (d, data) := intTxPass stream d ch data
    serialIntTx stream n d data

/-- The bytes of a text, with exactly one carriage return before each line feed. -/
def crlf (text : List UInt8) : List UInt8 :=
  text.flatMap fun ch => if ch = lineFeed then [carriageReturn, lineFeed] else [ch]

/-- None of the busy answers is for a line feed, where a refused byte is the next one again. -/
def NoLineFeedRefused : List UInt8 → List Bool → Prop
  | [], _ => True
  | _, [] => True
  | _ :: bytes, true :: answers => NoLineFeedRefused bytes answers
  | ch :: bytes, false :: answers => ch ≠ lineFeed ∧ NoLineFeedRefused (ch :: bytes) answers

section lemmas

variable {d : Driver} {ch : UInt8} {data bytes : List UInt8} {answers : List Bool}

@[simp] theorem crlf_nil : crlf [] = [] := rfl

@[simp] theorem crlf_lineFeed : crlf (lineFeed :: data) = carriageReturn :: lineFeed :: crlf data := rfl

theorem crlf_cons (h : ch ≠ lineFeed) : crlf (ch :: data) = ch :: crlf data := by simp [crlf, h]

@[simp] theorem noLineFeedRefused_nil : NoLineFeedRefused bytes [] := by cases bytes <;> trivial

@[simp] theorem noLineFeedRefused_true :
    NoLineFeedRefused (ch :: bytes) (true :: answers) ↔ NoLineFeedRefused bytes answers := Iff.rfl

@[simp] theorem noLineFeedRefused_false : NoLineFeedRefused (ch :: bytes) (false :: answers) ↔
    ch ≠ lineFeed ∧ NoLineFeedRefused (ch :: bytes) answers := Iff.rfl

/-! ## Polling -/

theorem poll_tx_accepted (acc data : List UInt8) :
    (serialPollTx true ⟨[], acc⟩ data).accepted = acc ++ crlf data := by
  induction data generalizing acc with
  | nil => simp [serialPollTx]
  | cons ch data ih =>
    by_cases hlf : ch = lineFeed
    · subst hlf
      have hstep : serialPollTx true ⟨[], acc⟩ (lineFeed :: data) =
          serialPollTx true ⟨[], acc ++ [carriageReturn] ++ [lineFeed]⟩ data := rfl
      rw [hstep, ih]
      simp
    · have hstep : serialPollTx true ⟨[], acc⟩ (ch :: data) = serialPollTx true ⟨[], acc ++ [ch]⟩ data := by
        simp [serialPollTx, Driver.putc, hlf]
      rw [hstep, ih, crlf_cons hlf]
      simp

/-! ## The passes -/

theorem pass_other (h : ch ≠ lineFeed) (answers : List Bool) (acc : List UInt8) :
    intTxPass true ⟨[], acc⟩ ch data = (⟨[], acc ++ [ch]⟩, data) ∧
    intTxPass true ⟨true :: answers, acc⟩ ch data = (⟨answers, acc ++ [ch]⟩, data) ∧
    intTxPass true ⟨false :: answers, acc⟩ ch data = (⟨answers, acc⟩, ch :: data) := by
  simp [intTxPass, Driver.putc, h]

/-- What a pass does with a line feed: if it is refused, its carriage return has been accepted all the same. -/
theorem pass_lineFeed (answers : List Bool) (acc : List UInt8) :
    intTxPass true ⟨[], acc⟩ lineFeed data = (⟨[], acc ++ [carriageReturn, lineFeed]⟩, data) ∧
    intTxPass true ⟨[true], acc⟩ lineFeed data = (⟨[], acc ++ [carriageReturn, lineFeed]⟩, data) ∧
    intTxPass true ⟨true :: true :: answers, acc⟩ lineFeed data =
      (⟨answers, acc ++ [carriageReturn, lineFeed]⟩, data) ∧
    intTxPass true ⟨true :: false :: answers, acc⟩ lineFeed data =
      (⟨answers, acc ++ [carriageReturn]⟩, lineFeed :: data) ∧
    intTxPass true ⟨false :: answers, acc⟩ lineFeed data = (⟨answers, acc⟩, lineFeed :: data) := by
  simp [intTxPass, Driver.putc]

/-- The bytes that are accepted for `data`: where it starts with a line feed, a carriage return comes first. They are
the expected ones if and only if no line feed is refused. -/
structure Transmits (d d' : Driver) (data left : List UInt8) : Prop where
  all : left = []
  bytes : ∃ r, d'.accepted = d.accepted ++ r ∧ (data.head? = some lineFeed → r.head? = some carriageReturn) ∧
    (r = crlf data ↔ NoLineFeedRefused (crlf data) d.answers)

variable {d' : Driver} {left acc w : List UInt8}

theorem Transmits.sent {answers' : List Bool} (h : Transmits ⟨answers', acc ++ w⟩ d' data left)
    (hcrlf : crlf (ch :: data) = w ++ crlf data) (hw : ch = lineFeed → w.head? = some carriageReturn)
    (hne : w ≠ []) (hrefused : NoLineFeedRefused (crlf (ch :: data)) answers ↔ NoLineFeedRefused (crlf data) answers') :
    Transmits ⟨answers, acc⟩ d' (ch :: data) left := by
  obtain ⟨hall, r, hacc, -, hiff⟩ := h
  refine ⟨hall, w ++ r, by rw [hacc, List.append_assoc], fun hhead => ?_, ?_⟩
  · rw [List.head?_append_of_ne_nil _ hne]
    exact hw (Option.some.inj hhead)
  · rw [hrefused, ← hiff, hcrlf]
    exact List.append_right_inj w

theorem Transmits.waited (h : Transmits ⟨answers, acc⟩ d' (ch :: data) left) :
    Transmits ⟨false :: answers, acc⟩ d' (ch :: data) left := by
  obtain ⟨hall, r, hacc, hhead, hiff⟩ := h
  refine ⟨hall, r, hacc, hhead, hiff.trans ?_⟩
  by_cases hlf : ch = lineFeed
  · subst hlf
    exact (and_iff_right (by decide)).symm
  · rw [crlf_cons hlf]
    exact (and_iff_right hlf).symm

theorem Transmits.again (h : Transmits ⟨answers, acc ++ [carriageReturn]⟩ d' (lineFeed :: data) left) :
    Transmits ⟨true :: false :: answers, acc⟩ d' (lineFeed :: data) left := by
  obtain ⟨hall, r, hacc, hhead, -⟩ := h
  refine ⟨hall, carriageReturn :: r, by rw [hacc, List.append_assoc]; rfl, fun _ => rfl, ?_⟩
  refine iff_of_false (fun heq => ?_) fun hno => hno.1 rfl
  obtain rfl := (List.cons.inj heq).2
  have hne : lineFeed = carriageReturn := Option.some.inj (hhead rfl)
  exact absurd hne (by decide)

theorem int_tx_transmits (n : Nat) (d : Driver) (data : List UInt8) (hn : data.length + d.answers.length ≤ n) :
    Transmits d (serialIntTx true n d data).1 data (serialIntTx true n d data).2 := by
  induction n generalizing d data with
  | zero =>
    obtain rfl : data = [] := List.eq_nil_of_length_eq_zero (by omega)
    exact ⟨rfl, [], by simp [serialIntTx], by simp, by simp [NoLineFeedRefused]⟩
  | succ n ih =>
    cases data with
    | nil => exact ⟨rfl, [], by simp [serialIntTx], by simp, by simp [NoLineFeedRefused]⟩
    | cons ch data =>
      obtain ⟨answers, acc⟩ := d
      simp only [List.length_cons] at hn
      rw [serialIntTx]
      by_cases hlf : ch = lineFeed
      · subst hlf
        have hpass (answers : List Bool) := @pass_lineFeed data answers acc
        rcases answers with _ | ⟨_ | _, answers⟩
        · rw [(hpass []).1]
          exact (ih _ _ (by simp at hn ⊢; omega)).sent rfl (fun _ => rfl) (by simp) (by simp)
        · rw [(hpass answers).2.2.2.2]
          exact (ih _ _ (by simp at hn ⊢; omega)).waited
        · rcases answers with _ | ⟨_ | _, answers⟩
          · rw [(hpass []).2.1]
            exact (ih _ _ (by simp at hn ⊢; omega)).sent rfl (fun _ => rfl) (by simp) (by simp)
          · rw [(hpass answers).2.2.2.1]
            exact (ih _ _ (by simp at hn ⊢; omega)).again
          · rw [(hpass answers).2.2.1]
            exact (ih _ _ (by simp at hn ⊢; omega)).sent rfl (fun _ => rfl) (by simp) (by simp)
      · have hpass (answers : List Bool) := @pass_other ch data hlf answers acc
        rcases answers with _ | ⟨_ | _, answers⟩
        · rw [(hpass []).1]
          exact (ih _ _ (by simp at hn ⊢; omega)).sent (crlf_cons hlf) (fun he => absurd he hlf) (by simp) (by simp)
        · rw [(hpass answers).2.2]
          exact (ih _ _ (by simp at hn ⊢; omega)).waited
        · rw [(hpass answers).2.1]
          refine (ih _ _ (by simp at hn ⊢; omega)).sent (crlf_cons hlf) (fun he => absurd he hlf) (by simp) ?_
          rw [crlf_cons hlf, noLineFeedRefused_true]

end lemmas

/-- For every text and every sequence of answers, `_serial_int_tx` transmits all of the text, and the same bytes as
`_serial_poll_tx` if and only if no line feed is refused behind its carriage return. -/
theorem int_tx_eq_poll_tx (data : List UInt8) (answers : List Bool) (n : Nat) :
    (serialPollTx true ⟨[], []⟩ data).accepted = crlf data ∧
    (serialIntTx true (data.length + answers.length + n) ⟨answers, []⟩ data).2 = [] ∧
    ((serialIntTx true (data.length + answers.length + n) ⟨answers, []⟩ data).1.accepted =
      (serialPollTx true ⟨[], []⟩ data).accepted ↔ NoLineFeedRefused (crlf data) answers) := by
  have hpoll := poll_tx_accepted [] data
  obtain ⟨hall, r, hacc, -, hiff⟩ := int_tx_transmits (data.length + answers.length + n) ⟨answers, []⟩ data
    (Nat.le_add_right _ _)
  refine ⟨hpoll, hall, ?_⟩
  rw [hacc, hpoll]
  exact hiff

/-- The driver is busy when it is given the line feed: the carriage return is transmitted twice. -/
theorem int_tx_repeats : (serialIntTx true 8 ⟨[true, true, false], []⟩ [65, lineFeed]).1.accepted =
      [65, carriageReturn, carriageReturn, lineFeed] ∧
    (serialPollTx true ⟨[], []⟩ [65, lineFeed]).accepted = [65, carriageReturn, lineFeed] := by
  decide

end ThyristorController.SerialTx
