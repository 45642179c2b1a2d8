import Mathlib.Data.List.DropRight
import ThyristorController.Drivers.SerialRx
import ThyristorController.Lib.Ring
import ThyristorController.Lib.Run

/-!
# The receive FIFO between the interrupt and the reader

Received bytes are stored one at a time while a call of `_serial_int_rx` runs; each critical section is one step, so
that the interrupt may come between any two bytes of a read.

A byte is known by its arrival number. `fifo_delivers_newest` says that the arrival numbers of the delivered bytes
increase, and that a read obtains the last ones of the bytes that have arrived behind the last delivered one, at most
`bufsz - 1` of them.
-/

namespace ThyristorController

/-! ## The contents of the FIFO -/

namespace RxFifo

variable {bufsz : Nat} {fifo fifo' : RxFifo bufsz} {ch : UInt8}

/-- `_serial_int_rx`, when no byte comes in between: the bytes at `data`. -/
def serialIntRx (hsz : 2 ≤ bufsz) : Nat → RxFifo bufsz → List UInt8
  | 0, _ => []
  | length + 1, fifo =>
    match fifo.take hsz with
    | none => []
    | some (ch, fifo) => ch :: serialIntRx hsz length fifo

/-- The bytes in the FIFO, oldest first. -/
def queue (fifo : RxFifo bufsz) : List UInt8 := Ring.contents fifo.buffer bufsz fifo.getIndex fifo.rxLength

@[simp] theorem length_queue : fifo.queue.length = fifo.rxLength := Ring.length_contents

@[simp] theorem queue_init (hsz : 2 ≤ bufsz) : (init hsz).queue = [] := rfl

theorem nextIndex_eq {i : Nat} (hi : i < bufsz) : nextIndex bufsz i = (i + 1) % bufsz := Ring.next_eq hi

theorem rxLength_lt : fifo.rxLength < bufsz := by
  have hp := fifo.put_lt
  have hg := fifo.get_lt
  unfold rxLength
  split_ifs <;> omega

theorem place_put : (fifo.getIndex + fifo.rxLength) % bufsz = fifo.putIndex := by
  have hp := fifo.put_lt
  have hg := fifo.get_lt
  rw [Ring.place_eq hg (Nat.le_of_lt rxLength_lt)]
  unfold rxLength
  split_ifs <;> omega

/-- A store adds the byte, and drops the oldest one if there is no place left for it. -/
theorem queue_store (hsz : 2 ≤ bufsz) : (fifo.store hsz ch).queue = (fifo.queue ++ [ch]).rtake (bufsz - 1) := by
  have hp := fifo.put_lt
  have hg := fifo.get_lt
  have hlen : fifo.rxLength < bufsz := rxLength_lt
  have hpush : Ring.contents (Function.update fifo.buffer fifo.putIndex ch) bufsz fifo.getIndex (fifo.rxLength + 1) =
      fifo.queue ++ [ch] := by
    rw [← place_put]
    exact Ring.contents_push hlen ch
  unfold store
  by_cases hfull : nextIndex bufsz fifo.putIndex = fifo.getIndex
  · rw [dif_pos hfull]
    have hall : fifo.rxLength + 1 = bufsz := by
      unfold rxLength
      unfold nextIndex at hfull
      split_ifs at hfull ⊢ <;> omega
    have hdrop : Ring.contents (Function.update fifo.buffer fifo.putIndex ch) bufsz (nextIndex bufsz fifo.getIndex)
        (bufsz - 1) =
        (Ring.contents (Function.update fifo.buffer fifo.putIndex ch) bufsz fifo.getIndex bufsz).drop 1 := by
      rw [nextIndex_eq hg]
      exact Ring.contents_drop
    rw [List.rtake, List.length_append, length_queue, List.length_singleton, hall, ← hpush, hall,
      show bufsz - (bufsz - 1) = 1 by omega, ← hdrop, queue]
    congr 1
    unfold rxLength
    dsimp only
    unfold nextIndex at hfull ⊢
    split_ifs at hfull ⊢ <;> omega
  · rw [dif_neg hfull]
    have hsucc : rxLength (RxFifo.mk (Function.update fifo.buffer fifo.putIndex ch) (nextIndex bufsz fifo.putIndex)
        fifo.getIndex fifo.isFull (nextIndex_lt hsz _) hg fun _ => Ne.symm hfull) = fifo.rxLength + 1 := by
      unfold rxLength
      unfold nextIndex at hfull ⊢
      dsimp only
      split_ifs at hfull ⊢ <;> omega
    have hlt : fifo.rxLength + 1 < bufsz := hsucc ▸ rxLength_lt
    rw [queue, hsucc, List.rtake, List.length_append, length_queue, List.length_singleton,
      show fifo.rxLength + 1 - (bufsz - 1) = 0 by omega, List.drop_zero]
    exact hpush

theorem queue_take (hsz : 2 ≤ bufsz) (h : fifo.take hsz = some (ch, fifo')) : fifo.queue = ch :: fifo'.queue := by
  have hp := fifo.put_lt
  have hg := fifo.get_lt
  unfold take at h
  by_cases hempty : fifo.IsEmpty
  · rw [if_pos hempty] at h
    contradiction
  · rw [if_neg hempty, Option.some.injEq, Prod.mk.injEq] at h
    obtain ⟨rfl, rfl⟩ := h
    have hpos : fifo.rxLength ≠ 0 := fun h0 => hempty ((rxLength_eq_zero fifo).mp h0)
    obtain ⟨n, hn⟩ := Nat.exists_eq_succ_of_ne_zero hpos
    rw [queue, hn, Ring.contents_pop hg, queue, ← nextIndex_eq hg]
    congr 2
    unfold rxLength at hn ⊢
    dsimp only
    unfold nextIndex
    split_ifs at hn ⊢ <;> omega

theorem queue_eq_nil (hsz : 2 ≤ bufsz) (h : fifo.take hsz = none) : fifo.queue = [] := by
  apply List.eq_nil_of_length_eq_zero
  rw [length_queue]
  exact (rxLength_eq_zero fifo).mpr ((take_eq_none hsz fifo).mp h)

theorem serialIntRx_eq (hsz : 2 ≤ bufsz) (length : Nat) : fifo.serialIntRx hsz length = fifo.queue.take length := by
  induction length generalizing fifo with
  | zero => rw [List.take_zero, serialIntRx]
  | succ n ih =>
    cases htake : fifo.take hsz with
    | none => rw [serialIntRx, htake, queue_eq_nil hsz htake, List.take_nil]
    | some x =>
      obtain ⟨ch, fifo'⟩ := x
      rw [serialIntRx, htake, queue_take hsz htake, List.take_succ_cons, ← ih]

end RxFifo

namespace SerialFifos

open Transition

/-! ## The system -/

/-- The FIFO, and the `length` of the call of `_serial_int_rx` that is running. -/
structure FifoState (bufsz : Nat) where
  fifo : RxFifo bufsz
  length : Option Nat

/-- The interrupt stores a byte; `_serial_int_rx` is called; the loop of the running call makes one pass, or ends. -/
inductive FifoAction where
  | rxInd (ch : UInt8)
  | read (length : Nat)
  | pass

variable {bufsz : Nat}

/-- One step, with the byte that is stored at `data`. -/
def fifoStep (hsz : 2 ≤ bufsz) (s : FifoState bufsz) : FifoAction → Option (FifoState bufsz × Option UInt8)
  | .rxInd ch => some ({ s with fifo := s.fifo.store hsz ch }, none)
  | .read length => if s.length = none then some ({ s with length := some length }, none) else none
  | .pass =>
    match s.length with
    | none => none
    | some 0 => some ({ s with length := none }, none)
    | some (length + 1) =>
      match s.fifo.take hsz with
      | none => some ({ s with length := none }, none)
      | some (ch, fifo) => some (⟨fifo, some length⟩, some ch)

/-- The device behind `rt_serial_open`. -/
def serialFifo (hsz : 2 ≤ bufsz) : System (FifoState bufsz) FifoAction where
  init s := s = ⟨.init hsz, none⟩
  step s a := (fifoStep hsz s a).map Prod.fst

/-- The byte that a step delivers. -/
def delivery (hsz : 2 ≤ bufsz) (s : FifoState bufsz) (a : FifoAction) : Option UInt8 :=
  (fifoStep hsz s a).bind Prod.snd

/-- The received bytes. -/
def received : History (FifoState bufsz) FifoAction → List UInt8
  | [] => []
  | (_, .rxInd ch) :: h => received h ++ [ch]
  | (_, .read _) :: h => received h
  | (_, .pass) :: h => received h

/-- The bytes that the calls have stored at `data`. -/
def delivered (hsz : 2 ≤ bufsz) : History (FifoState bufsz) FifoAction → List UInt8
  | [] => []
  | (s, a) :: h => delivered hsz h ++ (delivery hsz s a).toList

/-- The arrival numbers of these bytes: a byte is taken before the ones that stay in the FIFO, which have come last. -/
def arrivals (hsz : 2 ≤ bufsz) : History (FifoState bufsz) FifoAction → List Nat
  | [] => []
  | (s, a) :: h =>
    arrivals hsz h ++ (delivery hsz s a).toList.map fun _ => (received h).length - s.fifo.rxLength

/-- How many bytes have arrived behind the last delivered one. -/
def undelivered (hsz : 2 ≤ bufsz) (h : History (FifoState bufsz) FifoAction) : Nat :=
  (received h).length - ((arrivals hsz h).getLast?.elim 0 (· + 1))

/-! ## The proof -/

section lemmas

variable {hsz : 2 ≤ bufsz} {s s' : FifoState bufsz} {a : FifoAction} {h : History (FifoState bufsz) FifoAction}

theorem rtake_rtake {α : Type} (l : List α) (m n : Nat) : (l.rtake m).rtake n = l.rtake (min m n) := by
  unfold List.rtake
  rw [List.drop_drop, List.length_drop]
  congr 1
  omega

theorem rtake_push {α : Type} (l : List α) (x : α) (u : Nat) {c : Nat} (hc : 1 ≤ c) :
    (l.rtake (min u c) ++ [x]).rtake c = (l ++ [x]).rtake (min (u + 1) c) := by
  obtain ⟨c, rfl⟩ := Nat.exists_eq_add_of_le' hc
  have hmin : min (u + 1) (c + 1) = min u c + 1 := by omega
  rw [List.rtake_concat_succ, rtake_rtake, hmin, List.rtake_concat_succ]
  congr 2
  omega

/-- What a step does to the FIFO. -/
inductive FifoEffect (hsz : 2 ≤ bufsz) (s : FifoState bufsz) : FifoAction → FifoState bufsz → Option UInt8 → Prop where
  | rxInd (ch : UInt8) (length : Option Nat) : FifoEffect hsz s (.rxInd ch) ⟨s.fifo.store hsz ch, length⟩ none
  | read (n : Nat) (length : Option Nat) : FifoEffect hsz s (.read n) ⟨s.fifo, length⟩ none
  | quit (length : Option Nat) : FifoEffect hsz s .pass ⟨s.fifo, length⟩ none
  | pass (ch : UInt8) (fifo : RxFifo bufsz) (length : Option Nat) (htake : s.fifo.take hsz = some (ch, fifo)) :
      FifoEffect hsz s .pass ⟨fifo, length⟩ (some ch)

theorem fifoStep_effect (hs : (serialFifo hsz).step s a = some s') : FifoEffect hsz s a s' (delivery hsz s a) := by
  obtain ⟨⟨t, out⟩, hstep, rfl⟩ := Option.map_eq_some_iff.mp hs
  rw [delivery, hstep, Option.bind_some]
  cases a with
  | rxInd ch =>
    obtain ⟨rfl, rfl⟩ := Prod.mk.inj (Option.some.inj hstep)
    exact .rxInd ch s.length
  | read n =>
    unfold fifoStep at hstep
    obtain ⟨-, hstep⟩ := Option.ite_none_right_eq_some.mp hstep
    obtain ⟨rfl, rfl⟩ := Prod.mk.inj (Option.some.inj hstep)
    exact .read n (some n)
  | pass =>
    rcases hlength : s.length with _ | _ | n <;> simp only [fifoStep, hlength] at hstep
    · contradiction
    · obtain ⟨rfl, rfl⟩ := Prod.mk.inj (Option.some.inj hstep)
      exact .quit none
    cases htake : s.fifo.take hsz with
    | none =>
      simp only [htake] at hstep
      obtain ⟨rfl, rfl⟩ := Prod.mk.inj (Option.some.inj hstep)
      exact .quit none
    | some x =>
      simp only [htake] at hstep
      obtain ⟨rfl, rfl⟩ := Prod.mk.inj (Option.some.inj hstep)
      exact .pass x.1 x.2 (some n) htake

/-- The delivered bytes have increasing arrival numbers, and the FIFO holds the last bytes behind them. -/
structure Delivers (hsz : 2 ≤ bufsz) (h : History (FifoState bufsz) FifoAction) (s : FifoState bufsz) : Prop where
  increasing : (arrivals hsz h).Pairwise (· < ·)
  before : ∀ i ∈ arrivals hsz h, i < (arrivals hsz h).getLast?.elim 0 (· + 1)
  bound : (arrivals hsz h).getLast?.elim 0 (· + 1) ≤ (received h).length
  bytes : (delivered hsz h).map some = (arrivals hsz h).map fun i => (received h)[i]?
  readable : s.fifo.queue = (received h).rtake (min (undelivered hsz h) (bufsz - 1))

theorem delivers_init : Delivers hsz [] ⟨.init hsz, none⟩ where
  increasing := .nil
  before := fun _ hi => absurd hi List.not_mem_nil
  bound := Nat.le_refl 0
  bytes := rfl
  readable := rfl

theorem Delivers.idle (hd : Delivers hsz h s) (hfifo : s'.fifo = s.fifo) (hnone : delivery hsz s a = none)
    (hrec : received ((s, a) :: h) = received h) : Delivers hsz ((s, a) :: h) s' := by
  have harr : arrivals hsz ((s, a) :: h) = arrivals hsz h := by
    rw [arrivals, hnone, Option.toList_none, List.map_nil, List.append_nil]
  have hdel : delivered hsz ((s, a) :: h) = delivered hsz h := by
    rw [delivered, hnone, Option.toList_none, List.append_nil]
  obtain ⟨hinc, hbefore, hbound, hbytes, hread⟩ := hd
  refine ⟨?_, ?_, ?_, ?_, ?_⟩
  · rwa [harr]
  · rwa [harr]
  · rwa [harr, hrec]
  · rwa [harr, hdel, hrec]
  · rwa [hfifo, undelivered, harr, hrec]

theorem Delivers.store (hd : Delivers hsz h s) (ch : UInt8) (hfifo : s'.fifo = s.fifo.store hsz ch)
    (hnone : delivery hsz s (.rxInd ch) = none) : Delivers hsz ((s, .rxInd ch) :: h) s' := by
  have harr : arrivals hsz ((s, .rxInd ch) :: h) = arrivals hsz h := by
    rw [arrivals, hnone, Option.toList_none, List.map_nil, List.append_nil]
  have hdel : delivered hsz ((s, .rxInd ch) :: h) = delivered hsz h := by
    rw [delivered, hnone, Option.toList_none, List.append_nil]
  have hrec : received ((s, .rxInd ch) :: h) = received h ++ [ch] := rfl
  have hbound := hd.bound
  refine ⟨?_, ?_, ?_, ?_, ?_⟩
  · rw [harr]
    exact hd.increasing
  · rw [harr]
    exact hd.before
  · rw [harr, hrec, List.length_append]
    omega
  · rw [harr, hdel, hrec, hd.bytes]
    refine List.map_congr_left fun i hi => ?_
    have := hd.before i hi
    rw [List.getElem?_append_left (by omega)]
  · have hund : undelivered hsz ((s, .rxInd ch) :: h) = undelivered hsz h + 1 := by
      unfold undelivered
      rw [harr, hrec, List.length_append, List.length_singleton]
      omega
    rw [hfifo, RxFifo.queue_store, hd.readable, rtake_push _ _ _ (by omega), hund, hrec]

theorem Delivers.take (hd : Delivers hsz h s) {ch : UInt8} (htake : s.fifo.take hsz = some (ch, s'.fifo))
    (hsome : delivery hsz s .pass = some ch) : Delivers hsz ((s, .pass) :: h) s' := by
  have hrec : received ((s, .pass) :: h) = received h := rfl
  have hqueue := RxFifo.queue_take hsz htake
  have hlen : s.fifo.rxLength = s'.fifo.queue.length + 1 := by
    rw [← RxFifo.length_queue, hqueue, List.length_cons]
  have harr : arrivals hsz ((s, .pass) :: h) = arrivals hsz h ++ [(received h).length - s.fifo.rxLength] := by
    rw [arrivals, hsome, Option.toList_some, List.map_singleton]
  have hread := hd.readable
  have hund : (received h).length - undelivered hsz h = (arrivals hsz h).getLast?.elim 0 (· + 1) := by
    have := hd.bound
    unfold undelivered
    omega
  have hle : s.fifo.rxLength ≤ undelivered hsz h ∧ s.fifo.rxLength ≤ bufsz - 1 ∧
      min (undelivered hsz h) (bufsz - 1) = s.fifo.rxLength := by
    have hlength := congrArg List.length hread
    rw [RxFifo.length_queue, List.rtake, List.length_drop] at hlength
    have : undelivered hsz h ≤ (received h).length := Nat.sub_le _ _
    omega
  rw [hle.2.2, List.rtake, hqueue] at hread
  have hpos : (received h).length - s.fifo.rxLength < (received h).length := by
    have : undelivered hsz h ≤ (received h).length := Nat.sub_le _ _
    omega
  rw [List.drop_eq_getElem_cons hpos, List.cons.injEq] at hread
  have hlast : (arrivals hsz ((s, .pass) :: h)).getLast?.elim 0 (· + 1) =
      (received h).length - s.fifo.rxLength + 1 := by
    rw [harr, List.getLast?_concat, Option.elim_some]
  refine ⟨?_, ?_, ?_, ?_, ?_⟩
  · rw [harr, List.pairwise_append]
    refine ⟨hd.increasing, List.pairwise_singleton _ _, fun i hi j hj => ?_⟩
    obtain rfl := List.mem_singleton.mp hj
    have := hd.before i hi
    omega
  · intro i hi
    rw [hlast]
    rw [harr] at hi
    rcases List.mem_append.mp hi with hi | hi
    · have := hd.before i hi
      omega
    · obtain rfl := List.mem_singleton.mp hi
      omega
  · rw [hlast, hrec]
    omega
  · rw [harr, delivered, hsome, hrec, Option.toList_some, List.map_append, List.map_append, hd.bytes,
      List.map_singleton, List.map_singleton, List.getElem?_eq_getElem hpos, hread.1]
  · rw [undelivered, hlast, hrec, hread.2, List.rtake]
    congr 1
    omega

theorem delivers (hrun : (serialFifo hsz).Run h s) : Delivers hsz h s := by
  induction hrun with
  | init hs =>
    obtain rfl := hs
    exact delivers_init
  | step _ hs ih =>
    have heffect := fifoStep_effect hs
    generalize hout : delivery hsz _ _ = out at heffect
    cases heffect with
    | rxInd ch length => exact ih.store ch rfl hout
    | read n length => exact ih.idle rfl hout rfl
    | quit length => exact ih.idle rfl hout rfl
    | pass ch fifo length htake => exact ih.take htake hout

end lemmas

/-! ## The delivered and the readable bytes -/

section delivery

/-- A byte that is overtaken by a delivered one is lost: of three bytes in a FIFO of three places the first one is
dropped, the second one is read, and then there is one byte to read, although two have not been delivered. -/
theorem dropped_byte_stays_undelivered : ∃ h s, (serialFifo (show 2 ≤ 3 by decide)).Run h s ∧
    received h = [1, 2, 3] ∧ delivered (show 2 ≤ 3 by decide) h = [2] ∧
    s.fifo.serialIntRx (by decide) 3 = [3] ∧
    s.fifo.serialIntRx (by decide) 3 ≠
      (received h).rtake (min ((received h).length - (delivered (show 2 ≤ 3 by decide) h).length) (3 - 1)) :=
  System.exists_run rfl [.rxInd 1, .rxInd 2, .rxInd 3, .read 1, .pass] _ (by decide +kernel)

/-- In every run the delivered bytes have increasing arrival numbers, and a read of any length obtains the last
`min (undelivered h) (bufsz - 1)` received bytes, from the oldest on. -/
theorem fifo_delivers_newest (hsz : 2 ≤ bufsz) {h : History (FifoState bufsz) FifoAction} {s : FifoState bufsz}
    (hrun : (serialFifo hsz).Run h s) : (arrivals hsz h).Pairwise (· < ·) ∧
    (delivered hsz h).map some = ((arrivals hsz h).map fun i => (received h)[i]?) ∧ ∀ length,
      s.fifo.serialIntRx hsz length =
        ((received h).rtake (min (undelivered hsz h) (bufsz - 1))).take length := by
  have hd := delivers hrun
  refine ⟨hd.increasing, hd.bytes, fun length => ?_⟩
  rw [RxFifo.serialIntRx_eq, hd.readable]

/-- Between the two bytes of a read the interrupt drops the oldest one. -/
theorem fifo_delivers_newest_run : ∃ h s, (serialFifo (show 2 ≤ 3 by decide)).Run h s ∧
    arrivals (show 2 ≤ 3 by decide) h = [0, 2] ∧ s.fifo.serialIntRx (by decide) 3 = [4] ∧
    (arrivals (show 2 ≤ 3 by decide) h).Pairwise (· < ·) := by
  obtain ⟨h, s, hrun, harr, hrec, hund⟩ := System.exists_run (S := serialFifo (show 2 ≤ 3 by decide)) rfl
    [.rxInd 1, .read 2, .pass, .rxInd 2, .rxInd 3, .rxInd 4, .pass]
    (fun h _ => arrivals (show 2 ≤ 3 by decide) h = [0, 2] ∧ received h = [1, 2, 3, 4] ∧
      undelivered (show 2 ≤ 3 by decide) h = 1) (by decide +kernel)
  obtain ⟨hinc, -, hread⟩ := fifo_delivers_newest (by decide) hrun
  refine ⟨h, s, hrun, harr, ?_, hinc⟩
  rw [hread 3, hrec, hund]
  decide

end delivery

end SerialFifos

end ThyristorController
