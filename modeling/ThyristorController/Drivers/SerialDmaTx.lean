import ThyristorController.Drivers.DataQueue

/-!
# Transmission by DMA (`components/drivers/serial/serial.c`)

Any number of threads call `_serial_dma_tx`: a block goes into the data queue, and then, in another critical section,
the thread tests and sets `activated` and starts the DMA with its own block if the flag was clear. The interrupt
`RT_SERIAL_EVENT_TX_DMADONE` takes a block out of the queue and starts the DMA with the next one.

No block stays queued when nothing goes on. But the block that a thread finds itself to start with need not be the first
one in the queue any more, or yet: `blocks_transmitted` says in which runs the blocks are transmitted once and in order.
-/

namespace ThyristorController.SerialDmaTx

open Transition DataQueues

/-! ## The functions -/

/-- Where a thread is in `_serial_dma_tx`: in none or in `rt_data_queue_push`, before the test of `activated`, or before
`dma_transmit`. -/
inductive TxPc (δ : Type) where
  | out
  | test (block : δ)
  | transmit (block : δ)

variable {τ δ : Type}

def TxPc.isOut : TxPc δ → Bool
  | .out => true
  | _ => false

/-- `struct rt_serial_tx_dma`, and the DMA channel, which is `busy` from `dma_transmit` up to the interrupt. A thread is
a caller of the data queue, and so is the interrupt. `transmitted` are the blocks that `dma_transmit` has been given. -/
structure DmaTx (τ δ : Type) where
  dataQueue : DataQueue (Option τ) δ
  activated : Bool
  busy : Bool
  pc : τ → TxPc δ
  transmitted : List δ

variable [DecidableEq τ]

/-- The size of the data queue. -/
def txSize : Nat := 8

/-- Its low-water mark. -/
def txLwm : Nat := 4

namespace DmaTx

def setPc (s : DmaTx τ δ) (t : τ) (pc : TxPc δ) : DmaTx τ δ := { s with pc := Function.update s.pc t pc }

/-- A critical section of `rt_data_queue_push`, which returns if there is room. -/
def push (s : DmaTx τ δ) (t : τ) (block : δ) : DmaTx τ δ :=
  { s with
    dataQueue := s.dataQueue.push txSize (some t) block (-1)
    pc := Function.update s.pc t (if s.dataQueue.ring.isFull then .out else .test block) }

/-- The critical section behind the push. -/
def test (s : DmaTx τ δ) (t : τ) (block : δ) : DmaTx τ δ :=
  if s.activated = true then s.setPc t .out else { s.setPc t (.transmit block) with activated := true }

/-- `dma_transmit`. -/
def dmaTransmit (s : DmaTx τ δ) (block : δ) : DmaTx τ δ :=
  { s with busy := true, transmitted := s.transmitted ++ [block] }

/-- `RT_SERIAL_EVENT_TX_DMADONE`. -/
def txDmaDone (s : DmaTx τ δ) : DmaTx τ δ :=
  let s := { s with busy := false, dataQueue := s.dataQueue.pop txSize txLwm none 0 }
  match s.dataQueue.ring.peek with
  | some block => { s with activated := true }.dmaTransmit block
  | none => { s with activated := false }

end DmaTx

inductive TxAction (τ δ : Type) where
  | write (t : τ) (block : δ)
  | goOn (t : τ)
  | test (t : τ)
  | transmit (t : τ)
  | done
  deriving DecidableEq

/-- A thread whose push has been suspended goes on when the interrupt has resumed it. -/
def txStep (s : DmaTx τ δ) : TxAction τ δ → Option (DmaTx τ δ)
  | .write t block => if (s.pc t).isOut ∧ s.dataQueue.idle (some t) then some (s.push t block) else none
  | .goOn t =>
    if some t ∈ s.dataQueue.suspendedPushList then none
    else
      match s.dataQueue.pc (some t) with
      | .push block _ =>
        some (if s.dataQueue.error (some t) = rtEok then s.push t block
          else { s with dataQueue := s.dataQueue.leave (some t) })
      | _ => none
  | .test t =>
    match s.pc t with
    | .test block => some (s.test t block)
    | _ => none
  | .transmit t =>
    match s.pc t with
    | .transmit block => some ((s.setPc t .out).dmaTransmit block)
    | _ => none
  | .done => if s.busy then some s.txDmaDone else none

/-- Behind `rt_serial_open`. -/
def dmaTx (τ δ : Type) [DecidableEq τ] : System (DmaTx τ δ) (TxAction τ δ) where
  init s := (dataQueues (Option τ) δ txSize txLwm).init s.dataQueue ∧ s.activated = false ∧ s.busy = false ∧
    (∀ t, (s.pc t).isOut = true) ∧ s.transmitted = []
  step := txStep

/-- The block that a thread is to start with is the first one in the queue. -/
def TxPc.first (queued : Option δ) : TxPc δ → Prop
  | .transmit block => queued = some block
  | _ => True

/-- A thread that calls `dma_transmit` has the first block of the queue. -/
def Proper (s : DmaTx τ δ) : TxAction τ δ → Prop
  | .transmit t => (s.pc t).first s.dataQueue.ring.peek
  | _ => True

/-- No thread is in `_serial_dma_tx`, and the channel is idle. -/
def Idle (s : DmaTx τ δ) : Prop :=
  s.busy = false ∧ ∀ t, (s.pc t).isOut = true ∧ s.dataQueue.idle (some t) = true

section steps

variable {s s' : DmaTx τ δ} {t u : τ} {a : TxAction τ δ} {block : δ} {pc : TxPc δ}
  {h : History (DmaTx τ δ) (TxAction τ δ)}

@[simp] theorem setPc_dataQueue : (s.setPc t pc).dataQueue = s.dataQueue := rfl

@[simp] theorem setPc_activated : (s.setPc t pc).activated = s.activated := rfl

@[simp] theorem setPc_busy : (s.setPc t pc).busy = s.busy := rfl

@[simp] theorem setPc_self : (s.setPc t pc).pc t = pc := Function.update_self ..

theorem setPc_ne (hne : u ≠ t) : (s.setPc t pc).pc u = s.pc u := Function.update_of_ne hne _ _

theorem goOn_step (hstep : txStep s (.goOn t) = some s') : s.dataQueue.idle (some t) = false ∧
    ((∃ block, s' = s.push t block) ∨ s' = { s with dataQueue := s.dataQueue.leave (some t) }) := by
  obtain ⟨_, hstep⟩ := Option.ite_none_left_eq_some.mp hstep
  split at hstep
  · rename_i block _ hpc
    obtain rfl := Option.some.inj hstep
    refine ⟨by simp only [DataQueue.idle, hpc], ?_⟩
    split_ifs
    · exact .inl ⟨block, rfl⟩
    · exact .inr rfl
  · cases hstep

theorem test_step (hstep : txStep s (.test t) = some s') :
    ∃ block, s.pc t = .test block ∧ s' = s.test t block := by
  simp only [txStep] at hstep
  split at hstep
  · rename_i block hpc
    exact ⟨block, hpc, (Option.some.inj hstep).symm⟩
  · cases hstep

theorem transmit_step (hstep : txStep s (.transmit t) = some s') :
    ∃ block, s.pc t = .transmit block ∧ s' = (s.setPc t .out).dmaTransmit block := by
  simp only [txStep] at hstep
  split at hstep
  · rename_i block hpc
    exact ⟨block, hpc, (Option.some.inj hstep).symm⟩
  · cases hstep

/-! ### Nothing stays queued -/

/-- What the flag stands for. A thread that waits in the push has no block that it is to start with. -/
structure Flags (s : DmaTx τ δ) : Prop where
  busy : s.busy = true → s.activated = true
  transmit : ∀ t block, s.pc t = .transmit block → s.activated = true ∧ s.busy = false
  unique : ∀ t u b b', s.pc t = .transmit b → s.pc u = .transmit b' → t = u
  idle : s.activated = false → s.dataQueue.ring.isEmpty = true ∨ ∃ t block, s.pc t = .test block
  active : s.activated = true → s.busy = true ∨ ∃ t block, s.pc t = .transmit block
  waiting : ∀ t, s.dataQueue.idle (some t) = false → (s.pc t).isOut = true

theorem Flags.push (hs : Flags s) (hout : (s.pc t).isOut = true) : Flags (s.push t block) := by
  have hself : (s.push t block).pc t = if s.dataQueue.ring.isFull then .out else .test block :=
    Function.update_self ..
  have hne : ∀ u, u ≠ t → (s.push t block).pc u = s.pc u := fun u hu => Function.update_of_ne hu _ _
  have hnot : ∀ b, (s.push t block).pc t ≠ .transmit b := by
    intro b hb
    rw [hself] at hb
    split_ifs at hb
  have hbefore : ∀ u b, (s.push t block).pc u = .transmit b → s.pc u = .transmit b := by
    intro u b hu
    by_cases heq : u = t
    · subst heq
      exact absurd hu (hnot b)
    · rwa [hne u heq] at hu
  -- A thread that has a block is another one.
  have hother : ∀ u pc', s.pc u = pc' → pc'.isOut = false → u ≠ t := by
    rintro u _ rfl hpc rfl
    rw [hout] at hpc
    cases hpc
  constructor
  · exact hs.busy
  · exact fun u b hu => hs.transmit u b (hbefore u b hu)
  · exact fun u v b b' hu hv => hs.unique u v b b' (hbefore u b hu) (hbefore v b' hv)
  · intro hact
    cases hfull : s.dataQueue.ring.isFull with
    | false =>
      right
      refine ⟨t, block, ?_⟩
      rw [hself, hfull]
      rfl
    | true =>
      rcases hs.idle hact with hempty | ⟨u, b, hu⟩
      · left
        have hring := (@push_full δ (Option τ) _ txSize block s.dataQueue (some t) (-1) hfull).1
        show (s.dataQueue.push txSize (some t) block (-1)).ring.isEmpty = true
        rw [hring]
        exact hempty
      · exact .inr ⟨u, b, (hne u (hother u _ hu rfl)).trans hu⟩
  · intro hact
    rcases hs.active hact with hbusy | ⟨u, b, hu⟩
    · exact .inl hbusy
    · exact .inr ⟨u, b, (hne u (hother u _ hu rfl)).trans hu⟩
  · intro u hu
    by_cases heq : u = t
    · subst heq
      rw [hself]
      cases hfull : s.dataQueue.ring.isFull with
      | true => rfl
      | false =>
        have hidle : (s.push u block).dataQueue.idle (some u) = true := push_idle hfull
        rw [hidle] at hu
        cases hu
    · rw [hne u heq]
      refine hs.waiting u ?_
      have hpc : (s.push t block).dataQueue.pc (some u) = s.dataQueue.pc (some u) :=
        push_pc fun h => heq (Option.some.inj h)
      simpa only [DataQueue.idle, hpc] using hu

theorem Flags.leave (hs : Flags s) (hout : (s.pc t).isOut = true) :
    Flags { s with dataQueue := s.dataQueue.leave (some t) } where
  busy := hs.busy
  transmit := hs.transmit
  unique := hs.unique
  idle := hs.idle
  active := hs.active
  waiting u hu := by
    by_cases heq : u = t
    · rw [heq]
      exact hout
    · refine hs.waiting u ?_
      have hpc : (s.dataQueue.leave (some t)).pc (some u) = s.dataQueue.pc (some u) :=
        Function.update_of_ne (fun h => heq (Option.some.inj h)) _ _
      simpa only [DataQueue.idle, hpc] using hu

omit [DecidableEq τ] in
theorem Flags.not_waiting (hs : Flags s) (hpc : (s.pc t).isOut = false) : s.dataQueue.idle (some t) = true := by
  cases hidle : s.dataQueue.idle (some t) with
  | true => rfl
  | false =>
    rw [hs.waiting t hidle] at hpc
    cases hpc

theorem Flags.test (hs : Flags s) (hpc : s.pc t = .test block) : Flags (s.test t block) := by
  have hwaiting : s.dataQueue.idle (some t) = true := hs.not_waiting (by rw [hpc]; rfl)
  have hother : ∀ u b, s.pc u = .transmit b → u ≠ t := by
    rintro u b hu rfl
    rw [hpc] at hu
    cases hu
  have hstill : ∀ pc' u, s.dataQueue.idle (some u) = false → ((s.setPc t pc').pc u).isOut = true := by
    intro pc' u hu
    by_cases heq : u = t
    · rw [heq, hwaiting] at hu
      cases hu
    · rw [setPc_ne heq]
      exact hs.waiting u hu
  unfold DmaTx.test
  cases hact : s.activated with
  | true =>
    rw [if_pos rfl]
    have hbefore : ∀ u b, (s.setPc t .out).pc u = .transmit b → s.pc u = .transmit b := by
      intro u b hu
      by_cases heq : u = t
      · rw [heq, setPc_self] at hu
        cases hu
      · rwa [setPc_ne heq] at hu
    constructor
    · exact hs.busy
    · exact fun u b hu => hs.transmit u b (hbefore u b hu)
    · exact fun u v b b' hu hv => hs.unique u v b b' (hbefore u b hu) (hbefore v b' hv)
    · intro hnot
      have hnot' : s.activated = false := hnot
      rw [hact] at hnot'
      cases hnot'
    · intro _
      rcases hs.active hact with hbusy | ⟨u, b, hu⟩
      · exact .inl hbusy
      · exact .inr ⟨u, b, (setPc_ne (hother u b hu)).trans hu⟩
    · exact hstill .out
  | false =>
    rw [if_neg (by simp)]
    have hbusy : s.busy = false := by
      rw [Bool.eq_false_iff]
      intro hbusy
      have := hs.busy hbusy
      rw [hact] at this
      cases this
    have honly : ∀ u b, (s.setPc t (.transmit block)).pc u = .transmit b → u = t := by
      intro u b hu
      by_contra hne
      rw [setPc_ne hne] at hu
      have := (hs.transmit u b hu).1
      rw [hact] at this
      cases this
    constructor
    · exact fun _ => rfl
    · exact fun _ _ _ => ⟨rfl, hbusy⟩
    · exact fun u v b b' hu hv => (honly u b hu).trans (honly v b' hv).symm
    · exact fun hnot => by cases hnot
    · exact fun _ => .inr ⟨t, block, setPc_self⟩
    · exact hstill (.transmit block)

theorem Flags.transmitted (hs : Flags s) (hpc : s.pc t = .transmit block) :
    Flags ((s.setPc t .out).dmaTransmit block) := by
  have hact := (hs.transmit t block hpc).1
  have hnone : ∀ u b, (s.setPc t .out).pc u ≠ .transmit b := by
    intro u b hu
    by_cases heq : u = t
    · rw [heq, setPc_self] at hu
      cases hu
    · rw [setPc_ne heq] at hu
      exact heq (hs.unique u t b block hu hpc)
  constructor
  · exact fun _ => hact
  · exact fun u b hu => absurd hu (hnone u b)
  · exact fun u _ b _ hu _ => absurd hu (hnone u b)
  · intro hnot
    have hnot' : s.activated = false := hnot
    rw [hact] at hnot'
    cases hnot'
  · exact fun _ => .inl rfl
  · intro u hu
    show ((s.setPc t .out).pc u).isOut = true
    by_cases heq : u = t
    · rw [heq, setPc_self]
      rfl
    · rw [setPc_ne heq]
      exact hs.waiting u hu

theorem txDmaDone_eq (s : DmaTx τ δ) : s.txDmaDone =
    match (s.dataQueue.pop txSize txLwm none 0).ring.peek with
    | some block => { s with dataQueue := s.dataQueue.pop txSize txLwm none 0, activated := true, busy := true,
                             transmitted := s.transmitted ++ [block] }
    | none => { s with dataQueue := s.dataQueue.pop txSize txLwm none 0, activated := false, busy := false } := rfl

theorem Flags.done (hs : Flags s) (hbusy : s.busy = true) : Flags s.txDmaDone := by
  have hnone : ∀ u b, s.pc u ≠ .transmit b := by
    intro u b hu
    have := (hs.transmit u b hu).2
    rw [hbusy] at this
    cases this
  have hwaiting : ∀ u, (s.dataQueue.pop txSize txLwm none 0).idle (some u) = false → (s.pc u).isOut = true := by
    intro u hu
    have hpc : (s.dataQueue.pop txSize txLwm none 0).pc (some u) = s.dataQueue.pc (some u) := pop_pc (by simp)
    refine hs.waiting u ?_
    simpa only [DataQueue.idle, hpc] using hu
  rw [txDmaDone_eq]
  cases hpeek : (s.dataQueue.pop txSize txLwm none 0).ring.peek with
  | some b =>
    exact ⟨fun _ => rfl, fun u b hu => absurd hu (hnone u b), fun u _ b _ hu _ => absurd hu (hnone u b),
      fun hnot => Bool.noConfusion hnot, fun _ => .inl rfl, hwaiting⟩
  | none =>
    have hempty : (s.dataQueue.pop txSize txLwm none 0).ring.isEmpty = true := by
      by_contra hnot
      rw [DataRing.peek, if_neg hnot] at hpeek
      cases hpeek
    exact ⟨fun hset => Bool.noConfusion hset, fun u b hu => absurd hu (hnone u b),
      fun u _ b _ hu _ => absurd hu (hnone u b), fun _ => .inl hempty, fun hset => Bool.noConfusion hset, hwaiting⟩

theorem step_flags (hs : Flags s) (hstep : txStep s a = some s') : Flags s' := by
  cases a with
  | write t block =>
    obtain ⟨⟨hout, _⟩, hstep⟩ := Option.ite_none_right_eq_some.mp hstep
    obtain rfl := Option.some.inj hstep
    exact hs.push hout
  | goOn t =>
    obtain ⟨hwaits, ⟨block, rfl⟩ | rfl⟩ := goOn_step hstep
    · exact hs.push (hs.waiting t hwaits)
    · exact hs.leave (hs.waiting t hwaits)
  | test t =>
    obtain ⟨block, hpc, rfl⟩ := test_step hstep
    exact hs.test hpc
  | transmit t =>
    obtain ⟨block, hpc, rfl⟩ := transmit_step hstep
    exact hs.transmitted hpc
  | done =>
    obtain ⟨hbusy, hstep⟩ := Option.ite_none_right_eq_some.mp hstep
    obtain rfl := Option.some.inj hstep
    exact hs.done hbusy

theorem init_flags (hs : (dmaTx τ δ).init s) : Flags s := by
  obtain ⟨⟨-, -, hempty, -, -, -, -, -, -, -⟩, hact, hbusy, hout, -⟩ := hs
  have hnone : ∀ u b, s.pc u ≠ .transmit b := by
    intro u b hu
    have := hout u
    rw [hu] at this
    cases this
  constructor
  · rw [hbusy]
    exact fun h => by cases h
  · exact fun u b hu => absurd hu (hnone u b)
  · exact fun u _ b _ hu _ => absurd hu (hnone u b)
  · exact fun _ => .inl hempty
  · rw [hact]
    exact fun h => by cases h
  · exact fun u _ => hout u

omit [DecidableEq τ] in
theorem Flags.empty (hs : Flags s) (hidle : Idle s) : s.dataQueue.ring.isEmpty = true := by
  cases hact : s.activated with
  | false =>
    rcases hs.idle hact with hempty | ⟨t, block, ht⟩
    · exact hempty
    · have hout := (hidle.2 t).1
      rw [ht] at hout
      cases hout
  | true =>
    rcases hs.active hact with hbusy | ⟨t, block, ht⟩
    · rw [hidle.1] at hbusy
      cases hbusy
    · have hout := (hidle.2 t).1
      rw [ht] at hout
      cases hout

/-! ### The blocks are transmitted in order -/

/-- The blocks that have been transmitted are the ones that the interrupt has taken out of the queue and, while the
channel is busy, the first one in the queue. -/
def Tracks (s : DmaTx τ δ) : Prop :=
  ∃ l, Holds txSize s.dataQueue.ring l ∧ s.dataQueue.popped ++ l = s.dataQueue.pushed ∧
    s.transmitted = s.dataQueue.popped ++ (if s.busy then l.take 1 else []) ∧ (s.busy = true → l ≠ [])

omit [DecidableEq τ] in
theorem Tracks.same (hs : Tracks s) (hring : s'.dataQueue.ring = s.dataQueue.ring)
    (hpushed : s'.dataQueue.pushed = s.dataQueue.pushed) (hpopped : s'.dataQueue.popped = s.dataQueue.popped)
    (hbusy : s'.busy = s.busy) (htransmitted : s'.transmitted = s.transmitted) : Tracks s' := by
  unfold Tracks
  rw [hring, hpushed, hpopped, hbusy, htransmitted]
  exact hs

theorem Tracks.push (hs : Tracks s) : Tracks (s.push t block) := by
  cases hfull : s.dataQueue.ring.isFull with
  | true =>
    obtain ⟨hring, hpushed, hpopped⟩ := @push_full δ (Option τ) _ txSize block s.dataQueue (some t) (-1) hfull
    exact hs.same hring hpushed hpopped rfl rfl
  | false =>
    obtain ⟨hring, hpushed, hpopped⟩ := @push_room δ (Option τ) _ txSize block s.dataQueue (some t) (-1) hfull
    obtain ⟨l, hl, hlist, htransmitted, hbusy⟩ := hs
    have hring' : (s.push t block).dataQueue.ring = s.dataQueue.ring.put txSize block := hring
    have hpushed' : (s.push t block).dataQueue.pushed = s.dataQueue.pushed ++ [block] := hpushed
    have hpopped' : (s.push t block).dataQueue.popped = s.dataQueue.popped := hpopped
    refine ⟨l ++ [block], ?_, ?_, ?_, fun _ => by simp⟩
    · rw [hring']
      exact hl.store (hl.not_full hfull)
    · rw [hpushed', hpopped', ← hlist, List.append_assoc]
    · rw [hpopped']
      refine htransmitted.trans (congrArg (s.dataQueue.popped ++ ·) ?_)
      show (if s.busy then l.take 1 else []) = if s.busy then (l ++ [block]).take 1 else []
      split_ifs with hset
      · cases l with
        | nil => exact absurd rfl (hbusy hset)
        | cons x rest => rfl
      · rfl

omit [DecidableEq τ] in
theorem Tracks.idle_eq (hs : Tracks s) (hbusy : s.busy = false) : s.transmitted = s.dataQueue.popped := by
  obtain ⟨l, -, -, htransmitted, -⟩ := hs
  rw [hbusy] at htransmitted
  exact htransmitted.trans (List.append_nil _)

theorem Tracks.transmit (hs : Tracks s) (hbusy : s.busy = false) (hfirst : s.dataQueue.ring.peek = some block) :
    Tracks ((s.setPc t .out).dmaTransmit block) := by
  have hidle := hs.idle_eq hbusy
  obtain ⟨l, hl, hlist, -, -⟩ := hs
  rw [hl.peek] at hfirst
  cases l with
  | nil => cases hfirst
  | cons x rest =>
    obtain rfl := Option.some.inj hfirst
    refine ⟨x :: rest, hl, hlist, ?_, fun _ => by simp⟩
    exact congrArg (· ++ [x]) hidle

theorem Tracks.done (hs : Tracks s) (hbusy : s.busy = true) : Tracks s.txDmaDone := by
  obtain ⟨l, hl, hlist, htransmitted, hne⟩ := hs
  rw [hbusy, if_pos rfl] at htransmitted
  cases l with
  | nil => exact absurd rfl (hne hbusy)
  | cons x rest =>
    have hempty : s.dataQueue.ring.isEmpty = false := by
      rw [Bool.eq_false_iff]
      intro hempty
      exact absurd (hl.empty.mp hempty) (by simp)
    obtain ⟨hring, hpushed, hpopped⟩ := @pop_item δ (Option τ) _ txSize txLwm s.dataQueue none 0 hempty
    obtain ⟨hfirst, hrest⟩ := hl.fetch
    rw [hfirst] at hpopped
    rw [← hring] at hrest
    have hlist' : (s.dataQueue.pop txSize txLwm none 0).popped ++ rest =
        (s.dataQueue.pop txSize txLwm none 0).pushed := by
      rw [hpopped, hpushed, ← hlist, List.append_assoc]
      rfl
    have hsame : s.transmitted = (s.dataQueue.pop txSize txLwm none 0).popped := htransmitted.trans hpopped.symm
    rw [txDmaDone_eq, hrest.peek]
    cases rest with
    | nil => exact ⟨[], hrest, hlist', hsame.trans (List.append_nil _).symm, fun hset => Bool.noConfusion hset⟩
    | cons y rest => exact ⟨y :: rest, hrest, hlist', congrArg (· ++ [y]) hsame, fun _ => by simp⟩

theorem step_tracks (hs : Tracks s) (hf : Flags s) (hP : Proper s a) (hstep : txStep s a = some s') : Tracks s' := by
  cases a with
  | write t block =>
    obtain ⟨_, hstep⟩ := Option.ite_none_right_eq_some.mp hstep
    obtain rfl := Option.some.inj hstep
    exact hs.push
  | goOn t =>
    obtain ⟨_, ⟨block, rfl⟩ | rfl⟩ := goOn_step hstep
    · exact hs.push
    · exact hs.same rfl rfl rfl rfl rfl
  | test t =>
    obtain ⟨block, _, rfl⟩ := test_step hstep
    unfold DmaTx.test
    split_ifs
    · exact hs.same rfl rfl rfl rfl rfl
    · exact hs.same rfl rfl rfl rfl rfl
  | transmit t =>
    obtain ⟨block, hpc, rfl⟩ := transmit_step hstep
    have hfirst : (s.pc t).first s.dataQueue.ring.peek := hP
    rw [hpc] at hfirst
    exact hs.transmit (hf.transmit t block hpc).2 hfirst
  | done =>
    obtain ⟨hbusy, hstep⟩ := Option.ite_none_right_eq_some.mp hstep
    obtain rfl := Option.some.inj hstep
    exact hs.done hbusy

omit [DecidableEq τ] in
theorem Tracks.orderly (hs : Tracks s) : s.transmitted <+: s.dataQueue.pushed := by
  obtain ⟨l, -, hlist, htransmitted, -⟩ := hs
  rw [htransmitted, ← hlist]
  refine (List.prefix_append_right_inj _).mpr ?_
  split_ifs
  · exact List.take_prefix ..
  · exact List.nil_prefix

/-- If the blocks are still transmitted in order behind the step, the thread has had the first one. -/
theorem proper_of_orderly (hs : Tracks s) (hf : Flags s) (hstep : txStep s a = some s')
    (horderly : s'.transmitted <+: s'.dataQueue.pushed) : Proper s a := by
  cases a with
  | transmit t =>
    obtain ⟨block, hpc, rfl⟩ := transmit_step hstep
    have hidle := hs.idle_eq (hf.transmit t block hpc).2
    obtain ⟨l, hl, hlist, -, -⟩ := hs
    have hprefix : s.dataQueue.popped ++ [block] <+: s.dataQueue.popped ++ l := by
      rw [hlist, ← hidle]
      exact horderly
    obtain ⟨rest, hrest⟩ := (List.prefix_append_right_inj _).mp hprefix
    show (s.pc t).first s.dataQueue.ring.peek
    rw [hpc, hl.peek, ← hrest]
    rfl
  | _ => trivial

theorem init_tracks (hs : (dmaTx τ δ).init s) : Tracks s := by
  have hrun := @run_exact δ (Option τ) _ txSize txLwm s.dataQueue [] (by decide) (.init hs.1)
  obtain ⟨hqueue, -, hbusy, -, htransmitted⟩ := hs
  obtain ⟨-, -, -, -, -, -, -, -, -, hpopped⟩ := hqueue
  obtain ⟨l, hl, hlist⟩ := hrun
  refine ⟨l, hl, hlist, ?_, ?_⟩
  · rw [htransmitted, hpopped, hbusy]
    rfl
  · rw [hbusy]
    exact fun hset => Bool.noConfusion hset

/-! ### A condition on the schedule -/

/-- From the push of a thread up to its `dma_transmit` no other block is pushed, and the interrupt does not come. -/
def Undisturbed (s : DmaTx τ δ) : TxAction τ δ → Prop
  | .write _ _ | .goOn _ | .done => ∀ t, (s.pc t).isOut = true
  | _ => True

/-- At most one thread is behind its push, and the block that it is to start with is the first one in the queue. -/
structure Alone (s : DmaTx τ δ) : Prop where
  one : ∀ t u, (s.pc t).isOut = false → (s.pc u).isOut = false → t = u
  test : ∀ t block, s.pc t = .test block → s.activated = false → s.dataQueue.ring.peek = some block
  transmit : ∀ t block, s.pc t = .transmit block → s.dataQueue.ring.peek = some block

omit [DecidableEq τ] in
theorem alone_of_out (hout : ∀ t, (s.pc t).isOut = true) : Alone s := by
  refine ⟨fun t _ ht => ?_, fun t block ht => ?_, fun t block ht => ?_⟩
  · rw [hout] at ht
    cases ht
  · have h := hout t
    rw [ht] at h
    cases h
  · have h := hout t
    rw [ht] at h
    cases h

theorem Alone.leave (hs : Alone s) (hin : (s.pc t).isOut = false)
    (hpc : s'.pc = Function.update s.pc t .out) : Alone s' := by
  refine alone_of_out fun u => ?_
  by_cases hut : u = t
  · rw [hpc, hut, Function.update_self]
    rfl
  · rw [hpc, Function.update_of_ne hut]
    by_contra hu
    exact hut (hs.one u t (Bool.eq_false_of_not_eq_true hu) hin)

theorem alone_push (htracks : Tracks s) (hf : Flags s) (hout : ∀ t, (s.pc t).isOut = true) :
    Alone (s.push t block) := by
  have hpc (u : τ) : (s.push t block).pc u =
      if u = t then if s.dataQueue.ring.isFull then .out else .test block else s.pc u :=
    Function.update_apply ..
  cases hfull : s.dataQueue.ring.isFull with
  | true =>
    refine alone_of_out fun u => ?_
    rw [hpc, hfull, if_pos rfl]
    by_cases hut : u = t
    · rw [if_pos hut]
      rfl
    · rw [if_neg hut]
      exact hout u
  | false =>
    have hin (u : τ) (hu : ((s.push t block).pc u).isOut = false) : u = t := by
      by_contra hut
      rw [hpc, if_neg hut, hout] at hu
      cases hu
    have hself : (s.push t block).pc t = .test block := by
      rw [hpc, hfull, if_pos rfl]
      rfl
    refine ⟨fun u v hu hv => (hin u hu).trans (hin v hv).symm, fun u b hu hact => ?_, fun u b hu => ?_⟩
    · have hut : u = t := hin u (by rw [hu]; rfl)
      rw [hut, hself] at hu
      obtain rfl := TxPc.test.inj hu
      -- without a thread behind its push, nothing is queued while the flag is clear
      have hempty : s.dataQueue.ring.isEmpty = true := by
        rcases hf.idle hact with hempty | ⟨v, b, hv⟩
        · exact hempty
        · have h := hout v
          rw [hv] at h
          cases h
      obtain ⟨hring, -, -⟩ := @push_room δ (Option τ) _ txSize block s.dataQueue (some t) (-1) hfull
      obtain ⟨l, hl, -⟩ := htracks
      obtain rfl : l = [] := List.length_eq_zero_iff.mp (hl.empty.mp hempty)
      have hstored : Holds txSize (s.push t block).dataQueue.ring [block] := by
        rw [show (s.push t block).dataQueue.ring = s.dataQueue.ring.put txSize block from hring]
        exact hl.store (hl.not_full hfull)
      exact hstored.peek
    · have hut : u = t := hin u (by rw [hu]; rfl)
      rw [hut, hself] at hu
      cases hu

theorem step_alone (htracks : Tracks s) (hf : Flags s) (hs : Alone s) (hU : Undisturbed s a)
    (hstep : txStep s a = some s') : Alone s' := by
  cases a with
  | write t block =>
    obtain ⟨_, hstep⟩ := Option.ite_none_right_eq_some.mp hstep
    obtain rfl := Option.some.inj hstep
    exact alone_push htracks hf hU
  | goOn t =>
    obtain ⟨_, ⟨block, rfl⟩ | rfl⟩ := goOn_step hstep
    · exact alone_push htracks hf hU
    · exact alone_of_out hU
  | test t =>
    obtain ⟨block, hpc, rfl⟩ := test_step hstep
    have hin : (s.pc t).isOut = false := by
      rw [hpc]
      rfl
    unfold DmaTx.test
    split_ifs with hact
    · exact hs.leave hin rfl
    · have hother {u : τ} (hut : u ≠ t) : (s.pc u).isOut = true := by
        by_contra hu
        exact hut (hs.one u t (Bool.eq_false_of_not_eq_true hu) hin)
      have hpc' (u : τ) (hu : (Function.update s.pc t (.transmit block) u).isOut = false) : u = t := by
        by_contra hut
        rw [Function.update_of_ne hut, hother hut] at hu
        cases hu
      refine ⟨fun u v hu hv => (hpc' u hu).trans (hpc' v hv).symm, fun _ _ _ hact' => Bool.noConfusion hact', ?_⟩
      intro u b hu
      have hu' : Function.update s.pc t (.transmit block) u = .transmit b := hu
      have hut : u = t := hpc' u (by rw [hu']; rfl)
      rw [hut, Function.update_self] at hu'
      obtain rfl := TxPc.transmit.inj hu'
      exact hs.test t block hpc (Bool.eq_false_of_not_eq_true hact)
  | transmit t =>
    obtain ⟨block, hpc, rfl⟩ := transmit_step hstep
    refine hs.leave (t := t) ?_ rfl
    rw [hpc]
    rfl
  | done =>
    obtain ⟨-, hstep⟩ := Option.ite_none_right_eq_some.mp hstep
    obtain rfl := Option.some.inj hstep
    refine alone_of_out fun u => ?_
    rw [txDmaDone_eq]
    split
    · exact hU u
    · exact hU u

omit [DecidableEq τ] in
theorem Alone.proper (hs : Alone s) : Proper s a := by
  cases a with
  | transmit t =>
    show (s.pc t).first s.dataQueue.ring.peek
    cases hpc : s.pc t with
    | transmit block => exact hs.transmit t block hpc
    | _ => trivial
  | _ => trivial

/-- If nothing comes between the push of a thread and its `dma_transmit`, each thread has the first block of the queue,
so that the blocks are transmitted in order. -/
theorem proper_of_undisturbed (hrun : (dmaTx τ δ).Run h s) (hU : Throughout (fun _ s a => Undisturbed s a) h) :
    Throughout (fun _ s a => Proper s a) h := by
  refine hrun.throughout (I := fun _ s => Tracks s ∧ Flags s ∧ Alone s) (fun h s hr hall => ?_)
    (fun _ _ _ _ _ hI _ _ => hI.2.2.proper) hU
  refine hr.invariant (I := fun _ s => Tracks s ∧ Flags s ∧ Alone s) ?_ ?_ hall
  · exact fun s hs => ⟨init_tracks hs, init_flags hs, alone_of_out hs.2.2.2.1⟩
  · rintro _ s a s' _ ⟨htracks, hf, hs⟩ hU hstep
    exact ⟨step_tracks htracks hf hs.proper hstep, step_flags hf hstep, step_alone htracks hf hs hU hstep⟩

/-! ### Runs -/

/-- Every block is transmitted once, in the order of the queue, exactly in the runs in which each thread that calls
`dma_transmit` has the first block of the queue. When no thread is in `_serial_dma_tx` and the channel is idle, the
queue is empty, and all blocks have been transmitted in such a run. -/
theorem blocks_transmitted (hrun : (dmaTx τ δ).Run h s) :
    ((Throughout (fun _ s _ => s.transmitted <+: s.dataQueue.pushed) h ∧ s.transmitted <+: s.dataQueue.pushed) ↔
      Throughout (fun _ s a => Proper s a) h) ∧
    (Idle s → s.dataQueue.ring.isEmpty = true) ∧
    (Throughout (fun _ s a => Proper s a) h → Idle s → s.transmitted = s.dataQueue.pushed) := by
  have hinit : ∀ s, (dmaTx τ δ).init s → Tracks s ∧ Flags s := fun s hs => ⟨init_tracks hs, init_flags hs⟩
  have hstep : ∀ s a s', Tracks s ∧ Flags s → Proper s a → (dmaTx τ δ).step s a = some s' → Tracks s' ∧ Flags s' :=
    fun s a s' hs hP ha => ⟨step_tracks hs.1 hs.2 hP ha, step_flags hs.2 ha⟩
  have hflags : Flags s :=
    hrun.always (I := fun _ s => Flags s) (fun s hs => init_flags hs) fun _ _ _ _ _ hf ha => step_flags hf ha
  refine ⟨?_, hflags.empty, ?_⟩
  · exact hrun.throughout_iff_of_invariant (I := fun s => Tracks s ∧ Flags s) hinit hstep (fun s hs => hs.1.orderly)
      fun s a s' hs ha horderly => proper_of_orderly hs.1 hs.2 ha horderly
  · intro hall hidle
    have htracks : Tracks s ∧ Flags s := hrun.invariant (I := fun _ s => Tracks s ∧ Flags s) hinit
      (fun _ s a s' _ hs hP ha => hstep s a s' hs hP ha) hall
    have hsame := htracks.1.idle_eq hidle.1
    obtain ⟨l, hl, hlist, -, -⟩ := htracks.1
    have hnil : l = [] := List.length_eq_zero_iff.mp (hl.empty.mp (hflags.empty hidle))
    rw [hsame, ← hlist, hnil, List.append_nil]

instance [DecidableEq δ] (queued : Option δ) (pc : TxPc δ) : Decidable (pc.first queued) := by
  cases pc
  all_goals unfold TxPc.first; infer_instance

instance [DecidableEq δ] (s : DmaTx τ δ) (a : TxAction τ δ) : Decidable (Proper s a) := by
  cases a
  all_goals unfold Proper; infer_instance

/-- The state behind `rt_serial_open`. -/
def opened : DmaTx Bool Nat :=
  ⟨⟨⟨0, 0, true, false, fun _ => 0⟩, [], [], fun _ => 0, fun _ => false, fun _ => .out, [], []⟩, false, false,
    fun _ => .out, []⟩

theorem opened_init : (dmaTx Bool Nat).init opened :=
  ⟨⟨rfl, rfl, rfl, rfl, rfl, rfl, fun _ => rfl, fun _ => rfl, rfl, rfl⟩, rfl, rfl, fun _ => rfl, rfl⟩

/-- One of two threads starts with its own block although that of the other one is the first in the queue. And a thread
starts with a block that the interrupt has transmitted before; a later block is then taken out of the queue instead. -/
theorem wrong_block :
    (∃ h s, (dmaTx Bool Nat).Run h s ∧ s.dataQueue.pushed = [1, 2] ∧ s.transmitted = [2, 2] ∧ s.busy = false) ∧
    ∃ h s, (dmaTx Bool Nat).Run h s ∧ s.dataQueue.pushed = [1, 2, 3] ∧ s.transmitted = [1, 2, 2] ∧ s.busy = false := by
  constructor
  · exact System.exists_run (S := dmaTx Bool Nat) opened_init
      [.write true 1, .write false 2, .test false, .transmit false, .test true, .done, .done]
      (fun _ s => s.dataQueue.pushed = [1, 2] ∧ s.transmitted = [2, 2] ∧ s.busy = false) (by decide +kernel)
  · exact System.exists_run (S := dmaTx Bool Nat) opened_init
      [.write true 1, .test true, .transmit true, .write false 2, .done, .done, .test false, .transmit false,
        .write true 3, .test true, .done]
      (fun _ s => s.dataQueue.pushed = [1, 2, 3] ∧ s.transmitted = [1, 2, 2] ∧ s.busy = false) (by decide +kernel)

theorem blocks_transmitted_run : ∃ h s, (dmaTx Bool Nat).Run h s ∧ s.dataQueue.pushed = [1, 2] ∧
    s.transmitted <+: s.dataQueue.pushed := by
  obtain ⟨h, s, hrun, hall, hpushed⟩ := System.exists_run (S := dmaTx Bool Nat) opened_init
    [.write true 1, .test true, .transmit true, .write false 2, .test false, .done, .done]
    (fun h s => Throughout (fun _ s a => Proper s a) h ∧ s.dataQueue.pushed = [1, 2]) (by decide +kernel)
  exact ⟨h, s, hrun, hpushed, ((blocks_transmitted hrun).1.mpr hall).2⟩

end steps

end ThyristorController.SerialDmaTx
