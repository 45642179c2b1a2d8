import ThyristorController.Kernel.IpcThreads
import ThyristorController.Kernel.RtDef
import ThyristorController.Lib.Chain

/-!
# A message queue and its callers (`src/ipc.c`)

`rt_mq_send_wait` and `rt_mq_recv` with any waiting time and `rt_mq_urgent`, from threads and from nested interrupts,
and `rt_mq_control`. A send takes a cell of the free list in one critical section, fills it with interrupts enabled,
and links it in another section; a receive unlinks a cell, copies it and puts it back. Each section is one step, and
so is each copy in between: the cell is in the hands of its caller then.

`Cells` is the invariant of the cells, over any kind of caller. `message_queue` says what follows in every run, and
compares the queue with a deque.
-/

namespace ThyristorController.MessageQueues

open Transition SemThreads

/-! ## The cells -/

/-- `RT_MQ_ENTRY_MAX`. -/
def rtMqEntryMax : Nat := 65535

/-- `struct rt_messagequeue` without the lists of threads; the pool consists of cells, each with the pointer `next` of
`struct rt_mq_message` and the bytes behind it. -/
structure RtMessageQueue where
  msgSize : Nat
  maxMsgs : Nat
  entry : Nat
  msgQueueHead : Option Nat
  msgQueueTail : Option Nat
  msgQueueFree : Option Nat
  next : Nat → Option Nat
  body : Nat → Nat → UInt8

namespace RtMessageQueue

/-- Put a message to the free list. -/
def putFree (mq : RtMessageQueue) (msg : Nat) : RtMessageQueue :=
  { mq with next := Function.update mq.next msg mq.msgQueueFree, msgQueueFree := some msg }

/-- Move the head of the queue. -/
def moveHead (mq : RtMessageQueue) (msg : Nat) : RtMessageQueue :=
  { mq with
    msgQueueHead := mq.next msg
    msgQueueTail := if mq.msgQueueTail = some msg then none else mq.msgQueueTail }

/-- `rt_memcpy` to the bytes of a cell. -/
def copyTo (mq : RtMessageQueue) (msg : Nat) (buffer : List UInt8) : RtMessageQueue :=
  { mq with body := Function.update mq.body msg fun i => (buffer[i]?).getD (mq.body msg i) }

/-- The last bytes of a cell are not copied if the buffer is larger. -/
def copyFrom (mq : RtMessageQueue) (msg size : Nat) : List UInt8 :=
  (List.range (if mq.msgSize < size then mq.msgSize else size)).map (mq.body msg)

/-- What a send does to a cell between its sections. -/
def fill (mq : RtMessageQueue) (msg : Nat) (buffer : List UInt8) (urgent : Bool) : RtMessageQueue :=
  if urgent then mq.copyTo msg buffer
  else { mq with next := Function.update mq.next msg none }.copyTo msg buffer

/-- `rt_mq_send_wait` links the cell. -/
def linkTail (mq : RtMessageQueue) (msg : Nat) : RtMessageQueue :=
  { mq with
    next := match mq.msgQueueTail with
      | some tail => Function.update mq.next tail (some msg)
      | none => mq.next
    msgQueueTail := some msg
    msgQueueHead := if mq.msgQueueHead = none then some msg else mq.msgQueueHead }

/-- `rt_mq_urgent` links the cell. -/
def linkHead (mq : RtMessageQueue) (msg : Nat) : RtMessageQueue :=
  { mq with
    next := Function.update mq.next msg mq.msgQueueHead
    msgQueueHead := some msg
    msgQueueTail := if mq.msgQueueTail = none then some msg else mq.msgQueueTail }

def link (mq : RtMessageQueue) (msg : Nat) (urgent : Bool) : RtMessageQueue :=
  if urgent then mq.linkHead msg else mq.linkTail msg

/-- The first section of `rt_mq_recv`. -/
def unlink (mq : RtMessageQueue) (msg : Nat) : RtMessageQueue :=
  { mq.moveHead msg with entry := if 0 < mq.entry then mq.entry - 1 else mq.entry }

/-- The loop of `rt_mq_control`, in at most `n` rounds. -/
def release : Nat → RtMessageQueue → Option RtMessageQueue
  | 0, mq => if mq.msgQueueHead = none then some mq else none
  | n + 1, mq =>
    match mq.msgQueueHead with
    | none => some mq
    | some msg => release n ((mq.moveHead msg).putFree msg)

end RtMessageQueue

/-- What `rt_mq_init` sets before its loop. -/
def mqEmpty (body : Nat → Nat → UInt8) (msgSize maxMsgs : Nat) : RtMessageQueue where
  msgSize := msgSize
  maxMsgs := maxMsgs
  entry := 0
  msgQueueHead := none
  msgQueueTail := none
  msgQueueFree := none
  next := fun _ => none
  body := body

/-- `rt_mq_init` with a pool that holds any bytes; `msg_size` and `max_msgs` are fields of 16 bits. -/
def rtMqInit (body : Nat → Nat → UInt8) (msgSize poolSize : BitVec 32) : RtMessageQueue :=
  let msgSize := (rtAlign msgSize rtAlignSize).toNat % 65536
  let maxMsgs := poolSize.toNat / (msgSize + 4) % 65536
  (List.range maxMsgs).foldl RtMessageQueue.putFree (mqEmpty body msgSize maxMsgs)

/-! ## The system -/

/-- `mq->parent.suspend_thread` and `mq->suspend_sender_thread`. -/
inductive MqList where
  | receivers | senders
deriving DecidableEq

instance : Fintype MqList := ⟨{.receivers, .senders}, fun q => by cases q <;> decide⟩

/-- A caller between its critical sections: it fills a cell, links it; copies a cell, puts it back. -/
inductive MqHand where
  | fill (msg : Nat) (buffer : List UInt8) (urgent : Bool)
  | link (msg : Nat) (buffer : List UInt8) (urgent : Bool)
  | copy (msg size : Nat)
  | putFree (msg : Nat)
deriving DecidableEq

/-- `msg`. -/
def MqHand.msg : MqHand → Nat
  | .fill msg _ _ | .link msg _ _ | .copy msg _ | .putFree msg => msg

/-- The call that a thread is in, with its local variables: it waits in it, or has a cell. -/
inductive MqCall where
  | send (buffer : List UInt8) (timeout delta : BitVec 32)
  | recv (size : Nat) (timeout delta : BitVec 32)
  | busy (hand : MqHand)
deriving DecidableEq

/-- The list in which a call waits; with a cell in its hands it does not. -/
def MqCall.place : MqCall → MqList
  | .recv _ _ _ => .receivers
  | _ => .senders

def MqCall.hand? : MqCall → Option MqHand
  | .busy hand => some hand
  | _ => none

/-- `isr n` is where the interrupt handler `n` is. -/
structure MqState (τ ν : Type) where
  threads : IpcThreads τ MqList MqCall
  isr : ν → Option MqHand
  mq : RtMessageQueue
  tick : BitVec 32

/-- The running thread enters a call, or goes on in it; an interrupt handler does; the queue is reset; the tick
counter advances; `env` is everything else. -/
inductive MqAction (τ ν : Type) where
  | send (buffer : List UInt8) (timeout : BitVec 32)
  | urgent (buffer : List UInt8)
  | recv (size : Nat) (timeout : BitVec 32)
  | goOn
  | isrSend (n : ν) (buffer : List UInt8)
  | isrUrgent (n : ν) (buffer : List UInt8)
  | isrRecv (n : ν) (size : Nat)
  | isrGoOn (n : ν)
  | reset
  | tick
  | env (a : EnvAction τ)

/-- What a step does to messages: one is appended, or put in front; a caller takes the first one; a caller that asks
for `size` bytes is delivered some. -/
inductive MqEvent (γ : Type) where
  | quiet
  | append (message : List UInt8)
  | prepend (message : List UInt8)
  | take (c : γ)
  | deliver (c : γ) (size : Nat) (bytes : List UInt8)
  | clear
deriving DecidableEq

variable {τ ν : Type} [DecidableEq τ] [DecidableEq ν]

namespace MqState

/-- What a caller has in its hands. -/
def hand (s : MqState τ ν) : τ ⊕ ν → Option MqHand
  | .inl t => (s.threads.view.call t).bind MqCall.hand?
  | .inr n => s.isr n

def setError (s : MqState τ ν) (t : τ) (e : Int) : MqState τ ν := { s with threads := s.threads.setError t e }

/-- A caller goes on with a cell, or returns. -/
def setHand (s : MqState τ ν) (c : τ ⊕ ν) (hand : Option MqHand) : MqState τ ν :=
  match c with
  | .inl t =>
    { s with threads := s.threads.setPc t (match hand with
      | some hand => .resumed (.busy hand)
      | none => .idle) }
  | .inr n => { s with isr := Function.update s.isr n hand }

end MqState

/-- The next part of a caller that has a cell. -/
def handStep (s : MqState τ ν) (c : τ ⊕ ν) : MqHand → MqState τ ν × MqEvent (τ ⊕ ν)
  | .fill msg buffer urgent =>
    ({ s with mq := s.mq.fill msg buffer urgent }.setHand c (some (.link msg buffer urgent)), .quiet)
  | .link msg buffer urgent =>
    let mq := s.mq.link msg urgent
    let event := if urgent then .prepend buffer else .append buffer
    if mq.entry < rtMqEntryMax then
      ({ s with mq := { mq with entry := mq.entry + 1 }, threads := s.threads.resumeFirst .receivers }.setHand c none,
        event)
    else ({ s with mq := mq }.setHand c none, event)
  | .copy msg size => (s.setHand c (some (.putFree msg)), .deliver c size (s.mq.copyFrom msg size))
  | .putFree msg =>
    ({ s with mq := s.mq.putFree msg, threads := s.threads.resumeFirst .senders }.setHand c none, .quiet)

/-- A send takes a cell, if one is free. -/
def takeFree (s : MqState τ ν) (c : τ ⊕ ν) (buffer : List UInt8) (urgent : Bool) : Option (MqState τ ν) :=
  s.mq.msgQueueFree.map fun msg =>
    { s with mq := { s.mq with msgQueueFree := s.mq.next msg } }.setHand c (some (.fill msg buffer urgent))

/-- The loop of `rt_mq_send_wait` and what follows it in its section. -/
def mqSendLoop (flag : IpcFlag) (s : MqState τ ν) (t : τ) (buffer : List UInt8) (timeout delta : BitVec 32) :
    Option (MqState τ ν) :=
  match takeFree s (.inl t) buffer false with
  | some s => some s
  | none =>
    let s := s.setError t rtEok
    if timeout = 0 then some (s.setHand (.inl t) none)
    else
      let timed := (0#32).slt timeout
      (s.threads.suspendOn t .senders flag timed (.send buffer timeout (if timed then s.tick else delta))).map
        fun w => { s with threads := w }

/-- `rt_mq_send_wait` from its start. -/
def rtMqSendWait (flag : IpcFlag) (s : MqState τ ν) (t : τ) (buffer : List UInt8) (timeout : BitVec 32) :
    Option (MqState τ ν) :=
  if s.mq.msgSize < buffer.length then some s
  else if s.mq.msgQueueFree = none ∧ timeout = 0 then some s
  else mqSendLoop flag s t buffer timeout 0

/-- `rt_mq_send_wait` from behind `rt_schedule`. -/
def mqSendGoOn (flag : IpcFlag) (s : MqState τ ν) (t : τ) (buffer : List UInt8) (timeout delta : BitVec 32) :
    Option (MqState τ ν) :=
  if s.threads.view.error t ≠ rtEok then some (s.setHand (.inl t) none)
  else mqSendLoop flag s t buffer (remaining timeout delta s.tick) delta

/-- `rt_mq_urgent`, and `rt_mq_send_wait` without waiting in an interrupt. -/
def mqTryTake (s : MqState τ ν) (c : τ ⊕ ν) (buffer : List UInt8) (urgent : Bool) : MqState τ ν :=
  if s.mq.msgSize < buffer.length then s else (takeFree s c buffer urgent).getD s

/-- `rt_mq_recv` behind its loop. -/
def takeHead (s : MqState τ ν) (c : τ ⊕ ν) (size : Nat) : Option (MqState τ ν × MqEvent (τ ⊕ ν)) :=
  s.mq.msgQueueHead.map fun msg =>
    ({ s with mq := s.mq.unlink msg }.setHand c (some (.copy msg size)), .take c)

/-- The loop of `rt_mq_recv` and what follows it in its section. -/
def mqRecvLoop (flag : IpcFlag) (s : MqState τ ν) (t : τ) (size : Nat) (timeout delta : BitVec 32) :
    Option (MqState τ ν × MqEvent (τ ⊕ ν)) :=
  if s.mq.entry = 0 then
    let s := s.setError t rtEok
    if timeout = 0 then some ((s.setError t rtEtimeout).setHand (.inl t) none, .quiet)
    else
      let timed := (0#32).slt timeout
      (s.threads.suspendOn t .receivers flag timed (.recv size timeout (if timed then s.tick else delta))).map
        fun w => ({ s with threads := w }, .quiet)
  else takeHead s (.inl t) size

/-- `rt_mq_recv` from its start. -/
def rtMqRecv (flag : IpcFlag) (s : MqState τ ν) (t : τ) (size : Nat) (timeout : BitVec 32) :
    Option (MqState τ ν × MqEvent (τ ⊕ ν)) :=
  if s.mq.entry = 0 ∧ timeout = 0 then some (s, .quiet) else mqRecvLoop flag s t size timeout 0

/-- `rt_mq_recv` from behind `rt_schedule`. -/
def mqRecvGoOn (flag : IpcFlag) (s : MqState τ ν) (t : τ) (size : Nat) (timeout delta : BitVec 32) :
    Option (MqState τ ν × MqEvent (τ ⊕ ν)) :=
  if s.threads.view.error t ≠ rtEok then some (s.setHand (.inl t) none, .quiet)
  else mqRecvLoop flag s t size (remaining timeout delta s.tick) delta

/-- `rt_mq_recv` without waiting, in an interrupt. -/
def mqRecvIsr (s : MqState τ ν) (n : ν) (size : Nat) : Option (MqState τ ν × MqEvent (τ ⊕ ν)) :=
  if s.mq.entry = 0 then some (s, .quiet) else takeHead s (.inr n) size

/-- `rt_mq_control` with `RT_IPC_CMD_RESET`; there are at most `max_msgs` cells in the queue. -/
def rtMqReset (s : MqState τ ν) : Option (MqState τ ν) :=
  (s.mq.release s.mq.maxMsgs).map fun mq =>
    { s with threads := (s.threads.resumeAll .receivers).resumeAll .senders, mq := { mq with entry := 0 } }

def mqStep (flag : IpcFlag) (s : MqState τ ν) : MqAction τ ν → Option (MqState τ ν × MqEvent (τ ⊕ ν))
  | .send buffer timeout =>
    s.threads.caller.bind fun t => (rtMqSendWait flag s t buffer timeout).map fun s => (s, .quiet)
  | .urgent buffer => s.threads.caller.map fun t => (mqTryTake s (.inl t) buffer true, .quiet)
  | .recv size timeout => s.threads.caller.bind fun t => rtMqRecv flag s t size timeout
  | .goOn => s.threads.returning.bind fun (t, call) =>
    match call with
    | .send buffer timeout delta => (mqSendGoOn flag s t buffer timeout delta).map fun s => (s, .quiet)
    | .recv size timeout delta => mqRecvGoOn flag s t size timeout delta
    | .busy hand => some (handStep s (.inl t) hand)
  | .isrSend n buffer => if s.isr n = none then some (mqTryTake s (.inr n) buffer false, .quiet) else none
  | .isrUrgent n buffer => if s.isr n = none then some (mqTryTake s (.inr n) buffer true, .quiet) else none
  | .isrRecv n size => if s.isr n = none then mqRecvIsr s n size else none
  | .isrGoOn n => (s.isr n).map fun hand => handStep s (.inr n) hand
  | .reset => (rtMqReset s).map fun s => (s, .clear)
  | .tick => some ({ s with tick := s.tick + 1 }, .quiet)
  | .env a => (s.threads.envStep a).map fun w => ({ s with threads := w }, .quiet)

/-- The queue is initialised with a pool, and no call has begun. -/
structure MqInit (body : Nat → Nat → UInt8) (msgSize poolSize : BitVec 32) (s : MqState τ ν) : Prop where
  threads : s.threads.Init
  isr : ∀ n, s.isr n = none
  mq : s.mq = rtMqInit body msgSize poolSize

def messageQueue (τ ν : Type) [DecidableEq τ] [DecidableEq ν] (flag : IpcFlag) (body : Nat → Nat → UInt8)
    (msgSize poolSize : BitVec 32) : System (MqState τ ν) (MqAction τ ν) where
  init := MqInit body msgSize poolSize
  step s a := (mqStep flag s a).map Prod.fst

/-! ## A deque of messages -/

/-- The messages in the queue, and the one that each caller has taken last. -/
structure Deque (γ : Type) where
  messages : List (List UInt8)
  taken : γ → Option (List UInt8)

def Deque.apply {γ : Type} [DecidableEq γ] (d : Deque γ) : MqEvent γ → Deque γ
  | .quiet | .deliver _ _ _ => d
  | .append message => { d with messages := d.messages ++ [message] }
  | .prepend message => { d with messages := message :: d.messages }
  | .take c => { messages := d.messages.tail, taken := Function.update d.taken c d.messages.head? }
  | .clear => { d with messages := [] }

/-- The deque after the events of a history. -/
def deque (flag : IpcFlag) : History (MqState τ ν) (MqAction τ ν) → Deque (τ ⊕ ν)
  | [] => { messages := [], taken := fun _ => none }
  | (s, a) :: h => (deque flag h).apply (((mqStep flag s a).map Prod.snd).getD .quiet)

/-! ## The invariant of the cells -/

/-- The bytes of a cell begin with a message. -/
def RtMessageQueue.Contains (mq : RtMessageQueue) (msg : Nat) (message : List UInt8) : Prop :=
  message.length ≤ mq.msgSize ∧ ∀ (i : Nat) (b : UInt8), message[i]? = some b → mq.body msg i = b

/-- Where a cell is. -/
inductive Place (γ : Type) where
  | free
  | queue
  | hands (c : γ)
deriving DecidableEq

section cells

variable {γ : Type}

/-- What a caller knows of the cell in its hands. -/
def HandOk (mq : RtMessageQueue) (d : Deque γ) (c : γ) : MqHand → Prop
  | .fill _ buffer _ => buffer.length ≤ mq.msgSize
  | .link msg buffer urgent => mq.Contains msg buffer ∧ (urgent = false → mq.next msg = none)
  | .copy msg _ => ∃ message, d.taken c = some message ∧ mq.Contains msg message
  | .putFree _ => True

/-- The free list, the queue and the hands of the callers share the cells; the queue holds the messages. -/
structure Cells (mq : RtMessageQueue) (hand : γ → Option MqHand) (d : Deque γ) (place : Nat → Place γ)
    (free queue : List Nat) : Prop where
  max : mq.maxMsgs < 65536
  linkedFree : Chain.Linked mq.next mq.msgQueueFree free
  linkedQueue : Chain.Linked mq.next mq.msgQueueHead queue
  tail : mq.msgQueueTail = queue.getLast?
  entry : mq.entry = queue.length
  freeNodup : free.Nodup
  queueNodup : queue.Nodup
  inFree : ∀ i, i ∈ free ↔ i < mq.maxMsgs ∧ place i = .free
  inQueue : ∀ i, i ∈ queue ↔ i < mq.maxMsgs ∧ place i = .queue
  inHand : ∀ c i, (hand c).map MqHand.msg = some i ↔ i < mq.maxMsgs ∧ place i = .hands c
  messages : List.Forall₂ mq.Contains queue d.messages
  hands : ∀ c x, hand c = some x → HandOk mq d c x

variable {mq mq' : RtMessageQueue} {hand : γ → Option MqHand} {d d' : Deque γ} {place : Nat → Place γ}
  {free queue : List Nat} {c : γ} {x : MqHand} {msg size : Nat} {buffer : List UInt8} {urgent : Bool}

theorem RtMessageQueue.Contains.congr {message : List UInt8} (h : mq.Contains msg message)
    (hsize : mq'.msgSize = mq.msgSize) (hbody : mq'.body msg = mq.body msg) : mq'.Contains msg message := by
  unfold RtMessageQueue.Contains
  rw [hsize, hbody]
  exact h

theorem HandOk.congr (h : HandOk mq d c x) (hsize : mq'.msgSize = mq.msgSize)
    (hnext : mq'.next x.msg = mq.next x.msg) (hbody : mq'.body x.msg = mq.body x.msg)
    (htaken : d'.taken c = d.taken c) : HandOk mq' d' c x := by
  cases x with
  | fill => exact le_of_le_of_eq h hsize.symm
  | link => exact ⟨h.1.congr hsize hbody, fun hu => hnext.trans (h.2 hu)⟩
  | copy =>
    obtain ⟨message, htake, hmsg⟩ := h
    exact ⟨message, htaken.trans htake, hmsg.congr hsize hbody⟩
  | putFree => trivial

theorem forall_contains {messages : List (List UInt8)} (h : List.Forall₂ mq.Contains queue messages)
    (hsize : mq'.msgSize = mq.msgSize) (hbody : ∀ i ∈ queue, mq'.body i = mq.body i) :
    List.Forall₂ mq'.Contains queue messages := by
  induction h with
  | nil => exact .nil
  | cons hm _ ih =>
    exact .cons (hm.congr hsize (hbody _ (List.mem_cons_self ..)))
      (ih fun i hi => hbody i (List.mem_cons_of_mem _ hi))

theorem Cells.hand_place (hi : Cells mq hand d place free queue) (hx : hand c = some x) :
    x.msg < mq.maxMsgs ∧ place x.msg = .hands c := (hi.inHand c x.msg).mp (by rw [hx]; rfl)

theorem Cells.hand_ne (hi : Cells mq hand d place free queue) (hx : hand c = some x) (hp : place msg ≠ .hands c) :
    x.msg ≠ msg := fun he => hp (he ▸ (hi.hand_place hx).2)

theorem Cells.hand_other {c' : γ} {x' : MqHand} (hi : Cells mq hand d place free queue) (hx : hand c = some x)
    (hx' : hand c' = some x') (hc : c' ≠ c) : x'.msg ≠ x.msg :=
  hi.hand_ne hx' fun he => hc (Place.hands.inj ((hi.hand_place hx).2.symm.trans he)).symm

theorem Cells.entry_lt (hi : Cells mq hand d place free queue) (hmsg : msg < mq.maxMsgs) (hp : place msg ≠ .queue) :
    mq.entry < rtMqEntryMax := by
  have hnodup : (msg :: queue).Nodup :=
    List.nodup_cons.mpr ⟨fun hm => hp ((hi.inQueue msg).mp hm).2, hi.queueNodup⟩
  have hsub : msg :: queue ⊆ List.range mq.maxMsgs := fun i hm => by
    rcases List.mem_cons.mp hm with rfl | hm
    · exact List.mem_range.mpr hmsg
    · exact List.mem_range.mpr ((hi.inQueue i).mp hm).1
  have hlen := (List.subperm_of_subset hnodup hsub).length_le
  rw [List.length_cons, List.length_range, ← hi.entry] at hlen
  have := hi.max
  unfold rtMqEntryMax
  omega

section move

variable {l : List Nat} {p q : Place γ} (h : ∀ i, i ∈ l ↔ i < mq.maxMsgs ∧ place i = p)

include h

theorem mem_stay (hp : place msg ≠ p) (hq : q ≠ p) (i : Nat) :
    i ∈ l ↔ i < mq.maxMsgs ∧ Function.update place msg q i = p := by
  rw [h]
  by_cases him : i = msg
  · subst him
    simp [hp, hq]
  · simp [him]

theorem mem_enter {l' : List Nat} (hmsg : msg < mq.maxMsgs) (hl : ∀ i, i ∈ l' ↔ i = msg ∨ i ∈ l) (i : Nat) :
    i ∈ l' ↔ i < mq.maxMsgs ∧ Function.update place msg p i = p := by
  rw [hl, h]
  by_cases him : i = msg
  · subst him
    simp [hmsg]
  · simp [him]

theorem mem_leave {l' : List Nat} (hl : ∀ i, i ∈ l ↔ i = msg ∨ i ∈ l') (hnot : msg ∉ l') (hq : q ≠ p) (i : Nat) :
    i ∈ l' ↔ i < mq.maxMsgs ∧ Function.update place msg q i = p := by
  by_cases him : i = msg
  · subst him
    simp [hnot, hq]
  · simp [him, ← h, hl]

end move

variable [DecidableEq γ]

theorem hand_enter (h : ∀ c i, (hand c).map MqHand.msg = some i ↔ i < mq.maxMsgs ∧ place i = .hands c)
    (hnone : hand c = none) (hmsg : x.msg < mq.maxMsgs) (hp : ∀ c, place x.msg ≠ .hands c) (c' : γ) (i : Nat) :
    (Function.update hand c (some x) c').map MqHand.msg = some i ↔
      i < mq.maxMsgs ∧ Function.update place x.msg (.hands c) i = .hands c' := by
  have hold := h c' i
  have hc := h c i
  by_cases him : i = x.msg <;> by_cases hcc : c' = c
  · subst him hcc
    simp [hmsg]
  · subst him
    simp [hcc, Ne.symm hcc, hold, hp]
  · subst hcc
    simp only [hnone, Option.map_none, reduceCtorEq, false_iff] at hc
    simpa [him, Ne.symm him] using hc
  · simpa [him, hcc] using hold

theorem hand_leave {q : Place γ} (h : ∀ c i, (hand c).map MqHand.msg = some i ↔ i < mq.maxMsgs ∧ place i = .hands c)
    (hx : hand c = some x) (hq : ∀ c, q ≠ .hands c) (c' : γ) (i : Nat) :
    (Function.update hand c none c').map MqHand.msg = some i ↔
      i < mq.maxMsgs ∧ Function.update place x.msg q i = .hands c' := by
  have hold := h c' i
  have hc := h c i
  have hself := (h c x.msg).mp (by rw [hx]; rfl)
  by_cases him : i = x.msg <;> by_cases hcc : c' = c
  · subst him hcc
    simp [hq]
  · subst him
    simp [hcc, hq, hold, hself.2, Ne.symm hcc]
  · subst hcc
    rw [hx] at hc
    simpa [him, Ne.symm him] using hc
  · simpa [him, hcc] using hold

theorem hand_keep {y : MqHand} (hx : hand c = some x) (hmsg : y.msg = x.msg) (c' : γ) :
    (Function.update hand c (some y) c').map MqHand.msg = (hand c').map MqHand.msg := by
  by_cases hcc : c' = c
  · subst hcc
    simp [hx, hmsg]
  · simp [hcc]

theorem hands_update {y : Option MqHand} (hself : ∀ x, y = some x → HandOk mq' d' c x)
    (hother : ∀ c', c' ≠ c → ∀ x, hand c' = some x → HandOk mq' d' c' x) (c' : γ) (x : MqHand)
    (hx : Function.update hand c y c' = some x) : HandOk mq' d' c' x := by
  by_cases hcc : c' = c
  · subst hcc
    rw [Function.update_self] at hx
    exact hself x hx
  · rw [Function.update_of_ne hcc] at hx
    exact hother c' hcc x hx

theorem Cells.take (hi : Cells mq hand d place free queue) (hfree : mq.msgQueueFree = some msg)
    (hnone : hand c = none) (hsize : buffer.length ≤ mq.msgSize) (urgent : Bool) :
    ∃ place' free', Cells { mq with msgQueueFree := mq.next msg }
      (Function.update hand c (some (.fill msg buffer urgent))) d place' free' queue := by
  obtain ⟨rest, rfl, hrest⟩ := Chain.linked_some.mp (hfree ▸ hi.linkedFree)
  obtain ⟨hnot, hnodup⟩ := List.nodup_cons.mp hi.freeNodup
  obtain ⟨hmsg, hplace⟩ := (hi.inFree msg).mp (List.mem_cons_self ..)
  refine ⟨Function.update place msg (.hands c), rest,
    { hi with
      linkedFree := hrest
      freeNodup := hnodup
      inFree := mem_leave hi.inFree (fun i => List.mem_cons) hnot (by simp)
      inQueue := mem_stay hi.inQueue (by simp [hplace]) (by simp)
      inHand := hand_enter hi.inHand hnone hmsg (by simp [MqHand.msg, hplace])
      hands := hands_update (fun y hy => ?_) fun c' _ y hy => (hi.hands c' y hy).congr rfl rfl rfl rfl }⟩
  obtain rfl := Option.some.inj hy
  exact hsize

theorem Cells.fill (hi : Cells mq hand d place free queue) (hx : hand c = some (.fill msg buffer urgent)) :
    Cells (mq.fill msg buffer urgent) (Function.update hand c (some (.link msg buffer urgent))) d place free queue := by
  have hplace : place msg = .hands c := (hi.hand_place hx).2
  have hnext (i : Nat) (him : i ≠ msg) : (mq.fill msg buffer urgent).next i = mq.next i := by
    unfold RtMessageQueue.fill
    split
    · rfl
    · exact Function.update_of_ne him _ _
  have hbody (i : Nat) (him : i ≠ msg) : (mq.fill msg buffer urgent).body i = mq.body i := by
    unfold RtMessageQueue.fill
    split <;> exact Function.update_of_ne him _ _
  have hself (i : Nat) : (mq.fill msg buffer urgent).body msg i = (buffer[i]?).getD (mq.body msg i) := by
    unfold RtMessageQueue.fill
    split <;> simp [RtMessageQueue.copyTo]
  have hsame : mq.fill msg buffer urgent =
      { mq with next := (mq.fill msg buffer urgent).next, body := (mq.fill msg buffer urgent).body } := by
    unfold RtMessageQueue.fill
    split <;> rfl
  have hfree : msg ∉ free := fun hm => by simpa [hplace] using ((hi.inFree msg).mp hm).2
  have hqueue : msg ∉ queue := fun hm => by simpa [hplace] using ((hi.inQueue msg).mp hm).2
  rw [hsame]
  refine
    { hi with
      linkedFree := hi.linkedFree.congr fun i hm => hnext i fun he => hfree (he ▸ hm)
      linkedQueue := hi.linkedQueue.congr fun i hm => hnext i fun he => hqueue (he ▸ hm)
      inHand := fun c' i => by
        rw [hand_keep (y := .link msg buffer urgent) hx rfl]
        exact hi.inHand c' i
      messages := forall_contains hi.messages rfl fun i hm => hbody i fun he => hqueue (he ▸ hm)
      hands := hands_update (fun y hy => ?_) fun c' hcc y hy => ?_ }
  · obtain rfl := Option.some.inj hy
    refine ⟨⟨hi.hands c _ hx, fun i b hb => (hself i).trans (by rw [hb]; rfl)⟩, fun hu => ?_⟩
    subst hu
    exact Function.update_self ..
  · have hne : y.msg ≠ msg := hi.hand_other hx hy hcc
    exact (hi.hands c' y hy).congr rfl (hnext _ hne) (hbody _ hne) rfl

theorem getLast?_tail {rest : List Nat} (hnot : msg ∉ rest) :
    (if (msg :: rest).getLast? = some msg then none else (msg :: rest).getLast?) = rest.getLast? := by
  cases hr : rest.getLast? with
  | none =>
    obtain rfl := List.getLast?_eq_none_iff.mp hr
    simp
  | some last =>
    have hne : last ≠ msg := fun he => hnot (he ▸ List.mem_of_getLast? hr)
    rw [List.getLast?_cons, hr]
    simp [hne]

theorem Cells.unlink (hi : Cells mq hand d place free queue) (hhead : mq.msgQueueHead = some msg)
    (hnone : hand c = none) (size : Nat) :
    ∃ place' queue', Cells (mq.unlink msg) (Function.update hand c (some (.copy msg size))) (d.apply (.take c))
      place' free queue' := by
  obtain ⟨rest, rfl, hrest⟩ := Chain.linked_some.mp (hhead ▸ hi.linkedQueue)
  obtain ⟨hnot, hnodup⟩ := List.nodup_cons.mp hi.queueNodup
  obtain ⟨hmsg, hplace⟩ := (hi.inQueue msg).mp (List.mem_cons_self ..)
  obtain ⟨message, messages, hfirst, hmessages, hd⟩ := List.forall₂_cons_left_iff.mp hi.messages
  have hentry : 0 < mq.entry := by
    rw [hi.entry]
    exact Nat.succ_pos _
  refine ⟨Function.update place msg (.hands c), rest,
    { hi with
      linkedQueue := hrest
      tail := ?_
      entry := ?_
      queueNodup := hnodup
      inFree := mem_stay hi.inFree (by simp [hplace]) (by simp)
      inQueue := mem_leave hi.inQueue (fun i => List.mem_cons) hnot (by simp)
      inHand := hand_enter hi.inHand hnone hmsg (by simp [MqHand.msg, hplace])
      messages := ?_
      hands := hands_update (fun y hy => ?_) fun c' hcc y hy => ?_ }⟩
  · show (if mq.msgQueueTail = some msg then none else mq.msgQueueTail) = _
    rw [hi.tail]
    exact getLast?_tail hnot
  · show (if 0 < mq.entry then mq.entry - 1 else mq.entry) = _
    rw [if_pos hentry, hi.entry]
    rfl
  · rw [show (d.apply (.take c)).messages = d.messages.tail from rfl, hd]
    exact forall_contains hmessages rfl fun _ _ => rfl
  · obtain rfl := Option.some.inj hy
    refine ⟨message, ?_, hfirst.congr rfl rfl⟩
    rw [show (d.apply (.take c)).taken = Function.update d.taken c d.messages.head? from rfl, hd,
      Function.update_self]
    rfl
  · exact (hi.hands c' y hy).congr rfl rfl rfl (Function.update_of_ne hcc ..)

/-- What is delivered of a message to a caller that asks for `size` bytes. -/
def Delivers (msgSize size : Nat) (bytes message : List UInt8) : Prop :=
  bytes.length = min size msgSize ∧ bytes.take message.length = message.take bytes.length ∧
    (size = message.length → bytes = message)

omit [DecidableEq γ] in
theorem copyFrom_delivers {message : List UInt8} (h : mq.Contains msg message) (size : Nat) :
    Delivers mq.msgSize size (mq.copyFrom msg size) message := by
  have hlen : (mq.copyFrom msg size).length = min size mq.msgSize := by
    rw [RtMessageQueue.copyFrom, List.length_map, List.length_range]
    split <;> omega
  have htake : (mq.copyFrom msg size).take message.length = message.take (mq.copyFrom msg size).length := by
    refine List.ext_getElem? fun i => ?_
    rw [List.getElem?_take, List.getElem?_take]
    rcases Nat.lt_or_ge i message.length with hi | hi
    · rcases Nat.lt_or_ge i (mq.copyFrom msg size).length with hj | hj
      · rw [if_pos hi, if_pos hj, List.getElem?_eq_getElem hj, List.getElem?_eq_getElem hi]
        have hb := h.2 i _ (List.getElem?_eq_getElem hi)
        simpa [RtMessageQueue.copyFrom] using hb
      · rw [if_pos hi, if_neg (Nat.not_lt.mpr hj), List.getElem?_eq_none hj]
    · rw [if_neg (Nat.not_lt.mpr hi), List.getElem?_eq_none hi, ite_self]
  refine ⟨hlen, htake, fun hsize => ?_⟩
  have hfull : (mq.copyFrom msg size).length = message.length := by
    rw [hlen, hsize]
    exact Nat.min_eq_left h.1
  rw [hfull, List.take_length] at htake
  rwa [← hfull, List.take_length] at htake

theorem Cells.copy (hi : Cells mq hand d place free queue) (hx : hand c = some (.copy msg size)) :
    Cells mq (Function.update hand c (some (.putFree msg))) d place free queue ∧
      ∃ message, d.taken c = some message ∧ Delivers mq.msgSize size (mq.copyFrom msg size) message := by
  obtain ⟨message, htaken, hmsg⟩ := hi.hands c _ hx
  refine ⟨{ hi with
    inHand := fun c' i => by
      rw [hand_keep (y := .putFree msg) hx rfl]
      exact hi.inHand c' i
    hands := hands_update (fun y hy => ?_) fun c' _ y hy => hi.hands c' y hy }, message, htaken,
    copyFrom_delivers hmsg size⟩
  obtain rfl := Option.some.inj hy
  trivial

theorem Cells.putFree (hi : Cells mq hand d place free queue) (hx : hand c = some (.putFree msg)) :
    Cells (mq.putFree msg) (Function.update hand c none) d (Function.update place msg .free) (msg :: free) queue := by
  obtain ⟨hmsg, hplace⟩ := hi.hand_place hx
  have hfree : msg ∉ free := fun hm => by simpa [MqHand.msg, hplace] using ((hi.inFree msg).mp hm).2.symm.trans hplace
  have hqueue : msg ∉ queue := fun hm => by
    simpa [MqHand.msg, hplace] using ((hi.inQueue msg).mp hm).2.symm.trans hplace
  refine
    { hi with
      linkedFree := hi.linkedFree.push hfree
      linkedQueue := hi.linkedQueue.update hqueue _
      freeNodup := List.nodup_cons.mpr ⟨hfree, hi.freeNodup⟩
      inFree := mem_enter hi.inFree hmsg fun i => List.mem_cons
      inQueue := mem_stay hi.inQueue (fun he => by simpa using he.symm.trans hplace) (by simp)
      inHand := hand_leave hi.inHand hx (by simp)
      messages := forall_contains hi.messages rfl fun _ _ => rfl
      hands := hands_update (fun y hy => by cases hy) fun c' hcc y hy => ?_ }
  exact (hi.hands c' y hy).congr rfl (Function.update_of_ne (hi.hand_other hx hy hcc) ..) rfl rfl

theorem Cells.linkHead (hi : Cells mq hand d place free queue) (hx : hand c = some (.link msg buffer urgent)) :
    Cells { mq.linkHead msg with entry := mq.entry + 1 } (Function.update hand c none) (d.apply (.prepend buffer))
      (Function.update place msg .queue) free (msg :: queue) := by
  have hmsg : msg < mq.maxMsgs := (hi.hand_place hx).1
  have hplace : place msg = .hands c := (hi.hand_place hx).2
  have hfree : msg ∉ free := fun hm => by simpa [hplace] using ((hi.inFree msg).mp hm).2
  have hqueue : msg ∉ queue := fun hm => by simpa [hplace] using ((hi.inQueue msg).mp hm).2
  refine
    { hi with
      linkedFree := hi.linkedFree.update hfree _
      linkedQueue := hi.linkedQueue.push hqueue
      tail := ?_
      entry := congrArg (· + 1) hi.entry
      queueNodup := List.nodup_cons.mpr ⟨hqueue, hi.queueNodup⟩
      inFree := mem_stay hi.inFree (by simp [hplace]) (by simp)
      inQueue := mem_enter hi.inQueue hmsg fun i => List.mem_cons
      inHand := hand_leave hi.inHand hx (by simp)
      messages := .cons ((hi.hands c _ hx).1.congr rfl rfl) (forall_contains hi.messages rfl fun _ _ => rfl)
      hands := hands_update (fun y hy => by cases hy) fun c' hcc y hy => ?_ }
  · show (if mq.msgQueueTail = none then some msg else mq.msgQueueTail) = _
    rw [hi.tail, List.getLast?_cons]
    cases queue.getLast? <;> rfl
  · exact (hi.hands c' y hy).congr rfl (Function.update_of_ne (hi.hand_other hx hy hcc) ..) rfl rfl

theorem Cells.linkTail (hi : Cells mq hand d place free queue) (hx : hand c = some (.link msg buffer false)) :
    Cells { mq.linkTail msg with entry := mq.entry + 1 } (Function.update hand c none) (d.apply (.append buffer))
      (Function.update place msg .queue) free (queue ++ [msg]) := by
  have hmsg : msg < mq.maxMsgs := (hi.hand_place hx).1
  have hplace : place msg = .hands c := (hi.hand_place hx).2
  have hqueue : msg ∉ queue := fun hm => by simpa [hplace] using ((hi.inQueue msg).mp hm).2
  have hnext : mq.next msg = none := (hi.hands c _ hx).2 rfl
  -- only the successor of the last cell changes
  have hsame (i : Nat) (hm : i ∉ queue) : (mq.linkTail msg).next i = mq.next i := by
    unfold RtMessageQueue.linkTail
    dsimp only
    cases ht : mq.msgQueueTail with
    | none => rfl
    | some last =>
      have hlast : last ∈ queue := List.mem_of_getLast? (hi.tail.symm.trans ht)
      exact Function.update_of_ne (ne_of_mem_of_not_mem hlast hm).symm _ _
  have hlinked : Chain.Linked (mq.linkTail msg).next (mq.linkTail msg).msgQueueHead (queue ++ [msg]) := by
    have htail := hi.tail
    have hhead := hi.linkedQueue.head
    unfold RtMessageQueue.linkTail
    dsimp only
    rcases List.eq_nil_or_concat queue with rfl | ⟨l, last, rfl⟩
    · rw [htail, hhead]
      exact ⟨rfl, hnext⟩
    · rw [List.concat_eq_append] at *
      rw [htail, List.getLast?_concat, if_neg (by rw [hhead]; simp)]
      exact hi.linkedQueue.append hi.queueNodup hqueue hnext
  refine
    { hi with
      linkedFree := hi.linkedFree.congr fun i hm => hsame i fun hq => ?_
      linkedQueue := hlinked
      tail := by simp [RtMessageQueue.linkTail]
      entry := by simp [hi.entry]
      queueNodup := List.nodup_append'.mpr ⟨hi.queueNodup, List.nodup_singleton _, by simpa using hqueue⟩
      inFree := mem_stay hi.inFree (by simp [hplace]) (by simp)
      inQueue := mem_enter hi.inQueue hmsg fun i => by simp [or_comm]
      inHand := hand_leave hi.inHand hx (by simp)
      messages := List.rel_append (forall_contains hi.messages rfl fun _ _ => rfl)
        (.cons ((hi.hands c _ hx).1.congr rfl rfl) .nil)
      hands := hands_update (fun y hy => by cases hy) fun c' hcc y hy => ?_ }
  · have := ((hi.inFree i).mp hm).2.symm.trans ((hi.inQueue i).mp hq).2
    cases this
  · refine (hi.hands c' y hy).congr rfl (hsame _ fun hq => ?_) rfl rfl
    have := (hi.hand_place hy).2.symm.trans ((hi.inQueue _).mp hq).2
    cases this

theorem Cells.link (hi : Cells mq hand d place free queue) (hx : hand c = some (.link msg buffer urgent)) :
    ∃ place' queue', Cells { mq.link msg urgent with entry := mq.entry + 1 } (Function.update hand c none)
      (d.apply (if urgent then .prepend buffer else .append buffer)) place' free queue' := by
  cases urgent with
  | true => exact ⟨_, _, hi.linkHead hx⟩
  | false => exact ⟨_, _, hi.linkTail hx⟩

omit [DecidableEq γ] in
/-- One round of the loop of `rt_mq_control`; `entry` is not kept up. -/
theorem Cells.release_head {rest : List Nat} (hi : Cells { mq with entry := (msg :: rest).length } hand d place free
      (msg :: rest)) :
    Cells { (mq.moveHead msg).putFree msg with entry := rest.length } hand { d with messages := d.messages.tail }
      (Function.update place msg .free) (msg :: free) rest := by
  obtain ⟨hnot, hnodup⟩ := List.nodup_cons.mp hi.queueNodup
  obtain ⟨hmsg, hplace⟩ := (hi.inQueue msg).mp (List.mem_cons_self ..)
  obtain ⟨message, messages, hfirst, hmessages, hd⟩ := List.forall₂_cons_left_iff.mp hi.messages
  have hfree : msg ∉ free := fun hm => by simpa [hplace] using ((hi.inFree msg).mp hm).2
  refine
    { hi with
      linkedFree := hi.linkedFree.push hfree
      linkedQueue := hi.linkedQueue.2.update hnot _
      tail := ?_
      entry := rfl
      freeNodup := List.nodup_cons.mpr ⟨hfree, hi.freeNodup⟩
      queueNodup := hnodup
      inFree := mem_enter hi.inFree hmsg fun i => List.mem_cons
      inQueue := mem_leave hi.inQueue (fun i => List.mem_cons) hnot (by simp)
      inHand := fun c i => ?_
      messages := ?_
      hands := fun c y hy => ?_ }
  · show (if mq.msgQueueTail = some msg then none else mq.msgQueueTail) = _
    rw [show mq.msgQueueTail = _ from hi.tail]
    exact getLast?_tail hnot
  · rw [hi.inHand c i]
    show i < mq.maxMsgs ∧ _ ↔ i < mq.maxMsgs ∧ _
    by_cases him : i = msg
    · subst him
      simp [hplace]
    · simp [him]
  · rw [hd]
    exact forall_contains hmessages rfl fun _ _ => rfl
  · exact (hi.hands c y hy).congr rfl (Function.update_of_ne (hi.hand_ne hy (by simp [hplace])) ..) rfl rfl

omit [DecidableEq γ] in
theorem Cells.release_loop {n : Nat} (hn : queue.length ≤ n)
    (hi : Cells { mq with entry := queue.length } hand d place free queue) :
    ∃ mq' place' free', mq.release n = some mq' ∧
      Cells { mq' with entry := 0 } hand { d with messages := [] } place' free' [] := by
  induction queue generalizing n mq d place free with
  | nil =>
    obtain hd : d.messages = [] := List.forall₂_nil_left_iff.mp hi.messages
    have hhead : mq.msgQueueHead = none := hi.linkedQueue
    refine ⟨mq, place, free, ?_, ?_⟩
    · cases n <;> simp [RtMessageQueue.release, hhead]
    · rw [← hd]
      exact hi
  | cons msg rest ih =>
    obtain ⟨n, rfl⟩ := Nat.exists_eq_add_of_le' (Nat.lt_of_lt_of_le (Nat.succ_pos _) hn)
    have hhead : mq.msgQueueHead = some msg := hi.linkedQueue.head
    obtain ⟨mq', place', free', hrel, hcells⟩ := ih (Nat.le_of_succ_le_succ hn) hi.release_head
    refine ⟨mq', place', free', ?_, hcells⟩
    rw [RtMessageQueue.release, hhead]
    exact hrel

omit [DecidableEq γ] in
theorem release_msgSize {n : Nat} (hs : mq.release n = some mq') : mq'.msgSize = mq.msgSize := by
  induction n generalizing mq with
  | zero =>
    rw [RtMessageQueue.release] at hs
    split_ifs at hs
    rw [Option.some.inj hs]
  | succ n ih =>
    rw [RtMessageQueue.release] at hs
    split at hs
    · rw [Option.some.inj hs]
    · rw [ih hs]
      rfl

theorem Cells.release (hi : Cells mq hand d place free queue) :
    ∃ mq' place' free', mq.release mq.maxMsgs = some mq' ∧
      Cells { mq' with entry := 0 } hand (d.apply .clear) place' free' [] := by
  have hlen : queue.length ≤ mq.maxMsgs := by
    have hsub : queue ⊆ List.range mq.maxMsgs := fun i hm => List.mem_range.mpr ((hi.inQueue i).mp hm).1
    simpa using (List.subperm_of_subset hi.queueNodup hsub).length_le
  have hloop : Cells { mq with entry := queue.length } hand d place free queue := by
    rw [← hi.entry]
    exact hi
  exact hloop.release_loop hlen

end cells

/-! ## Steps -/

/-- A thread that waits has a message that fits into a cell. -/
def MqCall.Fits (msgSize : Nat) : MqCall → Prop
  | .send buffer _ _ => buffer.length ≤ msgSize
  | _ => True

/-- The invariant, with the deque. -/
structure MqInv (s : MqState τ ν) (d : Deque (τ ⊕ ν)) : Prop where
  threads : s.threads.Ok MqCall.place
  fits : ∀ t call, s.threads.view.call t = some call → call.Fits s.mq.msgSize
  cells : ∃ place free queue, Cells s.mq s.hand d place free queue

section steps

variable {flag : IpcFlag} {s s' : MqState τ ν} {d : Deque (τ ⊕ ν)} {c : τ ⊕ ν} {t : τ} {x : MqHand}
  {e : MqEvent (τ ⊕ ν)} {buffer : List UInt8} {urgent : Bool} {size : Nat} {timeout delta : BitVec 32}

omit [DecidableEq τ] [DecidableEq ν] in
theorem hand_congr {w : IpcThreads τ MqList MqCall}
    (hcall : ∀ u, (w.view.call u).bind MqCall.hand? = (s.threads.view.call u).bind MqCall.hand?) :
    { s with threads := w }.hand = s.hand := by
  funext c
  cases c with
  | inl u => exact hcall u
  | inr n => rfl

theorem hand_setHand (s : MqState τ ν) (c : τ ⊕ ν) (x : Option MqHand) :
    (s.setHand c x).hand = Function.update s.hand c x := by
  funext c'
  cases c with
  | inl t =>
    cases c' with
    | inl u =>
      show ((IpcThreads.view (s.threads.setPc t _)).call u).bind _ = _
      rw [IpcThreads.view_setPc]
      by_cases hut : u = t
      · subst hut
        cases x <;> simp [WaitPc.call, MqCall.hand?]
      · have hne : (Sum.inl u : τ ⊕ ν) ≠ .inl t := fun he => hut (Sum.inl.inj he)
        simp [hut, hne, MqState.hand]
    | inr n => rfl
  | inr n =>
    cases c' with
    | inl u => rfl
    | inr m =>
      show Function.update s.isr n x m = _
      by_cases hmn : m = n
      · subst hmn
        simp
      · have hne : (Sum.inr m : τ ⊕ ν) ≠ .inr n := fun he => hmn (Sum.inr.inj he)
        simp [hmn, hne, MqState.hand]

@[simp] theorem mq_setHand (s : MqState τ ν) (c : τ ⊕ ν) (x : Option MqHand) : (s.setHand c x).mq = s.mq := by
  cases c <;> rfl

/-- The caller may execute: a thread runs. -/
def Active (s : MqState τ ν) : τ ⊕ ν → Prop
  | .inl t => s.threads.Runs t
  | .inr _ => True

theorem ok_setHand (hok : s.threads.Ok MqCall.place) (hact : Active s c) (x : Option MqHand) :
    (s.setHand c x).threads.Ok MqCall.place := by
  cases c with
  | inl t => exact hok.setPc hact _
  | inr n => exact hok

theorem fits_setHand {n : Nat} (hfits : ∀ t call, s.threads.view.call t = some call → call.Fits n) (c : τ ⊕ ν)
    (x : Option MqHand) (u : τ) (call : MqCall) (hcall : (s.setHand c x).threads.view.call u = some call) :
    call.Fits n := by
  cases c with
  | inl t =>
    have hview : (s.setHand (.inl t) x).threads.view =
        s.threads.view.setCall t (x.map MqCall.busy) := by
      cases x <;> exact IpcThreads.view_setPc ..
    rw [hview] at hcall
    by_cases hut : u = t
    · subst hut
      rw [IpcView.setCall_call, Function.update_self] at hcall
      obtain ⟨y, -, rfl⟩ := Option.map_eq_some_iff.mp hcall
      trivial
    · exact hfits u call ((Function.update_of_ne hut ..).symm.trans hcall)
  | inr n => exact hfits u call hcall

theorem MqInv.act {mq : RtMessageQueue} {x : Option MqHand} {place : Nat → Place (τ ⊕ ν)} {free queue : List Nat}
    (hok : s.threads.Ok MqCall.place) (hfits : ∀ t call, s.threads.view.call t = some call → call.Fits mq.msgSize)
    (hact : Active s c) (hcells : Cells mq (Function.update s.hand c x) d place free queue) :
    MqInv ({ s with mq := mq }.setHand c x) d := by
  have hact' : Active { s with mq := mq } c := by cases c <;> exact hact
  refine ⟨ok_setHand (s := { s with mq := mq }) hok hact' x, ?_, place, free, queue, ?_⟩
  · rw [mq_setHand]
    exact fits_setHand (s := { s with mq := mq }) hfits c x
  · rw [mq_setHand, hand_setHand]
    exact hcells

omit [DecidableEq ν] in
theorem hand_resumeFirst (hi : s.threads.Ok MqCall.place) (q : MqList) :
    { s with threads := s.threads.resumeFirst q }.hand = s.hand :=
  hand_congr fun u => by rw [(IpcThreads.resumeFirst_spec hi q).2.1, IpcView.resumeFirst_call]

omit [DecidableEq ν] in
theorem active_resumeFirst (hi : s.threads.Ok MqCall.place) (hact : Active s c) (q : MqList) :
    Active { s with threads := s.threads.resumeFirst q } c := by
  cases c with
  | inl t => exact ((IpcThreads.resumeFirst_spec hi q).2.2 t).mpr hact
  | inr n => trivial

omit [DecidableEq ν] in
theorem fits_resumeFirst {n : Nat} (hi : s.threads.Ok MqCall.place)
    (hfits : ∀ t call, s.threads.view.call t = some call → call.Fits n) (q : MqList) (t : τ) (call : MqCall)
    (hcall : (s.threads.resumeFirst q).view.call t = some call) : call.Fits n := by
  rw [(IpcThreads.resumeFirst_spec hi q).2.1, IpcView.resumeFirst_call] at hcall
  exact hfits t call hcall

theorem MqInv.quiet (hi : MqInv s d) (hok : s'.threads.Ok MqCall.place) (hmq : s'.mq = s.mq)
    (hhand : s'.hand = s.hand) (hfits : ∀ t call, s'.threads.view.call t = some call → call.Fits s.mq.msgSize) :
    MqInv s' (d.apply .quiet) := by
  refine ⟨hok, hmq ▸ hfits, ?_⟩
  rw [hmq, hhand]
  exact hi.cells

theorem handStep_inv (hi : MqInv s d) (hact : Active s c) (hx : s.hand c = some x) :
    MqInv (handStep s c x).1 (d.apply (handStep s c x).2) ∧
      ∀ c' size bytes, (handStep s c x).2 = .deliver c' size bytes →
        ∃ message, d.taken c' = some message ∧ Delivers s.mq.msgSize size bytes message := by
  obtain ⟨place, free, queue, hcells⟩ := hi.cells
  cases x with
  | fill msg buffer urgent =>
    have hsize : (s.mq.fill msg buffer urgent).msgSize = s.mq.msgSize := by cases urgent <;> rfl
    exact ⟨MqInv.act hi.threads (hsize ▸ hi.fits) hact (hcells.fill hx), nofun⟩
  | link msg buffer urgent =>
    obtain ⟨place', queue', hlink⟩ := hcells.link hx
    obtain ⟨hmsg, hplace⟩ := hcells.hand_place hx
    have hsize : (s.mq.link msg urgent).msgSize = s.mq.msgSize := by cases urgent <;> rfl
    have hentry : (s.mq.link msg urgent).entry = s.mq.entry := by cases urgent <;> rfl
    have hlt : s.mq.entry < rtMqEntryMax := hcells.entry_lt hmsg (by rw [hplace]; simp)
    simp only [handStep]
    rw [hentry, if_pos hlt]
    refine ⟨?_, by cases urgent <;> exact nofun⟩
    rw [← hand_resumeFirst hi.threads .receivers] at hlink
    exact MqInv.act (IpcThreads.resumeFirst_spec hi.threads .receivers).1
      (fits_resumeFirst hi.threads (hsize ▸ hi.fits) .receivers) (active_resumeFirst hi.threads hact .receivers) hlink
  | copy msg size =>
    obtain ⟨hcopy, message, htaken, hdel⟩ := hcells.copy hx
    refine ⟨MqInv.act hi.threads hi.fits hact hcopy, ?_⟩
    rintro c' size' bytes he
    cases he
    exact ⟨message, htaken, hdel⟩
  | putFree msg =>
    have hput := hcells.putFree hx
    rw [← hand_resumeFirst hi.threads .senders] at hput
    exact ⟨MqInv.act (IpcThreads.resumeFirst_spec hi.threads .senders).1
      (fits_resumeFirst hi.threads hi.fits .senders) (active_resumeFirst hi.threads hact .senders) hput, nofun⟩

theorem takeFree_inv (hi : MqInv s d) (hact : Active s c) (hnone : s.hand c = none)
    (hsize : buffer.length ≤ s.mq.msgSize) (hs : takeFree s c buffer urgent = some s') :
    MqInv s' (d.apply .quiet) := by
  obtain ⟨msg, hfree, rfl⟩ := Option.map_eq_some_iff.mp hs
  obtain ⟨place, free, queue, hcells⟩ := hi.cells
  obtain ⟨place', free', htake⟩ := hcells.take hfree hnone hsize urgent
  exact MqInv.act hi.threads hi.fits hact htake

theorem takeHead_inv (hi : MqInv s d) (hact : Active s c) (hnone : s.hand c = none)
    (hs : takeHead s c size = some (s', e)) : MqInv s' (d.apply e) ∧ e = .take c := by
  obtain ⟨msg, hhead, heq⟩ := Option.map_eq_some_iff.mp hs
  obtain ⟨rfl, rfl⟩ := Prod.mk.inj heq
  obtain ⟨place, free, queue, hcells⟩ := hi.cells
  obtain ⟨place', queue', hunlink⟩ := hcells.unlink hhead hnone size
  exact ⟨MqInv.act hi.threads hi.fits hact hunlink, rfl⟩

theorem MqInv.return (hi : MqInv s d) (hr : s.threads.Runs t) (hnone : s.hand (.inl t) = none) :
    MqInv (s.setHand (.inl t) none) (d.apply .quiet) := by
  refine hi.quiet (ok_setHand (c := .inl t) hi.threads hr none) (mq_setHand ..) ?_ (fits_setHand hi.fits _ _)
  rw [hand_setHand, ← hnone, Function.update_eq_self]

omit [DecidableEq ν] in
theorem hand_setError (s : MqState τ ν) (t : τ) (code : Int) : (s.setError t code).hand = s.hand :=
  hand_congr fun u => by rw [IpcThreads.view_setError]; rfl

omit [DecidableEq ν] in
theorem MqInv.setError (hi : MqInv s d) (hr : s.threads.Runs t) (code : Int) : MqInv (s.setError t code) d := by
  refine ⟨hi.threads.setError hr code, fun u call hcall => ?_, ?_⟩
  · rw [MqState.setError, IpcThreads.view_setError] at hcall
    exact hi.fits u call hcall
  · rw [hand_setError]
    exact hi.cells

theorem MqInv.suspend {timed : Bool} {call : MqCall} {w : IpcThreads τ MqList MqCall} (hi : MqInv s d)
    (hr : s.threads.Runs t) (hnone : s.hand (.inl t) = none) (hcall : call.hand? = none)
    (hfits : call.Fits s.mq.msgSize)
    (hs : (s.setError t rtEok).threads.suspendOn t call.place flag timed call = some w) :
    MqInv { s.setError t rtEok with threads := w } (d.apply .quiet) := by
  have herr : (s.setError t rtEok).threads.view.error t = rtEok := IpcThreads.error_setError _ t rtEok
  obtain ⟨hok, i, -, hview⟩ := IpcThreads.suspendOn_spec (hi.threads.setError hr rtEok) hr herr rfl hs
  rw [show (s.threads.setError t rtEok).view = s.threads.view.setError t rtEok from
    IpcThreads.view_setError ..] at hview
  have hnew (u : τ) : w.view.call u = if u = t then some call else s.threads.view.call u := by
    rw [hview]
    by_cases hut : u = t <;> simp [hut]
  refine hi.quiet hok rfl (hand_congr fun u => ?_) fun u call' hc => ?_
  · rw [hnew]
    split_ifs with hut
    · subst hut
      exact hcall.trans hnone.symm
    · rfl
  · rw [hnew] at hc
    split_ifs at hc
    · obtain rfl := Option.some.inj hc
      exact hfits
    · exact hi.fits u call' hc

theorem mqSendLoop_inv (hi : MqInv s d) (hr : s.threads.Runs t) (hnone : s.hand (.inl t) = none)
    (hsize : buffer.length ≤ s.mq.msgSize) (hs : mqSendLoop flag s t buffer timeout delta = some s') :
    MqInv s' (d.apply .quiet) := by
  unfold mqSendLoop at hs
  cases htake : takeFree s (.inl t) buffer false with
  | some s₁ =>
    rw [htake] at hs
    obtain rfl := Option.some.inj hs
    exact takeFree_inv (c := .inl t) hi hr hnone hsize htake
  | none =>
    rw [htake] at hs
    dsimp only at hs
    by_cases htime : timeout = 0
    · rw [if_pos htime] at hs
      obtain rfl := Option.some.inj hs
      exact (hi.setError hr rtEok).return hr ((congrFun (hand_setError s t rtEok) _).trans hnone)
    · rw [if_neg htime] at hs
      obtain ⟨w, hw, rfl⟩ := Option.map_eq_some_iff.mp hs
      exact hi.suspend hr hnone (by rfl) (by exact hsize) hw

theorem mqRecvLoop_inv (hi : MqInv s d) (hr : s.threads.Runs t) (hnone : s.hand (.inl t) = none)
    (hs : mqRecvLoop flag s t size timeout delta = some (s', e)) :
    MqInv s' (d.apply e) ∧ (e = .quiet ∨ e = .take (.inl t)) := by
  unfold mqRecvLoop at hs
  by_cases hempty : s.mq.entry = 0
  · rw [if_pos hempty] at hs
    dsimp only at hs
    by_cases htime : timeout = 0
    · rw [if_pos htime] at hs
      obtain ⟨rfl, rfl⟩ := Prod.mk.inj (Option.some.inj hs)
      have herr : ((s.setError t rtEok).setError t rtEtimeout).hand (.inl t) = none := by
        rw [hand_setError, hand_setError, hnone]
      exact ⟨((hi.setError hr rtEok).setError hr rtEtimeout).return hr herr, .inl rfl⟩
    · rw [if_neg htime] at hs
      obtain ⟨w, hw, heq⟩ := Option.map_eq_some_iff.mp hs
      obtain ⟨rfl, rfl⟩ := Prod.mk.inj heq
      exact ⟨hi.suspend hr hnone (by rfl) (by trivial) hw, .inl rfl⟩
  · rw [if_neg hempty] at hs
    obtain ⟨hinv, he⟩ := takeHead_inv (c := .inl t) hi hr hnone hs
    exact ⟨hinv, .inr he⟩

theorem mqTryTake_inv (hi : MqInv s d) (hact : Active s c) (hnone : s.hand c = none) :
    MqInv (mqTryTake s c buffer urgent) (d.apply .quiet) := by
  unfold mqTryTake
  by_cases hsize : s.mq.msgSize < buffer.length
  · rw [if_pos hsize]
    exact hi.quiet hi.threads rfl rfl hi.fits
  · rw [if_neg hsize]
    cases htake : takeFree s c buffer urgent with
    | none => exact hi.quiet hi.threads rfl rfl hi.fits
    | some s' => exact takeFree_inv hi hact hnone (Nat.le_of_not_lt hsize) htake

theorem rtMqReset_inv (hi : MqInv s d) : ∃ s', rtMqReset s = some s' ∧ MqInv s' (d.apply .clear) := by
  obtain ⟨place, free, queue, hcells⟩ := hi.cells
  obtain ⟨mq', place', free', hrel, hcells'⟩ := hcells.release
  obtain ⟨hok, -, -⟩ := IpcThreads.resumeAll_spec hi.threads .receivers
  obtain ⟨hok', -, -⟩ := IpcThreads.resumeAll_spec hok .senders
  have hsize : mq'.msgSize = s.mq.msgSize := release_msgSize hrel
  refine ⟨_, by rw [rtMqReset, hrel]; rfl, hok', fun u call hcall => ?_, place', free', [], ?_⟩
  · rw [IpcThreads.resumeAll_call, IpcThreads.resumeAll_call] at hcall
    exact hsize ▸ hi.fits u call hcall
  have hhand : { s with threads := (s.threads.resumeAll .receivers).resumeAll .senders }.hand = s.hand :=
    hand_congr fun u => by rw [IpcThreads.resumeAll_call, IpcThreads.resumeAll_call]
  rw [← hhand] at hcells'
  exact hcells'

theorem MqInv.env {a : EnvAction τ} {w : IpcThreads τ MqList MqCall} (hi : MqInv s d)
    (hw : s.threads.envStep a = some w) : MqInv { s with threads := w } (d.apply .quiet) := by
  obtain ⟨hok, heff⟩ := IpcThreads.envStep_spec hi.threads hw
  have hcall : w.view.call = s.threads.view.call := by
    rcases heff with ⟨t, -, hview, -⟩ | ⟨-, hview⟩
    · rw [hview]
      rfl
    · rw [hview]
  exact hi.quiet hok rfl (hand_congr fun u => by rw [hcall]) (hcall ▸ hi.fits)

/-- What a caller is delivered is what it has taken. -/
def DeliversTaken (mq : RtMessageQueue) (d : Deque (τ ⊕ ν)) (e : MqEvent (τ ⊕ ν)) : Prop :=
  ∀ c size bytes, e = .deliver c size bytes →
    ∃ message, d.taken c = some message ∧ Delivers mq.msgSize size bytes message

/-- Every step keeps the invariant, and delivers what the caller has taken. -/
theorem mqStep_inv {a : MqAction τ ν} (hi : MqInv s d) (hs : mqStep flag s a = some (s', e)) :
    MqInv s' (d.apply e) ∧ DeliversTaken s.mq d e := by
  have hcaller {t : τ} (hc : s.threads.caller = some t) : s.hand (.inl t) = none := by
    show (s.threads.view.call t).bind MqCall.hand? = none
    rw [IpcThreads.caller_call hc]
    rfl
  have hreturning {t : τ} {call : MqCall} (hc : s.threads.returning = some (t, call)) :
      s.hand (.inl t) = call.hand? := by
    show (s.threads.view.call t).bind MqCall.hand? = _
    rw [IpcThreads.returning_call hc]
    rfl
  cases a with
  | send buffer timeout =>
    obtain ⟨t, hc, hs⟩ := Option.bind_eq_some_iff.mp hs
    obtain ⟨s₁, hsend, heq⟩ := Option.map_eq_some_iff.mp hs
    obtain ⟨rfl, rfl⟩ := Prod.mk.inj heq
    refine ⟨?_, nofun⟩
    unfold rtMqSendWait at hsend
    split_ifs at hsend with hsize hfull
    · obtain rfl := Option.some.inj hsend
      exact hi.quiet hi.threads rfl rfl hi.fits
    · obtain rfl := Option.some.inj hsend
      exact hi.quiet hi.threads rfl rfl hi.fits
    · exact mqSendLoop_inv hi (.inl hc) (hcaller hc) (Nat.le_of_not_lt hsize) hsend
  | urgent buffer =>
    obtain ⟨t, hc, heq⟩ := Option.map_eq_some_iff.mp hs
    obtain ⟨rfl, rfl⟩ := Prod.mk.inj heq
    exact ⟨mqTryTake_inv (c := .inl t) hi (.inl hc) (hcaller hc), nofun⟩
  | recv size timeout =>
    obtain ⟨t, hc, hs⟩ := Option.bind_eq_some_iff.mp hs
    unfold rtMqRecv at hs
    split_ifs at hs
    · obtain ⟨rfl, rfl⟩ := Prod.mk.inj (Option.some.inj hs)
      exact ⟨hi.quiet hi.threads rfl rfl hi.fits, nofun⟩
    · obtain ⟨hinv, rfl | rfl⟩ := mqRecvLoop_inv hi (.inl hc) (hcaller hc) hs
      all_goals exact ⟨hinv, nofun⟩
  | goOn =>
    obtain ⟨⟨t, call⟩, hc, hs⟩ := Option.bind_eq_some_iff.mp hs
    cases call with
    | send buffer timeout delta =>
      obtain ⟨s₁, hsend, heq⟩ := Option.map_eq_some_iff.mp hs
      obtain ⟨rfl, rfl⟩ := Prod.mk.inj heq
      refine ⟨?_, nofun⟩
      unfold mqSendGoOn at hsend
      split_ifs at hsend with herr
      · obtain rfl := Option.some.inj hsend
        exact hi.return (.inr ⟨_, hc⟩) (hreturning hc)
      · exact mqSendLoop_inv hi (.inr ⟨_, hc⟩) (hreturning hc) (hi.fits t _ (IpcThreads.returning_call hc)) hsend
    | recv size timeout delta =>
      dsimp only at hs
      unfold mqRecvGoOn at hs
      split_ifs at hs with herr
      · obtain ⟨rfl, rfl⟩ := Prod.mk.inj (Option.some.inj hs)
        exact ⟨hi.return (.inr ⟨_, hc⟩) (hreturning hc), nofun⟩
      · obtain ⟨hinv, rfl | rfl⟩ := mqRecvLoop_inv hi (.inr ⟨_, hc⟩) (hreturning hc) hs
        all_goals exact ⟨hinv, nofun⟩
    | busy x =>
      obtain ⟨rfl, rfl⟩ := Prod.mk.inj (Option.some.inj hs)
      exact handStep_inv (c := .inl t) hi (.inr ⟨_, hc⟩) (hreturning hc)
  | isrSend n buffer | isrUrgent n buffer =>
    simp only [mqStep] at hs
    split_ifs at hs with hnone
    obtain ⟨rfl, rfl⟩ := Prod.mk.inj (Option.some.inj hs)
    exact ⟨mqTryTake_inv (c := .inr n) hi trivial hnone, nofun⟩
  | isrRecv n size =>
    simp only [mqStep] at hs
    split_ifs at hs with hnone
    unfold mqRecvIsr at hs
    split_ifs at hs
    · obtain ⟨rfl, rfl⟩ := Prod.mk.inj (Option.some.inj hs)
      exact ⟨hi.quiet hi.threads rfl rfl hi.fits, nofun⟩
    · obtain ⟨hinv, rfl⟩ := takeHead_inv (c := .inr n) hi trivial hnone hs
      exact ⟨hinv, nofun⟩
  | isrGoOn n =>
    obtain ⟨x, hx, heq⟩ := Option.map_eq_some_iff.mp hs
    obtain ⟨rfl, rfl⟩ := Prod.mk.inj heq
    exact handStep_inv (c := .inr n) hi trivial hx
  | reset =>
    obtain ⟨s₁, hreset, heq⟩ := Option.map_eq_some_iff.mp hs
    obtain ⟨rfl, rfl⟩ := Prod.mk.inj heq
    obtain ⟨s₂, hreset', hinv⟩ := rtMqReset_inv hi
    obtain rfl := Option.some.inj (hreset.symm.trans hreset')
    exact ⟨hinv, nofun⟩
  | tick =>
    obtain ⟨rfl, rfl⟩ := Prod.mk.inj (Option.some.inj hs)
    exact ⟨hi.quiet hi.threads rfl rfl hi.fits, nofun⟩
  | env a =>
    obtain ⟨w, hw, heq⟩ := Option.map_eq_some_iff.mp hs
    obtain ⟨rfl, rfl⟩ := Prod.mk.inj heq
    exact ⟨hi.env hw, nofun⟩

end steps

/-! ## All runs -/

/-- The loop of `rt_mq_init` puts the cells into the free list, the last one first. -/
theorem init_free (mq : RtMessageQueue) (hfree : mq.msgQueueFree = none) (n : Nat) :
    ∃ next free, (List.range n).foldl RtMessageQueue.putFree mq = { mq with next := next, msgQueueFree := free } ∧
      Chain.Linked next free (List.range n).reverse := by
  induction n with
  | zero => exact ⟨mq.next, mq.msgQueueFree, rfl, hfree⟩
  | succ n ih =>
    obtain ⟨next, free, heq, hlinked⟩ := ih
    rw [List.range_succ, List.foldl_append, List.reverse_append, heq]
    exact ⟨_, _, rfl, hlinked.push (by simp)⟩

theorem init_cells {γ : Type} (body : Nat → Nat → UInt8) (msgSize poolSize : BitVec 32) :
    Cells (γ := γ) (rtMqInit body msgSize poolSize) (fun _ => none) { messages := [], taken := fun _ => none }
      (fun _ => .free) (List.range (rtMqInit body msgSize poolSize).maxMsgs).reverse [] := by
  unfold rtMqInit
  dsimp only
  have hmax : poolSize.toNat / ((rtAlign msgSize rtAlignSize).toNat % 65536 + 4) % 65536 < 65536 :=
    Nat.mod_lt _ (by decide)
  generalize poolSize.toNat / ((rtAlign msgSize rtAlignSize).toNat % 65536 + 4) % 65536 = n at hmax
  obtain ⟨next, free, heq, hlinked⟩ := init_free (mqEmpty body ((rtAlign msgSize rtAlignSize).toNat % 65536) n) rfl n
  rw [heq]
  exact
    { max := hmax
      linkedFree := hlinked
      linkedQueue := rfl
      tail := rfl
      entry := rfl
      freeNodup := List.nodup_reverse.mpr List.nodup_range
      queueNodup := List.nodup_nil
      inFree := fun i => by simp
      inQueue := fun i => by simp
      inHand := fun c i => by simp
      messages := .nil
      hands := nofun }

section runs

variable {flag : IpcFlag} {body : Nat → Nat → UInt8} {msgSize poolSize : BitVec 32}
  {h : History (MqState τ ν) (MqAction τ ν)} {s : MqState τ ν}

theorem mqInv (hrun : (messageQueue τ ν flag body msgSize poolSize).Run h s) : MqInv s (deque flag h) := by
  refine hrun.always (I := fun h s => MqInv s (deque flag h)) ?_ ?_
  · rintro s ⟨hthreads, hisr, hmq⟩
    have hcall (t : τ) : s.threads.view.call t = none := by
      show (s.threads.pc t).call = none
      rw [hthreads.pc]
      rfl
    have hhand : s.hand = fun _ => none := by
      funext c
      cases c with
      | inl t => exact congrArg (·.bind MqCall.hand?) (hcall t)
      | inr n => exact hisr n
    refine ⟨hthreads.ok, fun t call hc => ?_, ?_⟩
    · rw [hcall t] at hc
      cases hc
    · rw [hmq, hhand]
      exact ⟨_, _, _, init_cells body msgSize poolSize⟩
  · rintro h s a s' - hi hs
    obtain ⟨⟨s₁, e⟩, hstep, rfl⟩ := Option.map_eq_some_iff.mp hs
    have hinv := (mqStep_inv hi hstep).1
    rw [deque, hstep]
    exact hinv

/-- Where a cell is, if the free list and the queue are these. -/
def At (s : MqState τ ν) (free queue : List Nat) (i : Nat) : Place (τ ⊕ ν) → Prop
  | .free => i ∈ free
  | .queue => i ∈ queue
  | .hands c => (s.hand c).map MqHand.msg = some i

theorem reset_returns (hrun : (messageQueue τ ν flag body msgSize poolSize).Run h s) :
    ∃ s', mqStep flag s .reset = some (s', .clear) := by
  obtain ⟨s', hreset, -⟩ := rtMqReset_inv (mqInv hrun)
  exact ⟨s', by rw [mqStep, hreset]; rfl⟩

/-- In every state: every cell is in exactly one of the free list, the queue, and the hands of one caller; the queue
has `entry` cells, and the tail is the last one; their messages are those of the deque to which every send appends,
before which every urgent send puts its message, and of which every receive removes the first one. A caller that asks
for `size` bytes is delivered that many, at most `msg_size`, and they agree with the message that it has taken as far
as both go. -/
theorem message_queue (hrun : (messageQueue τ ν flag body msgSize poolSize).Run h s) :
    (∃ free queue : List Nat, Chain.Linked s.mq.next s.mq.msgQueueFree free ∧
      Chain.Linked s.mq.next s.mq.msgQueueHead queue ∧ free.Nodup ∧ queue.Nodup ∧
      (∀ i < s.mq.maxMsgs, ∃! p, At s free queue i p) ∧ (∀ i p, At s free queue i p → i < s.mq.maxMsgs) ∧
      s.mq.entry = queue.length ∧ s.mq.msgQueueTail = queue.getLast? ∧
      (s.mq.msgQueueTail = none ↔ s.mq.msgQueueHead = none) ∧
      List.Forall₂ s.mq.Contains queue (deque flag h).messages) ∧
    Throughout (fun h s a => ∀ s' c size bytes, mqStep flag s a = some (s', .deliver c size bytes) →
      ∃ message, (deque flag h).taken c = some message ∧ Delivers s.mq.msgSize size bytes message) h := by
  obtain ⟨place, free, queue, hcells⟩ := (mqInv hrun).cells
  refine ⟨⟨free, queue, hcells.linkedFree, hcells.linkedQueue, hcells.freeNodup, hcells.queueNodup, ?_, ?_,
    hcells.entry, hcells.tail, ?_, hcells.messages⟩, ?_⟩
  · intro i hlt
    have hat (p : Place (τ ⊕ ν)) : At s free queue i p ↔ place i = p := by
      cases p with
      | free => exact (hcells.inFree i).trans (and_iff_right hlt)
      | queue => exact (hcells.inQueue i).trans (and_iff_right hlt)
      | hands c => exact (hcells.inHand c i).trans (and_iff_right hlt)
    exact ⟨place i, (hat _).mpr rfl, fun p hp => ((hat p).mp hp).symm⟩
  · intro i p hp
    cases p with
    | free => exact ((hcells.inFree i).mp hp).1
    | queue => exact ((hcells.inQueue i).mp hp).1
    | hands c => exact ((hcells.inHand c i).mp hp).1
  · rw [hcells.tail, hcells.linkedQueue.head, List.getLast?_eq_none_iff, List.head?_eq_none_iff]
  · refine System.Run.throughout_always (I := fun h s => MqInv s (deque flag h)) (fun _ _ => mqInv) ?_ hrun
    rintro h s a - - hi - s' c size bytes hs
    exact (mqStep_inv hi hs).2 c size bytes rfl

/-- A pool with room for two messages of four bytes. -/
def mqStart : MqState Bool Unit where
  threads :=
    { kernel :=
        { tcb := twoRunning.tcb
          table := twoRunning.table
          group := twoRunning.group
          current := some true
          currentPriority := twoRunning.currentPriority
          lockNest := 0
          waiting := fun _ => []
          defunct := [] }
      timer := fun _ => false
      pc := fun _ => .idle }
  isr := fun _ => none
  mq := rtMqInit (fun _ _ => 0) 4 16
  tick := 0

theorem mqInit_start : MqInit (fun _ _ => 0) 4 16 mqStart where
  threads :=
    { sched := by decide +kernel
      lock := rfl
      waiting := fun _ => rfl
      pc := fun _ => rfl
      running := by decide +kernel }
  isr _ := rfl
  mq := rfl

/-- A message of one byte is sent, and received with four. -/
theorem bytes_not_sent : ∃ h s s' bytes message,
    (messageQueue Bool Unit .fifo (fun _ _ => 0) 4 16).Run h s ∧
    mqStep .fifo s .goOn = some (s', .deliver (.inl true) 4 bytes) ∧
    (deque .fifo h).taken (.inl true) = some message ∧ bytes ≠ message := by
  obtain ⟨h, s, hrun, hstep, htaken⟩ := System.exists_run (S := messageQueue Bool Unit .fifo (fun _ _ => 0) 4 16)
    mqInit_start [.send [9] 0, .goOn, .goOn, .recv 4 0]
    (fun h s => (mqStep .fifo s .goOn).map Prod.snd = some (.deliver (.inl true) 4 [9, 0, 0, 0]) ∧
      (deque .fifo h).taken (.inl true) = some [9]) (by decide +kernel)
  obtain ⟨⟨s', e⟩, hs, rfl⟩ := Option.map_eq_some_iff.mp hstep
  exact ⟨h, s, s', [9, 0, 0, 0], [9], hrun, hs, htaken, by decide⟩

/-- While a thread sends a message, an interrupt puts one before it, which the thread receives. -/
theorem message_queue_run : ∃ h s, (messageQueue Bool Unit .fifo (fun _ _ => 0) 4 16).Run h s ∧
    (deque .fifo h).messages = [[1, 2, 3, 4]] ∧ s.mq.entry = 1 := by
  obtain ⟨h, s, hrun, hmessages⟩ := System.exists_run (S := messageQueue Bool Unit .fifo (fun _ _ => 0) 4 16)
    mqInit_start
    [.send [1, 2, 3, 4] 0, .isrUrgent () [5], .goOn, .isrGoOn (), .goOn, .isrGoOn (), .recv 4 0, .goOn]
    (fun h _ => (deque .fifo h).messages = [[1, 2, 3, 4]]) (by decide +kernel)
  obtain ⟨⟨free, queue, -, -, -, -, -, -, hentry, -, -, hcontents⟩, -⟩ := message_queue hrun
  rw [hmessages] at hcontents
  exact ⟨h, s, hrun, hmessages, hentry.trans hcontents.length_eq⟩

end runs

end ThyristorController.MessageQueues
