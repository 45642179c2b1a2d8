import ThyristorController.Kernel.IpcThreads
import ThyristorController.Lib.Ring

/-!
# A mailbox and its threads (`src/ipc.c`)

`rt_mb_send_wait` and `rt_mb_recv` with any waiting time, from threads and from interrupts, and `rt_mb_control`, over
the scheduler. Each critical section is one step: from the start of a call, or from behind `rt_schedule`, up to the
next call of `rt_schedule` or the return. A thread that is woken tests the mailbox again, and others may have been
there before it.

`mailbox_fifo` says that what is received is what was sent, in order, and who may wait while the mailbox is neither
full nor empty.
-/

namespace ThyristorController.Mailboxes

open Transition SemThreads

/-! ## The system -/

/-- `RT_MB_ENTRY_MAX`. -/
def rtMbEntryMax : Nat := 65535

/-- `struct rt_mailbox`, without the lists. -/
structure RtMailbox where
  msgPool : Nat → BitVec 32
  size : Nat
  entry : Nat
  inOffset : Nat
  outOffset : Nat

/-- What `rt_mb_init` sets; `size` is a field of 16 bits. -/
def rtMbInit (pool : Nat → BitVec 32) (size : Nat) : RtMailbox where
  msgPool := pool
  size := size % 65536
  entry := 0
  inOffset := 0
  outOffset := 0

/-- `mb->parent.suspend_thread` and `mb->suspend_sender_thread`. -/
inductive MbList where
  | receivers | senders
deriving DecidableEq

instance : Fintype MbList := ⟨{.receivers, .senders}, fun q => by cases q <;> decide⟩

/-- The call that a thread is in, with its local variables `timeout` and `tick_delta`. -/
inductive MbCall where
  | send (value timeout delta : BitVec 32)
  | recv (timeout delta : BitVec 32)
deriving DecidableEq

def MbCall.place : MbCall → MbList
  | .send _ _ _ => .senders
  | .recv _ _ => .receivers

structure MailboxState (τ : Type) where
  threads : IpcThreads τ MbList MbCall
  mailbox : RtMailbox
  tick : BitVec 32

/-- The running thread enters a call, or goes on behind `rt_schedule`; an interrupt sends or receives; the
mailbox is reset; the tick counter advances; `env` is everything else. -/
inductive MbAction (τ : Type) where
  | send (value timeout : BitVec 32)
  | recv (timeout : BitVec 32)
  | goOn
  | isrSend (value : BitVec 32)
  | isrRecv
  | reset
  | tick
  | env (a : EnvAction τ)

variable {τ : Type} [DecidableEq τ]

namespace MailboxState

abbrev waiting (s : MailboxState τ) (q : MbList) : List τ := s.threads.view.waiting q

/-- `thread->error = e`. -/
def setError (s : MailboxState τ) (t : τ) (e : Int) : MailboxState τ :=
  { s with threads := s.threads.setError t e }

/-- The thread returns. -/
def leave (s : MailboxState τ) (t : τ) : MailboxState τ := { s with threads := s.threads.setPc t .idle }

end MailboxState

/-- `++ offset; if (offset >= size) offset = 0`. -/
def nextOffset (mb : RtMailbox) (offset : Nat) : Nat :=
  let offset := (offset + 1) % 65536
  if mb.size ≤ offset then 0 else offset

/-- The end of `rt_mb_send_wait`, with its return code. -/
def mbStore (s : MailboxState τ) (value : BitVec 32) : MailboxState τ × Int :=
  let mb := s.mailbox
  let mb := { mb with
    msgPool := Function.update mb.msgPool mb.inOffset value
    inOffset := nextOffset mb mb.inOffset }
  if mb.entry < rtMbEntryMax then
    ({ s with threads := s.threads.resumeFirst .receivers, mailbox := { mb with entry := mb.entry + 1 } }, rtEok)
  else ({ s with mailbox := mb }, rtEfull)

/-- The loop of `rt_mb_send_wait` and what follows it, up to the next call of `rt_schedule`, with the return code if
it returns. -/
def mbSendLoop (flag : IpcFlag) (s : MailboxState τ) (t : τ) (value timeout delta : BitVec 32) :
    Option (MailboxState τ × Option Int) :=
  if s.mailbox.entry = s.mailbox.size then
    let s := s.setError t rtEok
    if timeout = 0 then some (s.leave t, some rtEfull)
    else
      let timed := (0#32).slt timeout
      (s.threads.suspendOn t .senders flag timed (.send value timeout (if timed then s.tick else delta))).map
        fun w => ({ s with threads := w }, none)
  else
    let (s, code) := mbStore s value
    some (s.leave t, some code)

/-- `rt_mb_send_wait` from its start. -/
def rtMbSendWait (flag : IpcFlag) (s : MailboxState τ) (t : τ) (value timeout : BitVec 32) :
    Option (MailboxState τ × Option Int) :=
  if s.mailbox.entry = s.mailbox.size ∧ timeout = 0 then some (s, some rtEfull)
  else mbSendLoop flag s t value timeout 0

/-- `rt_mb_send_wait` from behind `rt_schedule`. -/
def mbSendGoOn (flag : IpcFlag) (s : MailboxState τ) (t : τ) (value timeout delta : BitVec 32) :
    Option (MailboxState τ × Option Int) :=
  if s.threads.view.error t ≠ rtEok then some (s.leave t, some (s.threads.view.error t))
  else mbSendLoop flag s t value (remaining timeout delta s.tick) delta

/-- `rt_mb_send` in an interrupt. -/
def rtMbSend (s : MailboxState τ) (value : BitVec 32) : MailboxState τ × Int :=
  if s.mailbox.entry = s.mailbox.size then (s, rtEfull) else mbStore s value

/-- The end of `rt_mb_recv`, with the mail. -/
def mbFetch (s : MailboxState τ) : MailboxState τ × BitVec 32 :=
  let mb := s.mailbox
  let value := mb.msgPool mb.outOffset
  let mb := { mb with outOffset := nextOffset mb mb.outOffset }
  let mb := if 0 < mb.entry then { mb with entry := mb.entry - 1 } else mb
  ({ s with threads := s.threads.resumeFirst .senders, mailbox := mb }, value)

/-- The loop of `rt_mb_recv` and what follows it, up to the next call of `rt_schedule`, with the mail or the error
code if it returns. -/
def mbRecvLoop (flag : IpcFlag) (s : MailboxState τ) (t : τ) (timeout delta : BitVec 32) :
    Option (MailboxState τ × Option (Except Int (BitVec 32))) :=
  if s.mailbox.entry = 0 then
    let s := s.setError t rtEok
    if timeout = 0 then some ((s.setError t rtEtimeout).leave t, some (.error rtEtimeout))
    else
      let timed := (0#32).slt timeout
      (s.threads.suspendOn t .receivers flag timed (.recv timeout (if timed then s.tick else delta))).map
        fun w => ({ s with threads := w }, none)
  else
    let (s, value) := mbFetch s
    some (s.leave t, some (.ok value))

/-- `rt_mb_recv` from its start. -/
def rtMbRecv (flag : IpcFlag) (s : MailboxState τ) (t : τ) (timeout : BitVec 32) :
    Option (MailboxState τ × Option (Except Int (BitVec 32))) :=
  if s.mailbox.entry = 0 ∧ timeout = 0 then some (s, some (.error rtEtimeout))
  else mbRecvLoop flag s t timeout 0

/-- `rt_mb_recv` from behind `rt_schedule`. -/
def mbRecvGoOn (flag : IpcFlag) (s : MailboxState τ) (t : τ) (timeout delta : BitVec 32) :
    Option (MailboxState τ × Option (Except Int (BitVec 32))) :=
  if s.threads.view.error t ≠ rtEok then some (s.leave t, some (.error (s.threads.view.error t)))
  else mbRecvLoop flag s t (remaining timeout delta s.tick) delta

/-- `rt_mb_recv` without waiting, in an interrupt. -/
def mbRecvIsr (s : MailboxState τ) : MailboxState τ × Except Int (BitVec 32) :=
  if s.mailbox.entry = 0 then (s, .error rtEtimeout)
  else
    let (s, value) := mbFetch s
    (s, .ok value)

/-- `rt_mb_control` with `RT_IPC_CMD_RESET`. -/
def rtMbReset (s : MailboxState τ) : MailboxState τ :=
  { s with
    threads := (s.threads.resumeAll .receivers).resumeAll .senders
    mailbox := { s.mailbox with entry := 0, inOffset := 0, outOffset := 0 } }

/-- What a call returns at a step: a send its value and code, a receive its mail or code. -/
inductive MbReturn where
  | sent (value : BitVec 32) (code : Int)
  | received (mail : Except Int (BitVec 32))

/-- A step, and what is returned by it. -/
def mbStep (flag : IpcFlag) (s : MailboxState τ) : MbAction τ → Option (MailboxState τ × Option MbReturn)
  | .send value timeout => s.threads.caller.bind fun t =>
    (rtMbSendWait flag s t value timeout).map fun (s, r) => (s, r.map (.sent value))
  | .recv timeout => s.threads.caller.bind fun t =>
    (rtMbRecv flag s t timeout).map fun (s, r) => (s, r.map .received)
  | .goOn => s.threads.returning.bind fun (t, call) =>
    match call with
    | .send value timeout delta =>
      (mbSendGoOn flag s t value timeout delta).map fun (s, r) => (s, r.map (.sent value))
    | .recv timeout delta => (mbRecvGoOn flag s t timeout delta).map fun (s, r) => (s, r.map .received)
  | .isrSend value =>
    let (s, code) := rtMbSend s value
    some (s, some (.sent value code))
  | .isrRecv =>
    let (s, mail) := mbRecvIsr s
    some (s, some (.received mail))
  | .reset => some (rtMbReset s, none)
  | .tick => some ({ s with tick := s.tick + 1 }, none)
  | .env a => (s.threads.envStep a).map fun w => ({ s with threads := w }, none)

/-- The mailbox is initialised with a pool, and a size. -/
structure MbInit (pool : Nat → BitVec 32) (size : Nat) (s : MailboxState τ) : Prop where
  threads : s.threads.Init
  mailbox : s.mailbox = rtMbInit pool size

def mailbox (τ : Type) [DecidableEq τ] (flag : IpcFlag) (pool : Nat → BitVec 32) (size : Nat) :
    System (MailboxState τ) (MbAction τ) where
  init := MbInit pool size
  step s a := (mbStep flag s a).map Prod.fst

/-! ## What was sent and received -/

/-- The value of a send that returns `RT_EOK`. -/
def MbReturn.sentValue : MbReturn → Option (BitVec 32)
  | .sent value code => if code = rtEok then some value else none
  | .received _ => none

/-- The mail of a receive that returns `RT_EOK`. -/
def MbReturn.receivedMail : MbReturn → Option (BitVec 32)
  | .received (.ok mail) => some mail
  | _ => none

/-- The values that `f` finds in what the steps return, in order, since the last reset. -/
def values (flag : IpcFlag) (f : MbReturn → Option (BitVec 32)) :
    History (MailboxState τ) (MbAction τ) → List (BitVec 32)
  | [] => []
  | (_, .reset) :: _ => []
  | (s, a) :: h => values flag f h ++ ((mbStep flag s a).bind fun r => r.2.bind f).toList

/-! ## The ring -/

/-- The indices of the mailbox agree. -/
structure RtMailbox.Ok (mb : RtMailbox) : Prop where
  size : mb.size < 65536
  entry : mb.entry ≤ mb.size
  offset : mb.inOffset = (mb.outOffset + mb.entry) % mb.size
  out : 0 < mb.size → mb.outOffset < mb.size

/-- The mails in the mailbox, oldest first. -/
def RtMailbox.mails (mb : RtMailbox) : List (BitVec 32) :=
  Ring.contents mb.msgPool mb.size mb.outOffset mb.entry

theorem nextOffset_eq {mb : RtMailbox} (h : mb.Ok) {i : Nat} (hi : i < mb.size) :
    nextOffset mb i = (i + 1) % mb.size := by
  have hmod : (i + 1) % 65536 = i + 1 := Nat.mod_eq_of_lt (by have := h.size; omega)
  unfold nextOffset
  dsimp only
  rw [hmod]
  exact Ring.next_eq hi

/-- The invariant of the mailbox. -/
structure MbInv (s : MailboxState τ) : Prop where
  threads : s.threads.Ok MbCall.place
  mailbox : s.mailbox.Ok
  receivers : s.threads.view.Covered MbCall.place .receivers s.mailbox.entry
  senders : s.threads.view.Covered MbCall.place .senders (s.mailbox.size - s.mailbox.entry)

section sections

variable {flag : IpcFlag} {s s' : MailboxState τ} {t : τ} {value timeout delta : BitVec 32}

theorem mbStore_spec (hi : MbInv s) (value : BitVec 32) (hfull : s.mailbox.entry ≠ s.mailbox.size) :
    ∃ s', mbStore s value = (s', rtEok) ∧ s'.threads.Ok MbCall.place ∧ s'.mailbox.Ok ∧
      s'.mailbox.mails = s.mailbox.mails ++ [value] ∧ s'.mailbox.size = s.mailbox.size ∧
      s'.mailbox.entry = s.mailbox.entry + 1 ∧ s'.threads.view = s.threads.view.resumeFirst .receivers ∧
      s'.threads.view.Covered MbCall.place .receivers (s.mailbox.entry + 1) ∧
      ∀ u, s'.threads.Runs u ↔ s.threads.Runs u := by
  obtain ⟨hthreads, hmb, hreceivers, -⟩ := hi
  obtain ⟨hsize, hentry, hoffset, hout⟩ := hmb
  have hlt : s.mailbox.entry < s.mailbox.size := by omega
  have hin : s.mailbox.inOffset < s.mailbox.size := hoffset ▸ Nat.mod_lt _ (by omega)
  obtain ⟨hok, hview, hruns⟩ := IpcThreads.resumeFirst_spec hthreads .receivers
  unfold mbStore
  dsimp only
  rw [if_pos (show s.mailbox.entry < rtMbEntryMax by unfold rtMbEntryMax; omega)]
  refine ⟨_, rfl, hok, ⟨hsize, hlt, ?_, hout⟩, ?_, rfl, rfl, hview, ?_, hruns⟩
  · show nextOffset _ _ = _
    rw [nextOffset_eq ⟨hsize, hentry, hoffset, hout⟩ hin, hoffset, Nat.mod_add_mod]
    rfl
  · show Ring.contents _ s.mailbox.size s.mailbox.outOffset (s.mailbox.entry + 1) = _
    rw [hoffset]
    exact Ring.contents_push hlt value
  · rw [hview]
    exact hreceivers.resumeFirst (hthreads.waiting_nodup _) fun u hu =>
      ⟨hthreads.waiting_call hu, hthreads.waiting_error hu⟩

theorem mbFetch_spec (hi : MbInv s) (hempty : s.mailbox.entry ≠ 0) :
    ∃ s' mail, mbFetch s = (s', mail) ∧ s'.threads.Ok MbCall.place ∧ s'.mailbox.Ok ∧
      s.mailbox.mails = mail :: s'.mailbox.mails ∧ s'.mailbox.size = s.mailbox.size ∧
      s'.mailbox.entry + 1 = s.mailbox.entry ∧ s'.threads.view = s.threads.view.resumeFirst .senders ∧
      s'.threads.view.Covered MbCall.place .senders (s.mailbox.size - s.mailbox.entry + 1) ∧
      ∀ u, s'.threads.Runs u ↔ s.threads.Runs u := by
  obtain ⟨hthreads, hmb, -, hsenders⟩ := hi
  obtain ⟨hsize, hentry, hoffset, hout⟩ := hmb
  obtain ⟨n, hn⟩ := Nat.exists_eq_succ_of_ne_zero hempty
  have hpos : 0 < s.mailbox.size := by omega
  have hlt := hout hpos
  have hnext := nextOffset_eq ⟨hsize, hentry, hoffset, hout⟩ hlt
  obtain ⟨hok, hview, hruns⟩ := IpcThreads.resumeFirst_spec hthreads .senders
  unfold mbFetch
  dsimp only
  rw [if_pos (Nat.pos_of_ne_zero hempty)]
  refine ⟨_, _, rfl, hok, ⟨hsize, ?_, ?_, fun _ => ?_⟩, ?_, rfl, ?_, hview, ?_, hruns⟩
  · show s.mailbox.entry - 1 ≤ s.mailbox.size
    omega
  · show s.mailbox.inOffset = (nextOffset _ _ + (s.mailbox.entry - 1)) % s.mailbox.size
    rw [hnext, hoffset, Nat.mod_add_mod]
    congr 1
    omega
  · show nextOffset _ _ < s.mailbox.size
    rw [hnext]
    exact Nat.mod_lt _ hpos
  · show Ring.contents _ _ _ s.mailbox.entry =
      _ :: Ring.contents _ s.mailbox.size (nextOffset _ _) (s.mailbox.entry - 1)
    rw [hnext, hn]
    exact Ring.contents_pop hlt
  · show s.mailbox.entry - 1 + 1 = s.mailbox.entry
    omega
  · rw [hview]
    exact hsenders.resumeFirst (hthreads.waiting_nodup _) fun u hu =>
      ⟨hthreads.waiting_call hu, hthreads.waiting_error hu⟩

/-- The thread is in no receive. -/
def NotReceiver (s : MailboxState τ) (t : τ) : Prop :=
  ∀ timeout delta, s.threads.view.call t ≠ some (.recv timeout delta)

/-- The thread is in no send. -/
def NotSender (s : MailboxState τ) (t : τ) : Prop :=
  ∀ value timeout delta, s.threads.view.call t ≠ some (.send value timeout delta)

omit [DecidableEq τ] in
theorem NotReceiver.not_woken (h : NotReceiver s t) : ¬ s.threads.view.Woken MbCall.place .receivers t := by
  rintro ⟨⟨c, hc, hplace⟩, -⟩
  cases c with
  | send => cases hplace
  | recv timeout delta => exact h timeout delta hc

omit [DecidableEq τ] in
theorem NotSender.not_woken (h : NotSender s t) : ¬ s.threads.view.Woken MbCall.place .senders t := by
  rintro ⟨⟨c, hc, hplace⟩, -⟩
  cases c with
  | send value timeout delta => exact h value timeout delta hc
  | recv => cases hplace

omit [DecidableEq τ] in
/-- A step of one thread that leaves the mailbox alone: in each direction it joins and leaves no list and was not
resumed, unless nobody has to be resumed there. -/
theorem MbInv.thread (hi : MbInv s) (hok : s'.threads.Ok MbCall.place) (hmb : s'.mailbox = s.mailbox)
    (hsame : ∀ u, u ≠ t → s'.threads.view.call u = s.threads.view.call u ∧
      s'.threads.view.error u = s.threads.view.error u)
    (hr : s.mailbox.entry = 0 ∨ s'.waiting .receivers = s.waiting .receivers ∧
      ¬ s.threads.view.Woken MbCall.place .receivers t)
    (hs : s.mailbox.entry = s.mailbox.size ∨ s'.waiting .senders = s.waiting .senders ∧
      ¬ s.threads.view.Woken MbCall.place .senders t) : MbInv s' where
  threads := hok
  mailbox := hmb ▸ hi.mailbox
  receivers := by
    rw [hmb]
    rcases hr with hzero | ⟨hwaiting, hnot⟩
    · rw [hzero]
      exact IpcView.covered_zero
    · exact hi.receivers.other hwaiting hsame hnot
  senders := by
    rw [hmb]
    rcases hs with hfull | ⟨hwaiting, hnot⟩
    · rw [hfull, Nat.sub_self]
      exact IpcView.covered_zero
    · exact hi.senders.other hwaiting hsame hnot

theorem view_leave (s : MailboxState τ) (t : τ) : (s.leave t).threads.view = s.threads.view.setCall t none :=
  IpcThreads.view_setPc _ _ _

theorem call_leave (s : MailboxState τ) {t u : τ} (hut : u ≠ t) :
    (s.leave t).threads.view.call u = s.threads.view.call u ∧
      (s.leave t).threads.view.error u = s.threads.view.error u := by
  rw [view_leave]
  exact ⟨Function.update_of_ne hut _ _, rfl⟩

theorem waiting_leave (s : MailboxState τ) (t : τ) (q : MbList) :
    (s.leave t).threads.view.waiting q = s.threads.view.waiting q := by
  rw [view_leave]
  rfl

theorem store_leave (hi : MbInv s) (hr : s.threads.Runs t) (hnot : NotReceiver s t) (value : BitVec 32)
    (hfull : s.mailbox.entry ≠ s.mailbox.size) :
    ∃ s', mbStore s value = (s', rtEok) ∧ MbInv (s'.leave t) ∧
      (s'.leave t).mailbox.mails = s.mailbox.mails ++ [value] := by
  obtain ⟨s', hstore, hok, hmb, hmails, hsize, hentry, hview, hreceivers, hruns⟩ := mbStore_spec hi value hfull
  have hcall (u : τ) (hut : u ≠ t) := call_leave s' hut
  refine ⟨s', hstore, ⟨hok.leave ((hruns t).mpr hr), hmb, ?_, ?_⟩, hmails⟩
  · rw [show (s'.leave t).mailbox.entry = s.mailbox.entry + 1 from hentry]
    refine hreceivers.other (waiting_leave s' t _) hcall (NotReceiver.not_woken fun timeout delta => ?_)
    rw [hview, IpcView.resumeFirst_call]
    exact hnot timeout delta
  · have hsenders : s'.threads.view.Covered MbCall.place .senders (s.mailbox.size - s.mailbox.entry) := by
      rw [hview]
      exact hi.senders.resumeFirst_other
    refine (hsenders.runs (waiting_leave s' t _) hcall).keep ?_ id fun _ => id
    rw [show (s'.leave t).mailbox.entry = s.mailbox.entry + 1 from hentry,
      show (s'.leave t).mailbox.size = s.mailbox.size from hsize]
    omega

theorem fetch_leave (hi : MbInv s) (hr : s.threads.Runs t) (hnot : NotSender s t) (hempty : s.mailbox.entry ≠ 0) :
    ∃ s' mail, mbFetch s = (s', mail) ∧ MbInv (s'.leave t) ∧
      s.mailbox.mails = mail :: (s'.leave t).mailbox.mails := by
  obtain ⟨s', mail, hfetch, hok, hmb, hmails, hsize, hentry, hview, hsenders, hruns⟩ := mbFetch_spec hi hempty
  have hcall (u : τ) (hut : u ≠ t) := call_leave s' hut
  refine ⟨s', mail, hfetch, ⟨hok.leave ((hruns t).mpr hr), hmb, ?_, ?_⟩, hmails⟩
  · have hreceivers : s'.threads.view.Covered MbCall.place .receivers s.mailbox.entry := by
      rw [hview]
      exact hi.receivers.resumeFirst_other
    refine (hreceivers.runs (waiting_leave s' t _) hcall).keep ?_ id fun _ => id
    rw [show (s'.leave t).mailbox.entry = s'.mailbox.entry from rfl]
    omega
  · have hcount : (s'.leave t).mailbox.size - (s'.leave t).mailbox.entry = s.mailbox.size - s.mailbox.entry + 1 := by
      rw [show (s'.leave t).mailbox.size = s.mailbox.size from hsize,
        show (s'.leave t).mailbox.entry = s'.mailbox.entry from rfl]
      have := hi.mailbox.entry
      omega
    rw [hcount]
    refine hsenders.other (waiting_leave s' t _) hcall (NotSender.not_woken fun value timeout delta => ?_)
    rw [hview, IpcView.resumeFirst_call]
    exact hnot value timeout delta

/-- What a step does: the invariant holds again, and what was sent is received or in the mailbox. -/
def Moves (s s' : MailboxState τ) (r : Option MbReturn) : Prop :=
  MbInv s' ∧ s.mailbox.mails ++ (r.bind MbReturn.sentValue).toList =
    (r.bind MbReturn.receivedMail).toList ++ s'.mailbox.mails

omit [DecidableEq τ] in
theorem Moves.quiet {r : Option MbReturn} (hi : MbInv s') (hmb : s'.mailbox = s.mailbox)
    (hsent : r.bind MbReturn.sentValue = none) (hreceived : r.bind MbReturn.receivedMail = none) : Moves s s' r := by
  refine ⟨hi, ?_⟩
  rw [hsent, hreceived, hmb]
  exact List.append_nil _

theorem view_setError_leave (s : MailboxState τ) (t : τ) (e : Int) :
    ((s.setError t e).leave t).threads.view = (s.threads.view.setError t e).setCall t none := by
  rw [view_leave]
  exact congrArg (fun v => IpcView.setCall v t none) (IpcThreads.view_setError _ _ _)

theorem mbSendLoop_spec {r : Option Int} (hi : MbInv s) (hr : s.threads.Runs t) (hnot : NotReceiver s t)
    (hs : mbSendLoop flag s t value timeout delta = some (s', r)) : Moves s s' (r.map (.sent value)) := by
  unfold mbSendLoop at hs
  by_cases hfull : s.mailbox.entry = s.mailbox.size
  · rw [if_pos hfull] at hs
    dsimp only at hs
    have hok := hi.threads.setError hr rtEok
    by_cases htime : timeout = 0
    · rw [if_pos htime] at hs
      obtain ⟨rfl, rfl⟩ := Prod.mk.inj (Option.some.inj hs)
      refine Moves.quiet (MbInv.thread (t := t) hi (hok.leave hr) rfl (fun u hut => ?_)
        (.inr ⟨?_, hnot.not_woken⟩) (.inl hfull)) rfl rfl rfl
      · rw [view_setError_leave]
        simp [hut]
      · rw [MailboxState.waiting, view_setError_leave]
        rfl
    · rw [if_neg htime] at hs
      obtain ⟨w, hw, heq⟩ := Option.map_eq_some_iff.mp hs
      obtain ⟨rfl, rfl⟩ := Prod.mk.inj heq
      have herr : (s.setError t rtEok).threads.view.error t = rtEok := IpcThreads.error_setError _ t rtEok
      obtain ⟨hok', i, -, hview⟩ := IpcThreads.suspendOn_spec hok hr herr rfl hw
      rw [MailboxState.setError, IpcThreads.view_setError] at hview
      refine Moves.quiet (MbInv.thread (t := t) hi hok' rfl (fun u hut => ?_) (.inr ⟨?_, hnot.not_woken⟩)
        (.inl hfull)) rfl rfl rfl
      · simp [hview, hut]
      · simp [MailboxState.waiting, hview, MbCall.place]
  · rw [if_neg hfull] at hs
    obtain ⟨s₁, hstore, hinv, hmails⟩ := store_leave hi hr hnot value hfull
    rw [hstore] at hs
    obtain ⟨rfl, rfl⟩ := Prod.mk.inj (Option.some.inj hs)
    exact ⟨hinv, hmails.symm⟩

theorem mbRecvLoop_spec {r : Option (Except Int (BitVec 32))} (hi : MbInv s) (hr : s.threads.Runs t)
    (hnot : NotSender s t) (hs : mbRecvLoop flag s t timeout delta = some (s', r)) :
    Moves s s' (r.map .received) := by
  unfold mbRecvLoop at hs
  by_cases hempty : s.mailbox.entry = 0
  · rw [if_pos hempty] at hs
    dsimp only at hs
    have hok := hi.threads.setError hr rtEok
    by_cases htime : timeout = 0
    · rw [if_pos htime] at hs
      obtain ⟨rfl, rfl⟩ := Prod.mk.inj (Option.some.inj hs)
      have hview : (((s.setError t rtEok).setError t rtEtimeout).leave t).threads.view =
          ((s.threads.view.setError t rtEok).setError t rtEtimeout).setCall t none := by
        rw [view_setError_leave]
        exact congrArg (fun v => IpcView.setCall (IpcView.setError v t rtEtimeout) t none)
          (IpcThreads.view_setError _ _ _)
      refine Moves.quiet (MbInv.thread (t := t) hi ((hok.setError hr rtEtimeout).leave hr) rfl (fun u hut => ?_)
        (.inl hempty) (.inr ⟨?_, hnot.not_woken⟩)) rfl rfl rfl
      · simp [hview, hut]
      · simp [MailboxState.waiting, hview]
    · rw [if_neg htime] at hs
      obtain ⟨w, hw, heq⟩ := Option.map_eq_some_iff.mp hs
      obtain ⟨rfl, rfl⟩ := Prod.mk.inj heq
      have herr : (s.setError t rtEok).threads.view.error t = rtEok := IpcThreads.error_setError _ t rtEok
      obtain ⟨hok', i, -, hview⟩ := IpcThreads.suspendOn_spec hok hr herr rfl hw
      rw [MailboxState.setError, IpcThreads.view_setError] at hview
      refine Moves.quiet (MbInv.thread (t := t) hi hok' rfl (fun u hut => ?_) (.inl hempty)
        (.inr ⟨?_, hnot.not_woken⟩)) rfl rfl rfl
      · simp [hview, hut]
      · simp [MailboxState.waiting, hview, MbCall.place]
  · rw [if_neg hempty] at hs
    obtain ⟨s₁, mail, hfetch, hinv, hmails⟩ := fetch_leave hi hr hnot hempty
    rw [hfetch] at hs
    obtain ⟨rfl, rfl⟩ := Prod.mk.inj (Option.some.inj hs)
    exact ⟨hinv, (List.append_nil _).trans hmails⟩

theorem leave_error {r : Option MbReturn} (hi : MbInv s) (hr : s.threads.Runs t)
    (herr : s.threads.view.error t ≠ rtEok) (hsent : r.bind MbReturn.sentValue = none)
    (hreceived : r.bind MbReturn.receivedMail = none) : Moves s (s.leave t) r := by
  have hnot (q : MbList) : ¬ s.threads.view.Woken MbCall.place q t := fun hw => herr hw.2.2
  exact Moves.quiet (MbInv.thread (t := t) hi (hi.threads.leave hr) rfl (fun u hut => call_leave s hut)
    (.inr ⟨waiting_leave s t _, hnot _⟩) (.inr ⟨waiting_leave s t _, hnot _⟩)) rfl hsent hreceived

theorem rtMbSend_spec {code : Int} (hi : MbInv s) (hs : rtMbSend s value = (s', code)) :
    Moves s s' (some (.sent value code)) := by
  unfold rtMbSend at hs
  by_cases hfull : s.mailbox.entry = s.mailbox.size
  · rw [if_pos hfull] at hs
    obtain ⟨rfl, rfl⟩ := Prod.mk.inj hs
    exact Moves.quiet hi rfl rfl rfl
  · rw [if_neg hfull] at hs
    obtain ⟨s₁, hstore, hok, hmb, hmails, hsize, hentry, hview, hreceivers, -⟩ := mbStore_spec hi value hfull
    rw [hstore] at hs
    obtain ⟨rfl, rfl⟩ := Prod.mk.inj hs
    refine ⟨⟨hok, hmb, hentry ▸ hreceivers, ?_⟩, hmails.symm⟩
    have hsenders : s₁.threads.view.Covered MbCall.place .senders (s.mailbox.size - s.mailbox.entry) := by
      rw [hview]
      exact hi.senders.resumeFirst_other
    exact hsenders.keep (by omega) id fun _ => id

theorem mbRecvIsr_spec {mail : Except Int (BitVec 32)} (hi : MbInv s) (hs : mbRecvIsr s = (s', mail)) :
    Moves s s' (some (.received mail)) := by
  unfold mbRecvIsr at hs
  by_cases hempty : s.mailbox.entry = 0
  · rw [if_pos hempty] at hs
    obtain ⟨rfl, rfl⟩ := Prod.mk.inj hs
    exact Moves.quiet hi rfl rfl rfl
  · rw [if_neg hempty] at hs
    obtain ⟨s₁, value, hfetch, hok, hmb, hmails, hsize, hentry, hview, hsenders, -⟩ := mbFetch_spec hi hempty
    rw [hfetch] at hs
    obtain ⟨rfl, rfl⟩ := Prod.mk.inj hs
    refine ⟨⟨hok, hmb, ?_, hsenders.keep (by omega) id fun _ => id⟩, (List.append_nil _).trans hmails⟩
    have hreceivers : s₁.threads.view.Covered MbCall.place .receivers s.mailbox.entry := by
      rw [hview]
      exact hi.receivers.resumeFirst_other
    exact hreceivers.keep (by omega) id fun _ => id

theorem rtMbReset_spec (hi : MbInv s) : MbInv (rtMbReset s) ∧ (rtMbReset s).mailbox.mails = [] := by
  obtain ⟨hok, hempty, -⟩ := IpcThreads.resumeAll_spec hi.threads .receivers
  obtain ⟨hok', hempty', hkeep⟩ := IpcThreads.resumeAll_spec hok .senders
  refine ⟨⟨hok', ⟨hi.mailbox.size, Nat.zero_le _, ?_, id⟩, IpcView.covered_nil (hkeep _ hempty),
    IpcView.covered_nil hempty'⟩, rfl⟩
  show 0 = (0 + 0) % _
  rw [Nat.zero_mod]

theorem env_spec {a : EnvAction τ} {w : IpcThreads τ MbList MbCall} (hi : MbInv s) (hw : s.threads.envStep a = some w) :
    Moves s { s with threads := w } none := by
  obtain ⟨hok, heff⟩ := IpcThreads.envStep_spec hi.threads hw
  rcases heff with ⟨t, -, hview, hwaits⟩ | ⟨-, hview⟩
  · -- the thread whose timer fires waits, so it was not resumed
    have hcovered {q : MbList} {n : Nat} (hc : s.threads.view.Covered MbCall.place q n) :
        w.view.Covered MbCall.place q n := by
      rw [hview]
      refine hc.keep le_rfl (fun he => by simp [he]) fun u hu => ?_
      obtain ⟨⟨c, hcall, rfl⟩, hnot, herr⟩ := hu
      have hut : u ≠ t := fun he => hnot (he ▸ hwaits c (he ▸ hcall))
      exact ⟨⟨c, hcall, rfl⟩, fun hm => hnot (List.mem_of_mem_erase hm), by simpa [hut] using herr⟩
    exact Moves.quiet ⟨hok, hi.mailbox, hcovered hi.receivers, hcovered hi.senders⟩ rfl rfl rfl
  · exact Moves.quiet ⟨hok, hi.mailbox, hview ▸ hi.receivers, hview ▸ hi.senders⟩ rfl rfl rfl

theorem mbStep_moves {a : MbAction τ} {r : Option MbReturn} (hi : MbInv s) (hs : mbStep flag s a = some (s', r))
    (ha : a ≠ .reset) : Moves s s' r := by
  have hcaller {t : τ} (hc : s.threads.caller = some t) : NotReceiver s t ∧ NotSender s t := by
    have hcall := IpcThreads.caller_call hc
    exact ⟨fun _ _ he => by simp [hcall] at he, fun _ _ _ he => by simp [hcall] at he⟩
  cases a with
  | send value timeout =>
    obtain ⟨t, hc, hs⟩ := Option.bind_eq_some_iff.mp hs
    obtain ⟨⟨s₁, r₁⟩, hsend, heq⟩ := Option.map_eq_some_iff.mp hs
    obtain ⟨rfl, rfl⟩ := Prod.mk.inj heq
    unfold rtMbSendWait at hsend
    split_ifs at hsend
    · obtain ⟨rfl, rfl⟩ := Prod.mk.inj (Option.some.inj hsend)
      exact Moves.quiet hi rfl rfl rfl
    · exact mbSendLoop_spec hi (.inl hc) (hcaller hc).1 hsend
  | recv timeout =>
    obtain ⟨t, hc, hs⟩ := Option.bind_eq_some_iff.mp hs
    obtain ⟨⟨s₁, r₁⟩, hrecv, heq⟩ := Option.map_eq_some_iff.mp hs
    obtain ⟨rfl, rfl⟩ := Prod.mk.inj heq
    unfold rtMbRecv at hrecv
    split_ifs at hrecv
    · obtain ⟨rfl, rfl⟩ := Prod.mk.inj (Option.some.inj hrecv)
      exact Moves.quiet hi rfl rfl rfl
    · exact mbRecvLoop_spec hi (.inl hc) (hcaller hc).2 hrecv
  | goOn =>
    obtain ⟨⟨t, c⟩, hc, hs⟩ := Option.bind_eq_some_iff.mp hs
    have hcall := IpcThreads.returning_call hc
    cases c with
    | send value timeout delta =>
      obtain ⟨⟨s₁, r₁⟩, hsend, heq⟩ := Option.map_eq_some_iff.mp hs
      obtain ⟨rfl, rfl⟩ := Prod.mk.inj heq
      unfold mbSendGoOn at hsend
      split_ifs at hsend with herr
      · obtain ⟨rfl, rfl⟩ := Prod.mk.inj (Option.some.inj hsend)
        exact leave_error hi (.inr ⟨_, hc⟩) herr (if_neg herr) rfl
      · exact mbSendLoop_spec hi (.inr ⟨_, hc⟩) (fun _ _ he => by simp [hcall] at he) hsend
    | recv timeout delta =>
      obtain ⟨⟨s₁, r₁⟩, hrecv, heq⟩ := Option.map_eq_some_iff.mp hs
      obtain ⟨rfl, rfl⟩ := Prod.mk.inj heq
      unfold mbRecvGoOn at hrecv
      split_ifs at hrecv with herr
      · obtain ⟨rfl, rfl⟩ := Prod.mk.inj (Option.some.inj hrecv)
        exact leave_error hi (.inr ⟨_, hc⟩) herr rfl rfl
      · exact mbRecvLoop_spec hi (.inr ⟨_, hc⟩) (fun _ _ _ he => by simp [hcall] at he) hrecv
  | isrSend value =>
    obtain ⟨rfl, rfl⟩ := Prod.mk.inj (Option.some.inj hs)
    exact rtMbSend_spec hi rfl
  | isrRecv =>
    obtain ⟨rfl, rfl⟩ := Prod.mk.inj (Option.some.inj hs)
    exact mbRecvIsr_spec hi rfl
  | reset => exact absurd rfl ha
  | tick =>
    obtain ⟨rfl, rfl⟩ := Prod.mk.inj (Option.some.inj hs)
    exact Moves.quiet ⟨hi.threads, hi.mailbox, hi.receivers, hi.senders⟩ rfl rfl rfl
  | env a =>
    obtain ⟨w, hw, heq⟩ := Option.map_eq_some_iff.mp hs
    obtain ⟨rfl, rfl⟩ := Prod.mk.inj heq
    exact env_spec hi hw

end sections

/-! ## All runs -/

section runs

variable {flag : IpcFlag} {pool : Nat → BitVec 32} {size : Nat} {h : History (MailboxState τ) (MbAction τ)}
  {s : MailboxState τ}

theorem values_cons {f : MbReturn → Option (BitVec 32)} {a : MbAction τ} {s' : MailboxState τ} {r : Option MbReturn}
    (ha : a ≠ .reset) (hs : mbStep flag s a = some (s', r)) :
    values flag f ((s, a) :: h) = values flag f h ++ (r.bind f).toList := by
  rw [values, hs]
  · rfl
  · exact ha

theorem mbInv (hrun : (mailbox τ flag pool size).Run h s) :
    MbInv s ∧ values flag MbReturn.sentValue h = values flag MbReturn.receivedMail h ++ s.mailbox.mails := by
  refine hrun.always (I := fun h s => MbInv s ∧
    values flag MbReturn.sentValue h = values flag MbReturn.receivedMail h ++ s.mailbox.mails) ?_ ?_
  · rintro s ⟨hthreads, hmb⟩
    refine ⟨⟨hthreads.ok, ?_, IpcView.covered_nil (hthreads.waiting _), IpcView.covered_nil (hthreads.waiting _)⟩, ?_⟩
    · rw [hmb]
      exact ⟨Nat.mod_lt _ (by decide), Nat.zero_le _, (Nat.zero_mod _).symm, id⟩
    · rw [hmb]
      rfl
  · rintro h s a s' - ⟨hi, hvalues⟩ hs
    obtain ⟨⟨s₁, r⟩, hstep, rfl⟩ := Option.map_eq_some_iff.mp hs
    by_cases ha : a = .reset
    · subst ha
      obtain ⟨rfl, rfl⟩ := Prod.mk.inj (Option.some.inj hstep)
      obtain ⟨hinv, hmails⟩ := rtMbReset_spec hi
      refine ⟨hinv, ?_⟩
      rw [hmails]
      rfl
    · obtain ⟨hinv, hmoves⟩ := mbStep_moves hi hstep ha
      refine ⟨hinv, ?_⟩
      rw [values_cons ha hstep, values_cons ha hstep, hvalues, List.append_assoc, hmoves, List.append_assoc]

/-- In every state: the values of the sends that returned `RT_EOK`, in this order, are the mails received and then
those in the mailbox (since the last reset, if there was one); the indices agree; and a receiver is suspended only
if as many others as there are mails have been resumed and not gone on yet, and a sender only if as many others as
there are free places. -/
theorem mailbox_fifo (hrun : (mailbox τ flag pool size).Run h s) :
    values flag MbReturn.sentValue h = values flag MbReturn.receivedMail h ++ s.mailbox.mails ∧
    s.mailbox.inOffset = (s.mailbox.outOffset + s.mailbox.entry) % s.mailbox.size ∧
    s.mailbox.entry ≤ s.mailbox.size ∧
    (s.waiting .receivers ≠ [] → ∃ l : List τ, l.Nodup ∧ s.mailbox.entry ≤ l.length ∧
      ∀ t ∈ l, s.threads.view.Woken MbCall.place .receivers t) ∧
    (s.waiting .senders ≠ [] → ∃ l : List τ, l.Nodup ∧ s.mailbox.size - s.mailbox.entry ≤ l.length ∧
      ∀ t ∈ l, s.threads.view.Woken MbCall.place .senders t) := by
  obtain ⟨hi, hvalues⟩ := mbInv hrun
  exact ⟨hvalues, hi.mailbox.offset, hi.mailbox.entry, hi.receivers, hi.senders⟩

/-- The threads run, the mailbox has one place. -/
def mbStart : MailboxState Bool where
  threads :=
    { kernel :=
        { tcb := twoRunning.tcb
          table := twoRunning.table
          group := twoRunning.group
          current := some true
          currentPriority := twoRunning.currentPriority
          lockNest := 0
          waiting := fun _ => []
          defunct := [] }
      timer := fun _ => false
      pc := fun _ => .idle }
  mailbox := rtMbInit (fun _ => 0) 1
  tick := 0

theorem mbInit_start : MbInit (fun _ => 0) 1 mbStart where
  threads :=
    { sched := by decide +kernel
      lock := rfl
      waiting := fun _ => rfl
      pc := fun _ => rfl
      running := by decide +kernel }
  mailbox := rfl

/-- A thread waits for a mail, the other one sends one and waits with a second one for the place; both mails are
received, and one that an interrupt sends is still there. -/
theorem mailbox_fifo_run :
    ∃ h s, (mailbox Bool .fifo (fun _ => 0) 1).Run h s ∧ values .fifo MbReturn.receivedMail h = [7, 8] ∧
      values .fifo MbReturn.sentValue h = [7, 8] ++ [9] := by
  obtain ⟨h, s, hrun, hreceived, hmails⟩ := System.exists_run (S := mailbox Bool .fifo (fun _ => 0) 1) mbInit_start
    [.recv (-1), .env .next, .send 7 0, .send 8 5, .env .next, .goOn, .recv 0, .recv 3, .env .next, .goOn, .env .sleep,
      .env .next, .goOn, .isrSend 9]
    (fun h s => values .fifo MbReturn.receivedMail h = [7, 8] ∧ s.mailbox.mails = [9]) (by decide +kernel)
  have hfifo := (mailbox_fifo hrun).1
  rw [hreceived, hmails] at hfifo
  exact ⟨h, s, hrun, hreceived, hfifo⟩

end runs

end ThyristorController.Mailboxes
