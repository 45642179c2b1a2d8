import ThyristorController.Kernel.IpcThreads

/-!
# An event set and its threads (`src/ipc.c`)

`rt_event_send` and `rt_event_recv` with any waiting time, and `rt_event_control`, over the scheduler. Each critical
section is one step, as in `Mailboxes`. Whether a set satisfies a request, what is received and what is cleared is
computed in two places: by `rt_event_recv` for its own thread, and by `rt_event_send` for each thread that waits.

`eventPoll` says once what a request takes from a set. `rtEventSend_eq` says that a send lets the waiting threads
poll, one after the other, and `event_wait_agrees_with_poll` that a receiver that waits for a send obtains what a
receiver that polls behind it does.
-/

namespace ThyristorController.Events

open Transition SemThreads

/-! ## The system -/

/-- `-RT_EINVAL`. -/
def rtEinval : Int := -10

/-- `RT_EVENT_FLAG_AND`. -/
def rtEventFlagAnd : BitVec 8 := 0x01

/-- `RT_EVENT_FLAG_OR`. -/
def rtEventFlagOr : BitVec 8 := 0x02

/-- `RT_EVENT_FLAG_CLEAR`. -/
def rtEventFlagClear : BitVec 8 := 0x04

/-- The event, and the fields `event_set` and `event_info` of the threads. No local variable of `rt_event_recv` is
read behind `rt_schedule`. -/
structure EventState (τ : Type) where
  threads : IpcThreads τ Unit Unit
  set : BitVec 32
  eventSet : τ → BitVec 32
  eventInfo : τ → BitVec 8

/-- The running thread receives, or goes on behind `rt_schedule`; a thread or an interrupt sends; the event is reset;
`env` is everything else. -/
inductive EventAction (τ : Type) where
  | recv (set : BitVec 32) (option : BitVec 8) (timeout : BitVec 32)
  | goOn
  | send (set : BitVec 32)
  | reset
  | env (a : EnvAction τ)

/-- What `rt_event_recv` returns, and what it stores through `recved`. -/
structure RecvReturn where
  code : Int
  recved : Option (BitVec 32)
deriving DecidableEq

/-- What a call returns at a step. -/
inductive EventReturn where
  | sent (code : Int)
  | received (r : RecvReturn)
deriving DecidableEq

variable {τ : Type} [DecidableEq τ]

namespace EventState

abbrev waiting (s : EventState τ) : List τ := s.threads.view.waiting ()

/-- `thread->error = e`. -/
def setError (s : EventState τ) (t : τ) (e : Int) : EventState τ := { s with threads := s.threads.setError t e }

/-- `thread->event_set = set`. -/
def setEventSet (s : EventState τ) (t : τ) (set : BitVec 32) : EventState τ :=
  { s with eventSet := Function.update s.eventSet t set }

/-- `thread->event_info = option`. -/
def setEventInfo (s : EventState τ) (t : τ) (option : BitVec 8) : EventState τ :=
  { s with eventInfo := Function.update s.eventInfo t option }

/-- The thread returns. -/
def leave (s : EventState τ) (t : τ) : EventState τ := { s with threads := s.threads.setPc t .idle }

end EventState

/-- `status` in the loop of `rt_event_send`, with what it makes of `thread->event_set`; nothing for a thread with
neither flag. -/
def sendStatus (set eventSet : BitVec 32) (info : BitVec 8) : Option (Int × BitVec 32) :=
  if info &&& rtEventFlagAnd ≠ 0 then
    if eventSet &&& set = eventSet then some (rtEok, eventSet) else some (rtError, eventSet)
  else if info &&& rtEventFlagOr ≠ 0 then
    if eventSet &&& set ≠ 0 then some (rtEok, eventSet &&& set) else some (rtError, eventSet)
  else none

/-- `condition is satisfied`: the end of a round of the loop. -/
def wake (s : EventState τ) (t : τ) : EventState τ :=
  let s := if s.eventInfo t &&& rtEventFlagClear ≠ 0 then { s with set := s.set &&& ~~~ s.eventSet t } else s
  { s with threads := s.threads.resume t }

/-- A round of the loop of `rt_event_send`: the thread that is examined, `event->set` at that moment and behind the
round, and whether the thread is resumed. -/
structure Round (τ : Type) where
  thread : τ
  found : BitVec 32
  behind : BitVec 32
  resumed : Bool
deriving DecidableEq

/-- The loop of `rt_event_send` over the list of waiting threads: the state and the return code, and a record of the
rounds. -/
def sendWalk : List τ → EventState τ → (EventState τ × Int) × List (Round τ)
  | [], s => ((s, rtEok), [])
  | t :: rest, s =>
    match sendStatus s.set (s.eventSet t) (s.eventInfo t) with
    | none => ((s, rtEinval), [⟨t, s.set, s.set, false⟩])
    | some (status, set) =>
      let s' := s.setEventSet t set
      let s' := if status = rtEok then wake s' t else s'
      let (result, rounds) := sendWalk rest s'
      (result, ⟨t, s.set, s'.set, decide (status = rtEok)⟩ :: rounds)

def sendLoop (l : List τ) (s : EventState τ) : EventState τ × Int := (sendWalk l s).1

/-- The rounds of the loop. -/
def sendRounds (l : List τ) (s : EventState τ) : List (Round τ) := (sendWalk l s).2

/-- `rt_event_send`; what follows its critical section is a call of `rt_schedule`. -/
def rtEventSend (s : EventState τ) (set : BitVec 32) : EventState τ × Int :=
  if set = 0 then (s, rtError)
  else sendLoop s.waiting { s with set := s.set ||| set }

/-- `status` in `rt_event_recv`; nothing where the assertion fails. -/
def recvStatus (eventSet set : BitVec 32) (option : BitVec 8) : Option Int :=
  if option &&& rtEventFlagAnd ≠ 0 then some (if eventSet &&& set = set then rtEok else rtError)
  else if option &&& rtEventFlagOr ≠ 0 then some (if eventSet &&& set ≠ 0 then rtEok else rtError)
  else none

/-- `rt_event_recv` from its start, up to the call of `rt_schedule`, with its results if it returns. -/
def rtEventRecv (flag : IpcFlag) (s : EventState τ) (t : τ) (set : BitVec 32) (option : BitVec 8)
    (timeout : BitVec 32) : Option (EventState τ × Option RecvReturn) :=
  if set = 0 then some (s, some ⟨rtError, none⟩)
  else
    (recvStatus s.set set option).bind fun status =>
      let s := s.setError t rtEok
      if status = rtEok then
        let recved := s.set &&& set
        let s := (s.setEventSet t recved).setEventInfo t option
        let s := if option &&& rtEventFlagClear ≠ 0 then { s with set := s.set &&& ~~~ set } else s
        some (s, some ⟨rtEok, some recved⟩)
      else if timeout = 0 then some (s.setError t rtEtimeout, some ⟨rtEtimeout, none⟩)
      else
        let s := (s.setEventSet t set).setEventInfo t option
        (s.threads.suspendOn t () flag ((0#32).slt timeout) ()).map fun w => ({ s with threads := w }, none)

/-- `rt_event_recv` from behind `rt_schedule`. -/
def eventRecvGoOn (s : EventState τ) (t : τ) : EventState τ × RecvReturn :=
  if s.threads.view.error t ≠ rtEok then (s.leave t, ⟨s.threads.view.error t, none⟩)
  else (s.leave t, ⟨rtEok, some (s.eventSet t)⟩)

/-- `rt_event_control` with `RT_IPC_CMD_RESET`. -/
def rtEventReset (s : EventState τ) : EventState τ := { s with threads := s.threads.resumeAll (), set := 0 }

/-- A step, and what is returned by it. -/
def eventStep (flag : IpcFlag) (s : EventState τ) : EventAction τ → Option (EventState τ × Option EventReturn)
  | .recv set option timeout => s.threads.caller.bind fun t =>
    (rtEventRecv flag s t set option timeout).map fun (s, r) => (s, r.map .received)
  | .goOn => s.threads.returning.map fun (t, _) =>
    let (s, r) := eventRecvGoOn s t
    (s, some (.received r))
  | .send set =>
    let (s, code) := rtEventSend s set
    some (s, some (.sent code))
  | .reset => some (rtEventReset s, none)
  | .env a => (s.threads.envStep a).map fun w => ({ s with threads := w }, none)

def event (τ : Type) [DecidableEq τ] (flag : IpcFlag) : System (EventState τ) (EventAction τ) where
  init s := s.threads.Init ∧ s.set = 0
  step s a := (eventStep flag s a).map Prod.fst

/-! ## What a request takes -/

/-- The option has one of the two flags. -/
def Flagged (option : BitVec 8) : Prop := option &&& rtEventFlagAnd ≠ 0 ∨ option &&& rtEventFlagOr ≠ 0

instance (option : BitVec 8) : Decidable (Flagged option) := inferInstanceAs (Decidable (_ ∨ _))

/-- The event set satisfies the request: all of it with `RT_EVENT_FLAG_AND`, else some of it. -/
def Satisfied (set want : BitVec 32) (option : BitVec 8) : Prop :=
  if option &&& rtEventFlagAnd ≠ 0 then set &&& want = want else set &&& want ≠ 0

instance (set want : BitVec 32) (option : BitVec 8) : Decidable (Satisfied set want option) :=
  inferInstanceAs (Decidable (ite _ _ _))

/-- The event set behind the request. -/
def left (set want : BitVec 32) (option : BitVec 8) : BitVec 32 :=
  if Satisfied set want option ∧ option &&& rtEventFlagClear ≠ 0 then set &&& ~~~ want else set

section request

variable {set want : BitVec 32} {option : BitVec 8}

theorem and_not_and (set want : BitVec 32) : set &&& ~~~ (set &&& want) = set &&& ~~~ want := by
  ext i hi
  simp only [BitVec.getElem_and, BitVec.getElem_not]
  cases set[i] <;> simp

theorem recvStatus_eq (h : Flagged option) :
    recvStatus set want option = some (if Satisfied set want option then rtEok else rtError) := by
  unfold recvStatus Satisfied
  by_cases hand : option &&& rtEventFlagAnd ≠ 0
  · simp only [if_pos hand]
  · simp only [if_neg hand, if_pos (h.resolve_left hand)]

theorem sendStatus_eq (h : Flagged option) : sendStatus set want option =
    some (if Satisfied set want option then (rtEok, set &&& want) else (rtError, want)) := by
  unfold sendStatus Satisfied
  rw [BitVec.and_comm want set]
  by_cases hand : option &&& rtEventFlagAnd ≠ 0
  · simp only [if_pos hand]
    by_cases hs : set &&& want = want
    · simp only [if_pos hs]
      rw [hs]
    · simp only [if_neg hs]
  · simp only [if_neg hand, if_pos (h.resolve_left hand)]
    by_cases hs : set &&& want ≠ 0
    · simp only [if_pos hs]
    · simp only [if_neg hs]

/-- A request that a set does not satisfy is not satisfied by less of it. -/
theorem Satisfied.mono {set' : BitVec 32} (hs : Satisfied set' want option) (hle : set' &&& set = set') :
    Satisfied set want option := by
  unfold Satisfied at hs ⊢
  by_cases hand : option &&& rtEventFlagAnd ≠ 0
  · rw [if_pos hand] at hs ⊢
    rw [← hs, ← hle, BitVec.and_assoc, BitVec.and_comm set want, BitVec.and_comm set, BitVec.and_assoc,
      BitVec.and_assoc, BitVec.and_self]
  · rw [if_neg hand] at hs ⊢
    intro hzero
    rw [← hle, BitVec.and_assoc, show set &&& want = 0#32 from hzero, BitVec.and_zero] at hs
    exact hs rfl

theorem left_le (set want : BitVec 32) (option : BitVec 8) : left set want option &&& set = left set want option := by
  unfold left
  split_ifs
  · rw [BitVec.and_comm, ← BitVec.and_assoc, BitVec.and_self]
  · exact BitVec.and_self

theorem left_of_not (h : ¬ Satisfied set want option) : left set want option = set := if_neg fun hs => h hs.1

end request

/-! ## The loop of a send -/

/-- One round of the loop. -/
def serve (s : EventState τ) (t : τ) : EventState τ :=
  if Satisfied s.set (s.eventSet t) (s.eventInfo t) then
    { s with
      threads := s.threads.resume t
      set := left s.set (s.eventSet t) (s.eventInfo t)
      eventSet := Function.update s.eventSet t (s.set &&& s.eventSet t) }
  else s

theorem wake_eq_serve {s : EventState τ} {t : τ} (hs : Satisfied s.set (s.eventSet t) (s.eventInfo t)) :
    wake (s.setEventSet t (s.set &&& s.eventSet t)) t = serve s t := by
  rw [serve, if_pos hs]
  simp only [wake, EventState.setEventSet, Function.update_self, and_not_and]
  by_cases hclear : s.eventInfo t &&& rtEventFlagClear ≠ 0
  · simp only [if_pos hclear, left, if_pos (And.intro hs hclear)]
  · simp only [if_neg hclear, left, if_neg (show ¬ (_ ∧ _) from fun h => hclear h.2)]

theorem sendWalk_cons {s : EventState τ} {t : τ} {rest : List τ} (h : Flagged (s.eventInfo t)) :
    sendWalk (t :: rest) s = ((sendWalk rest (serve s t)).1,
      ⟨t, s.set, (serve s t).set, decide (Satisfied s.set (s.eventSet t) (s.eventInfo t))⟩ ::
        (sendWalk rest (serve s t)).2) := by
  rw [sendWalk, sendStatus_eq h]
  by_cases hs : Satisfied s.set (s.eventSet t) (s.eventInfo t)
  · rw [if_pos hs]
    dsimp only
    rw [if_pos rfl, wake_eq_serve hs, decide_eq_true hs]
    rfl
  · have hsame : s.setEventSet t (s.eventSet t) = serve s t := by
      rw [serve, if_neg hs, EventState.setEventSet, Function.update_eq_self]
    rw [if_neg hs]
    dsimp only
    rw [if_neg (show rtError ≠ rtEok by decide), hsame, decide_eq_false hs]
    rfl

theorem sendLoop_cons {s : EventState τ} {t : τ} {rest : List τ} (h : Flagged (s.eventInfo t)) :
    sendLoop (t :: rest) s = sendLoop rest (serve s t) := by
  rw [sendLoop, sendWalk_cons h]
  rfl

/-- The event set that each waiting thread finds, one behind the other. -/
def turns (s : EventState τ) : List τ → BitVec 32 → List (τ × BitVec 32)
  | [], _ => []
  | t :: rest, set => (t, set) :: turns s rest (left set (s.eventSet t) (s.eventInfo t))

/-- The event set behind them all. -/
def leftBehind (s : EventState τ) (l : List τ) (set : BitVec 32) : BitVec 32 :=
  l.foldl (fun set t => left set (s.eventSet t) (s.eventInfo t)) set

omit [DecidableEq τ] in
theorem leftBehind_le (s : EventState τ) (l : List τ) (set : BitVec 32) :
    leftBehind s l set &&& set = leftBehind s l set := by
  induction l generalizing set with
  | nil => exact BitVec.and_self
  | cons t l ih =>
    have hnext := ih (left set (s.eventSet t) (s.eventInfo t))
    show leftBehind s l _ &&& set = leftBehind s l _
    rw [← hnext, BitVec.and_assoc, left_le, hnext]

omit [DecidableEq τ] in
theorem turns_congr {s s' : EventState τ} {l : List τ} (set : BitVec 32)
    (h : ∀ t ∈ l, s'.eventSet t = s.eventSet t ∧ s'.eventInfo t = s.eventInfo t) :
    turns s' l set = turns s l set ∧ leftBehind s' l set = leftBehind s l set := by
  induction l generalizing set with
  | nil => exact ⟨rfl, rfl⟩
  | cons t l ih =>
    obtain ⟨hset, hinfo⟩ := h t List.mem_cons_self
    obtain ⟨hturns, hleft⟩ := ih (left set (s.eventSet t) (s.eventInfo t)) fun u hu => h u (List.mem_cons_of_mem _ hu)
    rw [turns, turns, hset, hinfo, hturns]
    refine ⟨rfl, ?_⟩
    show leftBehind s' l (left set (s'.eventSet t) (s'.eventInfo t)) = _
    rw [hset, hinfo]
    exact hleft

/-- All threads wait in the one list. -/
abbrev place : Unit → Unit := id

/-- What a thread of the list has behind its turn, in which it finds `set`. -/
def Turn (s s' : EventState τ) (t : τ) (set : BitVec 32) : Prop :=
  if Satisfied set (s.eventSet t) (s.eventInfo t) then t ∉ s'.waiting ∧ s'.eventSet t = set &&& s.eventSet t
  else t ∈ s'.waiting ∧ s'.eventSet t = s.eventSet t

/-- The threads of the list have had their turns. -/
structure Serves (s s' : EventState τ) (l : List τ) : Prop where
  threads : s'.threads.Ok place
  set : s'.set = leftBehind s l s.set
  eventInfo : s'.eventInfo = s.eventInfo
  call : s'.threads.view.call = s.threads.view.call
  error : s'.threads.view.error = s.threads.view.error
  other : ∀ t ∉ l, (t ∈ s'.waiting ↔ t ∈ s.waiting) ∧ s'.eventSet t = s.eventSet t
  turn : ∀ x ∈ turns s l s.set, Turn s s' x.1 x.2

section loop

variable {s s' s'' : EventState τ} {t : τ} {l : List τ}

theorem serve_serves (hi : s.threads.Ok place) (hm : t ∈ s.waiting) : Serves s (serve s t) [t] := by
  unfold serve
  by_cases hs : Satisfied s.set (s.eventSet t) (s.eventInfo t)
  · rw [if_pos hs]
    have hview := IpcThreads.view_resume hi hm
    have hwaiting : (s.threads.resume t).view.waiting () = s.waiting.erase t := by
      rw [hview]
      rfl
    refine ⟨hi.resume hm, rfl, rfl, by rw [hview]; rfl, by rw [hview]; rfl, fun u hu => ?_, fun x hx => ?_⟩
    · have hut : u ≠ t := fun he => hu (he ▸ List.mem_singleton_self t)
      refine ⟨?_, Function.update_of_ne hut _ _⟩
      rw [EventState.waiting, hwaiting]
      exact List.mem_erase_of_ne hut
    · obtain rfl := List.mem_singleton.mp hx
      rw [Turn, if_pos hs, EventState.waiting, hwaiting]
      exact ⟨(hi.waiting_nodup ()).not_mem_erase, Function.update_self _ _ _⟩
  · rw [if_neg hs]
    refine ⟨hi, (left_of_not hs).symm, rfl, rfl, rfl, fun u _ => ⟨Iff.rfl, rfl⟩, fun x hx => ?_⟩
    obtain rfl := List.mem_singleton.mp hx
    rw [Turn, if_neg hs]
    exact ⟨hm, rfl⟩

omit [DecidableEq τ] in
theorem mem_turns {x : τ × BitVec 32} {set : BitVec 32} (hx : x ∈ turns s l set) : x.1 ∈ l := by
  induction l generalizing set with
  | nil => cases hx
  | cons t l ih =>
    rcases List.mem_cons.mp hx with rfl | hx
    · exact List.mem_cons_self
    · exact List.mem_cons_of_mem _ (ih hx)

omit [DecidableEq τ] in
theorem Serves.trans (h : Serves s s' [t]) (h' : Serves s' s'' l) (ht : t ∉ l) : Serves s s'' (t :: l) := by
  have hother (u : τ) (hu : u ∈ l) : s'.eventSet u = s.eventSet u ∧ s'.eventInfo u = s.eventInfo u :=
    ⟨(h.other u fun hm => ht (List.mem_singleton.mp hm ▸ hu)).2, congrFun h.eventInfo u⟩
  obtain ⟨hturns, hleft⟩ := turns_congr (left s.set (s.eventSet t) (s.eventInfo t)) hother
  refine ⟨h'.threads, ?_, h'.eventInfo.trans h.eventInfo, h'.call.trans h.call, h'.error.trans h.error,
    fun u hu => ?_, fun x hx => ?_⟩
  · rw [h'.set, h.set]
    exact hleft
  · obtain ⟨hw, hset⟩ := h.other u fun hm => List.ne_of_not_mem_cons hu (List.mem_singleton.mp hm)
    obtain ⟨hw', hset'⟩ := h'.other u (List.not_mem_of_not_mem_cons hu)
    exact ⟨hw'.trans hw, hset'.trans hset⟩
  · rcases List.mem_cons.mp hx with rfl | hx
    · have hturn := h.turn _ List.mem_cons_self
      obtain ⟨hw', hset'⟩ := h'.other t ht
      unfold Turn at hturn ⊢
      rw [hw', hset']
      exact hturn
    · obtain ⟨hset, hinfo⟩ := hother x.1 (mem_turns hx)
      have hx' : x ∈ turns s' l s'.set := by
        rw [h.set]
        exact hturns ▸ hx
      have hturn := h'.turn x hx'
      unfold Turn at hturn ⊢
      rw [hset, hinfo] at hturn
      exact hturn

theorem sendLoop_serves (hi : s.threads.Ok place) (hnd : l.Nodup) (hl : ∀ t ∈ l, t ∈ s.waiting)
    (hflag : ∀ t ∈ l, Flagged (s.eventInfo t)) : ∃ s', sendLoop l s = (s', rtEok) ∧ Serves s s' l := by
  induction l generalizing s with
  | nil =>
    exact ⟨s, rfl, hi, rfl, rfl, rfl, rfl, fun _ _ => ⟨Iff.rfl, rfl⟩, fun x hx => by cases hx⟩
  | cons t l ih =>
    obtain ⟨ht, hnd⟩ := List.nodup_cons.mp hnd
    have hserve := serve_serves hi (hl t List.mem_cons_self)
    have hne (u : τ) (hu : u ∈ l) : u ∉ [t] := fun hm => ht (List.mem_singleton.mp hm ▸ hu)
    obtain ⟨s', hs', hserves⟩ := ih hserve.threads hnd
      (fun u hu => (hserve.other u (hne u hu)).1.mpr (hl u (List.mem_cons_of_mem _ hu)))
      (fun u hu => by
        rw [hserve.eventInfo]
        exact hflag u (List.mem_cons_of_mem _ hu))
    refine ⟨s', ?_, hserve.trans hserves ht⟩
    rw [sendLoop_cons (hflag t List.mem_cons_self), hs']

end loop

/-! ## What a step does -/

/-- A thread that waits can be satisfied, but not by the event set. -/
structure EventInv (s : EventState τ) : Prop where
  threads : s.threads.Ok place
  waiter : ∀ t ∈ s.waiting, Flagged (s.eventInfo t) ∧ ¬ Satisfied s.set (s.eventSet t) (s.eventInfo t)

/-- A step in which the thread does not go on: in its call it waits as before, or leaves the list; and once out of it
it keeps its error and what it received. -/
structure Keeps (s s' : EventState τ) (t : τ) : Prop where
  call : s.threads.view.call t = some () → s'.threads.view.call t = some ()
  waits : s.threads.view.call t = some () → t ∈ s'.waiting →
    t ∈ s.waiting ∧ s'.eventSet t = s.eventSet t ∧ s'.eventInfo t = s.eventInfo t
  outside : s.threads.view.call t = some () → t ∉ s.waiting →
    t ∉ s'.waiting ∧ s'.threads.view.error t = s.threads.view.error t ∧ s'.eventSet t = s.eventSet t

/-- A step of one thread, which sets no event and leaves the other threads alone. -/
structure Own (s s' : EventState τ) (u : τ) : Prop where
  threads : s'.threads.Ok place
  set : s'.set &&& s.set = s'.set
  waiting : ∀ t ≠ u, (t ∈ s'.waiting ↔ t ∈ s.waiting)
  same : ∀ t ≠ u, s'.threads.view.call t = s.threads.view.call t ∧ s'.threads.view.error t = s.threads.view.error t ∧
    s'.eventSet t = s.eventSet t ∧ s'.eventInfo t = s.eventInfo t

section steps

variable {flag : IpcFlag} {s s' : EventState τ} {t u : τ} {set want : BitVec 32} {option : BitVec 8}
  {timeout : BitVec 32}

omit [DecidableEq τ] in
theorem Own.inv (h : Own s s' u) (hi : EventInv s)
    (hu : u ∈ s'.waiting → Flagged (s'.eventInfo u) ∧ ¬ Satisfied s'.set (s'.eventSet u) (s'.eventInfo u)) :
    EventInv s' := by
  refine ⟨h.threads, fun t ht => ?_⟩
  by_cases htu : t = u
  · exact htu ▸ hu (htu ▸ ht)
  · obtain ⟨-, -, hset, hinfo⟩ := h.same t htu
    obtain ⟨hflag, hnot⟩ := hi.waiter t ((h.waiting t htu).mp ht)
    rw [hset, hinfo]
    exact ⟨hflag, fun hs => hnot (hs.mono h.set)⟩

omit [DecidableEq τ] in
theorem Own.keeps (h : Own s s' u) (htu : t ≠ u) : Keeps s s' t := by
  obtain ⟨hcall, herr, hset, hinfo⟩ := h.same t htu
  exact ⟨fun hc => hcall.trans hc, fun _ ht => ⟨(h.waiting t htu).mp ht, hset, hinfo⟩,
    fun _ hnot => ⟨fun ht => hnot ((h.waiting t htu).mp ht), herr, hset⟩⟩

omit [DecidableEq τ] in
theorem Keeps.of_idle (h : s.threads.view.call t = none) : Keeps s s' t where
  call hc := by simp [h] at hc
  waits hc := by simp [h] at hc
  outside hc := by simp [h] at hc

theorem Own.of_runs {w : IpcThreads τ Unit Unit} (e : Int) (hi : EventInv s) (hr : s.threads.Runs t)
    (hok : w.Ok place) (hview : w.view = s.threads.view.setError t e) (hthreads : s'.threads = w)
    (hset : s'.set &&& s.set = s'.set)
    (hsame : ∀ u ≠ t, s'.eventSet u = s.eventSet u ∧ s'.eventInfo u = s.eventInfo u) :
    Own s s' t ∧ EventInv s' := by
  have hwaiting : s'.waiting = s.waiting := by
    rw [EventState.waiting, hthreads, hview]
    rfl
  have hown : Own s s' t := by
    refine ⟨hthreads ▸ hok, hset, fun u _ => by rw [hwaiting], fun u hut => ⟨?_, ?_, hsame u hut⟩⟩
    · rw [hthreads, hview]
      rfl
    · rw [hthreads, hview]
      exact Function.update_of_ne hut _ _
  refine ⟨hown, hown.inv hi fun hm => ?_⟩
  rw [hwaiting] at hm
  exact absurd hm (hi.threads.not_waiting hr ())

theorem rtEventRecv_satisfied (flag : IpcFlag) (timeout : BitVec 32) (hi : EventInv s)
    (hc : s.threads.caller = some t) (hwant : want ≠ 0) (hflag : Flagged option) (hs : Satisfied s.set want option) :
    ∃ s', rtEventRecv flag s t want option timeout = some (s', some ⟨rtEok, some (s.set &&& want)⟩) ∧
      Own s s' t ∧ EventInv s' ∧ s'.set = left s.set want option := by
  unfold rtEventRecv
  rw [if_neg hwant, recvStatus_eq hflag, Option.bind_some, if_pos hs]
  dsimp only
  rw [if_pos rfl]
  have hset : (if option &&& rtEventFlagClear ≠ 0 then s.set &&& ~~~ want else s.set) = left s.set want option := by
    unfold left
    by_cases hclear : option &&& rtEventFlagClear ≠ 0
    · rw [if_pos hclear, if_pos ⟨hs, hclear⟩]
    · rw [if_neg hclear, if_neg fun h => hclear h.2]
  refine ⟨_, rfl, ?_⟩
  rw [← and_assoc]
  refine ⟨Own.of_runs rtEok hi (.inl hc) (hi.threads.setError (.inl hc) rtEok) (IpcThreads.view_setError _ _ _) ?_
    ?_ fun u hut => ?_, ?_⟩
  all_goals split_ifs with hclear
  · rfl
  · rfl
  · show s.set &&& ~~~ want &&& s.set = s.set &&& ~~~ want
    rw [BitVec.and_comm, ← BitVec.and_assoc, BitVec.and_self]
  · exact BitVec.and_self
  · exact ⟨Function.update_of_ne hut _ _, Function.update_of_ne hut _ _⟩
  · exact ⟨Function.update_of_ne hut _ _, Function.update_of_ne hut _ _⟩
  · rw [← hset, if_pos hclear]
    rfl
  · rw [← hset, if_neg hclear]
    rfl

theorem rtEventRecv_refused (flag : IpcFlag) (hi : EventInv s) (hc : s.threads.caller = some t) (hwant : want ≠ 0)
    (hflag : Flagged option) (hnot : ¬ Satisfied s.set want option) :
    ∃ s', rtEventRecv flag s t want option 0 = some (s', some ⟨rtEtimeout, none⟩) ∧
      Own s s' t ∧ EventInv s' ∧ s'.set = s.set := by
  unfold rtEventRecv
  rw [if_neg hwant, recvStatus_eq hflag, Option.bind_some, if_neg hnot]
  dsimp only
  rw [if_neg (show ¬ rtError = rtEok by decide), if_pos rfl]
  refine ⟨_, rfl, ?_⟩
  rw [← and_assoc]
  refine ⟨Own.of_runs rtEtimeout hi (.inl hc) ((hi.threads.setError (.inl hc) rtEok).setError
    ((IpcThreads.setError_runs _ _ _ _).mpr (.inl hc)) rtEtimeout) ?_ rfl BitVec.and_self fun _ _ => ⟨rfl, rfl⟩, rfl⟩
  rw [IpcThreads.view_setError, IpcThreads.view_setError, IpcView.setError, IpcView.setError, IpcView.setError]
  simp only [Function.update_idem]

theorem rtEventRecv_waits (flag : IpcFlag) (hi : EventInv s) (hc : s.threads.caller = some t) (hwant : want ≠ 0)
    (hflag : Flagged option) (hnot : ¬ Satisfied s.set want option) (htime : timeout ≠ 0) :
    ∃ s', rtEventRecv flag s t want option timeout = some (s', none) ∧ Own s s' t ∧
      s'.threads.view.call t = some () ∧ s'.set = s.set ∧ s'.eventSet t = want ∧ s'.eventInfo t = option := by
  have hrun : (s.setError t rtEok).threads.Runs t := (IpcThreads.setError_runs _ _ _ _).mpr (.inl hc)
  have hok : (s.setError t rtEok).threads.Ok place := hi.threads.setError (.inl hc) rtEok
  have herr : (s.setError t rtEok).threads.view.error t = rtEok := IpcThreads.error_setError _ t rtEok
  obtain ⟨w, hw⟩ := IpcThreads.suspendOn_defined hok hrun () flag ((0#32).slt timeout) ()
  obtain ⟨hok', i, hle, hview⟩ := IpcThreads.suspendOn_spec hok hrun herr rfl hw
  rw [EventState.setError, IpcThreads.view_setError] at hle hview
  unfold rtEventRecv
  rw [if_neg hwant, recvStatus_eq hflag, Option.bind_some, if_neg hnot]
  dsimp only
  have hthreads : (((s.setError t rtEok).setEventSet t want).setEventInfo t option).threads =
      (s.setError t rtEok).threads := rfl
  rw [if_neg (show ¬ rtError = rtEok by decide), if_neg htime, hthreads, hw]
  refine ⟨_, rfl, ⟨hok', BitVec.and_self, fun u hut => ?_, fun u hut => ?_⟩, ?_, rfl, Function.update_self _ _ _,
    Function.update_self _ _ _⟩
  · show u ∈ w.view.waiting () ↔ _
    rw [hview, IpcView.mem_suspend hle]
    simp [hut]
  · refine ⟨?_, ?_, Function.update_of_ne hut _ _, Function.update_of_ne hut _ _⟩
    · show w.view.call u = _
      simp [hview, hut]
    · show w.view.error u = _
      simp [hview, hut]
  · show w.view.call t = _
    simp [hview]

theorem rtEventRecv_spec {r : Option RecvReturn} (hi : EventInv s) (hc : s.threads.caller = some t)
    (hs : rtEventRecv flag s t want option timeout = some (s', r)) : EventInv s' ∧ ∀ u, Keeps s s' u := by
  have hkeeps (hown : Own s s' t) (u : τ) : Keeps s s' u := by
    by_cases hut : u = t
    · exact .of_idle (hut ▸ IpcThreads.caller_call hc)
    · exact hown.keeps hut
  by_cases hwant : want = 0
  · rw [rtEventRecv, if_pos hwant] at hs
    obtain ⟨rfl, -⟩ := Prod.mk.inj (Option.some.inj hs)
    exact ⟨hi, hkeeps ⟨hi.threads, BitVec.and_self, fun _ _ => Iff.rfl, fun _ _ => ⟨rfl, rfl, rfl, rfl⟩⟩⟩
  have hflag : Flagged option := by
    by_contra hno
    rw [rtEventRecv, if_neg hwant, recvStatus, if_neg fun h => hno (.inl h), if_neg fun h => hno (.inr h)] at hs
    cases hs
  by_cases hsat : Satisfied s.set want option
  · obtain ⟨s₁, heq, hown, hinv, -⟩ := rtEventRecv_satisfied flag timeout hi hc hwant hflag hsat
    obtain ⟨rfl, -⟩ := Prod.mk.inj (Option.some.inj (heq.symm.trans hs))
    exact ⟨hinv, hkeeps hown⟩
  by_cases htime : timeout = 0
  · subst htime
    obtain ⟨s₁, heq, hown, hinv, -⟩ := rtEventRecv_refused flag hi hc hwant hflag hsat
    obtain ⟨rfl, -⟩ := Prod.mk.inj (Option.some.inj (heq.symm.trans hs))
    exact ⟨hinv, hkeeps hown⟩
  · obtain ⟨s₁, heq, hown, -, hset, hevent, hinfo⟩ := rtEventRecv_waits flag hi hc hwant hflag hsat htime
    obtain ⟨rfl, -⟩ := Prod.mk.inj (Option.some.inj (heq.symm.trans hs))
    refine ⟨hown.inv hi fun _ => ?_, hkeeps hown⟩
    rw [hset, hevent, hinfo]
    exact ⟨hflag, hsat⟩

theorem leave_own (hi : EventInv s) (hr : s.threads.Runs t) : Own s (s.leave t) t ∧ EventInv (s.leave t) := by
  have hview : (s.leave t).threads.view = s.threads.view.setCall t none := IpcThreads.view_setPc _ _ _
  have hwaiting : (s.leave t).waiting = s.waiting := by
    rw [EventState.waiting, hview]
    rfl
  have hown : Own s (s.leave t) t := by
    refine ⟨hi.threads.leave hr, BitVec.and_self, fun u _ => by rw [hwaiting], fun u hut => ⟨?_, ?_, rfl, rfl⟩⟩
    · rw [hview]
      exact Function.update_of_ne hut _ _
    · rw [hview]
      rfl
  refine ⟨hown, hown.inv hi fun hm => ?_⟩
  rw [hwaiting] at hm
  exact absurd hm (hi.threads.not_waiting hr ())

omit [DecidableEq τ] in
theorem exists_turn {l : List τ} (ht : t ∈ l) (set : BitVec 32) :
    ∃ E, (t, E) ∈ turns s l set ∧ leftBehind s l set &&& E = leftBehind s l set := by
  induction l generalizing set with
  | nil => cases ht
  | cons u l ih =>
    rcases List.mem_cons.mp ht with rfl | ht
    · exact ⟨set, List.mem_cons_self, leftBehind_le s (t :: l) set⟩
    · obtain ⟨E, hE, hle⟩ := ih ht (left set (s.eventSet u) (s.eventInfo u))
      exact ⟨E, List.mem_cons_of_mem _ hE, hle⟩

/-- A send lets the waiting threads have their turns, in the order of the list. -/
theorem rtEventSend_serves (hi : EventInv s) (hset : set ≠ 0) : ∃ s', rtEventSend s set = (s', rtEok) ∧
    Serves { s with set := s.set ||| set } s' s.waiting := by
  rw [rtEventSend, if_neg hset]
  exact sendLoop_serves hi.threads (hi.threads.waiting_nodup ()) (fun _ => id) fun t ht => (hi.waiter t ht).1

omit [DecidableEq τ] in
/-- A thread that still waits behind the turns was not satisfied, and is not by what is left. -/
theorem Serves.waits {l : List τ} (h : Serves s s' l) (ht : t ∈ l) (hm : t ∈ s'.waiting) :
    s'.eventSet t = s.eventSet t ∧ ¬ Satisfied s'.set (s.eventSet t) (s.eventInfo t) := by
  obtain ⟨E, hE, hle⟩ := exists_turn (s := s) ht s.set
  have hturn := h.turn _ hE
  unfold Turn at hturn
  split_ifs at hturn with hsat
  · exact absurd hm hturn.1
  · exact ⟨hturn.2, fun hs => hsat (hs.mono (by rw [h.set]; exact hle))⟩

theorem rtEventSend_spec (hi : EventInv s) (set : BitVec 32) :
    EventInv (rtEventSend s set).1 ∧ ∀ t, Keeps s (rtEventSend s set).1 t := by
  by_cases hset : set = 0
  · rw [rtEventSend, if_pos hset]
    exact ⟨hi, fun t => ⟨id, fun _ hm => ⟨hm, rfl, rfl⟩, fun _ hnot => ⟨hnot, rfl, rfl⟩⟩⟩
  obtain ⟨s', hs', hserves⟩ := rtEventSend_serves hi hset
  rw [hs']
  have hinfo (t : τ) : s'.eventInfo t = s.eventInfo t := congrFun hserves.eventInfo t
  have hwaits (t : τ) (hm : t ∈ s'.waiting) : t ∈ s.waiting := by
    by_contra hnot
    exact hnot ((hserves.other t hnot).1.mp hm)
  refine ⟨⟨hserves.threads, fun t ht => ?_⟩, fun t => ⟨fun hc => ?_, fun _ ht => ?_, fun _ hnot => ?_⟩⟩
  · obtain ⟨hevent, hnot⟩ := hserves.waits (hwaits t ht) ht
    rw [hinfo, hevent]
    exact ⟨(hi.waiter t (hwaits t ht)).1, hnot⟩
  · rw [hserves.call]
    exact hc
  · exact ⟨hwaits t ht, (hserves.waits (hwaits t ht) ht).1, hinfo t⟩
  · obtain ⟨hw, hevent⟩ := hserves.other t hnot
    exact ⟨fun hm => hnot (hw.mp hm), congrFun hserves.error t, hevent⟩

theorem rtEventReset_spec (hi : EventInv s) : EventInv (rtEventReset s) ∧ ∀ t, Keeps s (rtEventReset s) t := by
  obtain ⟨hok, hempty, -⟩ := IpcThreads.resumeAll_spec hi.threads ()
  have hcall (t : τ) : (rtEventReset s).threads.view.call t = s.threads.view.call t :=
    congrFun (IpcThreads.resumeAll_call s.threads ()) t
  have hnot (t : τ) : t ∉ (rtEventReset s).waiting := by
    rw [show (rtEventReset s).waiting = [] from hempty]
    exact List.not_mem_nil
  exact ⟨⟨hok, fun t ht => absurd ht (hnot t)⟩, fun t => ⟨fun hc => (hcall t).trans hc, fun _ ht =>
    absurd ht (hnot t), fun _ hmem => ⟨hnot t, IpcThreads.resumeAll_error hi.threads hmem, rfl⟩⟩⟩

theorem env_spec {a : EnvAction τ} {w : IpcThreads τ Unit Unit} (hi : EventInv s) (hw : s.threads.envStep a = some w) :
    EventInv { s with threads := w } ∧ ∀ t, Keeps s { s with threads := w } t := by
  obtain ⟨hok, heff⟩ := IpcThreads.envStep_spec hi.threads hw
  rcases heff with ⟨u, -, hview, hwaits⟩ | ⟨-, hview⟩
  · have hmem (t : τ) (ht : t ∈ w.view.waiting ()) : t ∈ s.waiting := by
      rw [hview] at ht
      exact List.mem_of_mem_erase ht
    refine ⟨⟨hok, fun t ht => hi.waiter t (hmem t ht)⟩, fun t => ⟨fun hc => ?_, fun _ ht => ⟨hmem t ht, rfl, rfl⟩,
      fun hc hnot => ⟨fun hm => hnot (hmem t hm), ?_, rfl⟩⟩⟩
    · show w.view.call t = _
      rw [hview]
      exact hc
    · -- the thread whose timer fires waits, so it is not this one
      have htu : t ≠ u := fun he => hnot (he ▸ hwaits () (he ▸ hc))
      show w.view.error t = _
      rw [hview]
      simp [htu]
  · have hmem (t : τ) (ht : t ∈ w.view.waiting ()) : t ∈ s.waiting := by
      rw [hview] at ht
      exact ht
    refine ⟨⟨hok, fun t ht => hi.waiter t (hmem t ht)⟩, fun t => ⟨fun hc => ?_, fun _ ht => ⟨hmem t ht, rfl, rfl⟩,
      fun _ hnot => ⟨fun hm => hnot (hmem t hm), ?_, rfl⟩⟩⟩
    · show w.view.call t = _
      rw [hview]
      exact hc
    · show w.view.error t = _
      rw [hview]

/-- The thread goes on behind `rt_schedule`. -/
def goesOn (t : τ) (s : EventState τ) : EventAction τ → Bool
  | .goOn => decide (s.threads.kernel.current = some t)
  | _ => false

theorem eventStep_spec {a : EventAction τ} {r : Option EventReturn} (hi : EventInv s)
    (hs : eventStep flag s a = some (s', r)) : EventInv s' ∧ ∀ t, goesOn t s a = false → Keeps s s' t := by
  cases a with
  | recv want option timeout =>
    obtain ⟨t, hc, hs⟩ := Option.bind_eq_some_iff.mp hs
    obtain ⟨⟨s₁, r₁⟩, hrecv, heq⟩ := Option.map_eq_some_iff.mp hs
    obtain ⟨rfl, -⟩ := Prod.mk.inj heq
    obtain ⟨hinv, hkeeps⟩ := rtEventRecv_spec hi hc hrecv
    exact ⟨hinv, fun t _ => hkeeps t⟩
  | goOn =>
    obtain ⟨⟨u, c⟩, hc, heq⟩ := Option.map_eq_some_iff.mp hs
    have hleave : (eventRecvGoOn s u).1 = s.leave u := by
      unfold eventRecvGoOn
      split_ifs <;> rfl
    obtain rfl := (congrArg Prod.fst heq).symm.trans hleave
    obtain ⟨hown, hinv⟩ := leave_own hi (.inr ⟨c, hc⟩)
    refine ⟨hinv, fun t ht => hown.keeps fun he => ?_⟩
    exact of_decide_eq_false ht (he ▸ (IpcThreads.returning_eq.mp hc).1)
  | send set =>
    obtain ⟨rfl, -⟩ := Prod.mk.inj (Option.some.inj hs)
    obtain ⟨hinv, hkeeps⟩ := rtEventSend_spec hi set
    exact ⟨hinv, fun t _ => hkeeps t⟩
  | reset =>
    obtain ⟨rfl, -⟩ := Prod.mk.inj (Option.some.inj hs)
    obtain ⟨hinv, hkeeps⟩ := rtEventReset_spec hi
    exact ⟨hinv, fun t _ => hkeeps t⟩
  | env a =>
    obtain ⟨w, hw, heq⟩ := Option.map_eq_some_iff.mp hs
    obtain ⟨rfl, -⟩ := Prod.mk.inj heq
    obtain ⟨hinv, hkeeps⟩ := env_spec hi hw
    exact ⟨hinv, fun t _ => hkeeps t⟩

end steps

/-! ## All runs -/

section runs

variable {flag : IpcFlag} {h h' : History (EventState τ) (EventAction τ)} {s s' p p₁ p₂ p₃ : EventState τ} {t : τ}
  {E R S timeout : BitVec 32} {option : BitVec 8} {code : Int} {r : RecvReturn}

theorem eventInv (hrun : (event τ flag).Run h s) : EventInv s := by
  refine hrun.always (I := fun _ s => EventInv s) ?_ ?_
  · rintro s ⟨hthreads, -⟩
    refine ⟨hthreads.ok, fun t ht => ?_⟩
    rw [show s.waiting = [] from hthreads.waiting ()] at ht
    cases ht
  · intro h s a s' _ hi hs
    obtain ⟨⟨s₁, r⟩, hstep, rfl⟩ := Option.map_eq_some_iff.mp hs
    exact (eventStep_spec hi hstep).1

theorem waiting_unsatisfied (hrun : (event τ flag).Run h s) (ht : t ∈ s.waiting) :
    recvStatus s.set (s.eventSet t) (s.eventInfo t) = some rtError := by
  obtain ⟨hflag, hnot⟩ := (eventInv hrun).waiter t ht
  rw [recvStatus_eq hflag, if_neg hnot]

theorem recvStatus_error (h : recvStatus E R option = some rtError) : Flagged option ∧ ¬ Satisfied E R option := by
  have hflag : Flagged option := by
    by_contra hno
    rw [recvStatus, if_neg fun h => hno (.inl h), if_neg fun h => hno (.inr h)] at h
    cases h
  refine ⟨hflag, fun hs => ?_⟩
  rw [recvStatus_eq hflag, if_pos hs] at h
  cases h

theorem keeps_steps {P : EventState τ → Prop} (hP : ∀ s s', EventInv s → Keeps s s' t → P s → P s')
    (hi : EventInv s) (hs : (event τ flag).Steps (fun s a => goesOn t s a = false) s s') (hp : P s) :
    EventInv s' ∧ P s' := by
  refine hs.keeps (I := fun s => EventInv s ∧ P s) ?_ ⟨hi, hp⟩
  rintro s a s' ⟨hi, hp⟩ ha hs
  obtain ⟨⟨s₁, r⟩, hstep, rfl⟩ := Option.map_eq_some_iff.mp hs
  obtain ⟨hinv, hkeeps⟩ := eventStep_spec hi hstep
  exact ⟨hinv, hP _ _ hi (hkeeps t ha) hp⟩

/-- From the call to the thread's return, a waiting thread has its request. -/
def Waits (t : τ) (want : BitVec 32) (option : BitVec 8) (s : EventState τ) : Prop :=
  s.threads.view.call t = some () ∧ (t ∈ s.waiting → s.eventSet t = want ∧ s.eventInfo t = option)

/-- From its resumption to its return, a thread has what it received. -/
def Received (t : τ) (recved : BitVec 32) (s : EventState τ) : Prop :=
  s.threads.view.Woken place () t ∧ s.eventSet t = recved

omit [DecidableEq τ] in
theorem Waits.keeps {want : BitVec 32} (hk : Keeps s s' t) (h : Waits t want option s) : Waits t want option s' := by
  refine ⟨hk.call h.1, fun ht => ?_⟩
  obtain ⟨hm, hset, hinfo⟩ := hk.waits h.1 ht
  rw [hset, hinfo]
  exact h.2 hm

omit [DecidableEq τ] in
theorem Received.keeps {recved : BitVec 32} (hk : Keeps s s' t) (h : Received t recved s) : Received t recved s' := by
  obtain ⟨⟨⟨c, hc, hplace⟩, hnot, herr⟩, hset⟩ := h
  obtain ⟨hnot', herr', hset'⟩ := hk.outside hc hnot
  exact ⟨⟨⟨c, hk.call hc, hplace⟩, hnot', herr'.trans herr⟩, hset'.trans hset⟩

/-- From the firing of its timer to its return, a thread has the error for that. -/
def Expired (t : τ) (s : EventState τ) : Prop :=
  s.threads.view.call t = some () ∧ t ∉ s.waiting ∧ s.threads.view.error t = rtEtimeout

omit [DecidableEq τ] in
theorem Expired.keeps (hk : Keeps s s' t) (h : Expired t s) : Expired t s' := by
  obtain ⟨hc, hnot, herr⟩ := h
  obtain ⟨hnot', herr', -⟩ := hk.outside hc hnot
  exact ⟨hk.call hc, hnot', herr'.trans herr⟩

/-- The timer of a thread in its call fires only while the thread waits. -/
theorem timeout_expired (hi : EventInv s) (hc : s.threads.view.call t = some ())
    (hs : (event τ flag).step s (.env (.timeout t)) = some s') : EventInv s' ∧ Expired t s' := by
  obtain ⟨⟨s₁, r⟩, hstep, rfl⟩ := Option.map_eq_some_iff.mp hs
  obtain ⟨w, hw, heq⟩ := Option.map_eq_some_iff.mp hstep
  obtain ⟨rfl, -⟩ := Prod.mk.inj heq
  refine ⟨(env_spec hi hw).1, ?_⟩
  obtain ⟨-, ⟨u, hu, hview, -⟩ | ⟨hno, -⟩⟩ := IpcThreads.envStep_spec hi.threads hw
  · obtain rfl := EnvAction.timeout.inj hu
    refine ⟨?_, ?_, ?_⟩
    · show w.view.call t = _
      rw [hview]
      exact hc
    · show t ∉ w.view.waiting ()
      rw [hview]
      exact (hi.threads.waiting_nodup ()).not_mem_erase
    · show w.view.error t = _
      rw [hview]
      exact Function.update_self _ _ _
  · exact absurd rfl (hno t)

theorem rtEventSend_one (hi : EventInv s) (hS : S ≠ 0) (hone : s.waiting = [t]) (hw : Waits t R option s) :
    ∃ s', rtEventSend s S = (s', rtEok) ∧ EventInv s' ∧ s'.set = left (s.set ||| S) R option ∧
      (t ∈ s'.waiting ↔ ¬ Satisfied (s.set ||| S) R option) ∧
      (Satisfied (s.set ||| S) R option → Received t ((s.set ||| S) &&& R) s') := by
  obtain ⟨s', hs', hserves⟩ := rtEventSend_serves hi hS
  have hinv : EventInv s' := by
    have := (rtEventSend_spec hi S).1
    rwa [hs'] at this
  have ht : t ∈ s.waiting := hone ▸ List.mem_singleton_self t
  obtain ⟨hset, hinfo⟩ := hw.2 ht
  rw [hone] at hserves
  have hturn := hserves.turn (t, s.set ||| S) List.mem_cons_self
  have hleft := hserves.set
  simp only [Turn, leftBehind, List.foldl_cons, List.foldl_nil, hset, hinfo] at hturn hleft
  refine ⟨s', hs', hinv, hleft, ?_⟩
  by_cases hsat : Satisfied (s.set ||| S) R option
  · rw [if_pos hsat] at hturn
    refine ⟨⟨fun hm => absurd hm hturn.1, fun hno => absurd hsat hno⟩, fun _ => ⟨⟨⟨(), ?_, rfl⟩, hturn.1, ?_⟩,
      hturn.2⟩⟩
    · rw [hserves.call]
      exact hw.1
    · rw [hserves.error]
      exact hi.threads.waiting_error ht
  · rw [if_neg hsat] at hturn
    exact ⟨⟨fun _ => hsat, fun _ => hturn.1⟩, fun h => absurd h hsat⟩

/-- The steps apart from the calls. -/
def isEnv : EventAction τ → Bool
  | .env _ => true
  | _ => false

theorem env_steps (hi : EventInv p) (hs : (event τ flag).Steps (fun _ a => isEnv a = true) p p₁) :
    EventInv p₁ ∧ p₁.set = p.set := by
  refine hs.keeps (I := fun s => EventInv s ∧ s.set = p.set) ?_ ⟨hi, rfl⟩
  rintro s a s' ⟨hi, hset⟩ ha hs
  obtain ⟨⟨s₁, r⟩, hstep, rfl⟩ := Option.map_eq_some_iff.mp hs
  refine ⟨(eventStep_spec hi hstep).1, ?_⟩
  cases a with
  | env a =>
    obtain ⟨w, -, heq⟩ := Option.map_eq_some_iff.mp hstep
    obtain ⟨rfl, -⟩ := Prod.mk.inj heq
    exact hset
  | recv | goOn | send | reset => cases ha

/-- `E` is present and does not satisfy the request. On one side `S` is sent while nobody waits, and then a thread
receives without waiting: `r` and the set of `p₃`. On the other side a thread receives first and blocks, and then `S`
is sent while it waits alone, and `E` is present: the sets are the same, it is resumed exactly if the other one is
successful, and when it goes on it returns `r`. If it is not resumed by the send, and its timer fires, it returns `r`,
too. -/
theorem event_wait_agrees_with_poll (hR : R ≠ 0) (hS : S ≠ 0) (hE : recvStatus E R option = some rtError)
    (hp : (event τ flag).Run h' p) (hpE : p.set = E) (hnobody : p.waiting = [])
    (hpsend : eventStep flag p (.send S) = some (p₁, some (.sent code)))
    (hpenv : (event τ flag).Steps (fun _ a => isEnv a = true) p₁ p₂)
    (hpoll : eventStep flag p₂ (.recv R option 0) = some (p₃, some (.received r)))
    (hrun : (event τ flag).Run h s) (hsE : s.set = E) (ht : s.threads.caller = some t) (htimeout : timeout ≠ 0) :
    ∃ s₁, eventStep flag s (.recv R option timeout) = some (s₁, none) ∧
      ∀ s₂, (event τ flag).Steps (fun s a => goesOn t s a = false) s₁ s₂ → s₂.set = E → s₂.waiting = [t] →
        ∃ s₃, eventStep flag s₂ (.send S) = some (s₃, some (.sent rtEok)) ∧ s₃.set = p₃.set ∧
          (t ∉ s₃.waiting ↔ r.code = rtEok) ∧
          (r.code = rtEok → ∀ s₄ s₅ r', (event τ flag).Steps (fun s a => goesOn t s a = false) s₃ s₄ →
            goesOn t s₄ .goOn = true → eventStep flag s₄ .goOn = some (s₅, some (.received r')) → r' = r) ∧
          (r.code ≠ rtEok → ∀ s₄ s₅ s₆ s₇ r', (event τ flag).Steps (fun s a => goesOn t s a = false) s₃ s₄ →
            (event τ flag).step s₄ (.env (.timeout t)) = some s₅ →
            (event τ flag).Steps (fun s a => goesOn t s a = false) s₅ s₆ → goesOn t s₆ .goOn = true →
            eventStep flag s₆ .goOn = some (s₇, some (.received r')) → r' = r) := by
  obtain ⟨hflag, hnot⟩ := recvStatus_error hE
  -- the side that polls
  have hpoll' : p₃.set = left (E ||| S) R option ∧
      r = if Satisfied (E ||| S) R option then ⟨rtEok, some ((E ||| S) &&& R)⟩ else ⟨rtEtimeout, none⟩ := by
    have hp₁ : EventInv p₁ ∧ p₁.set = E ||| S := by
      have hinv := (eventStep_spec (eventInv hp) hpsend).1
      rw [eventStep, rtEventSend, if_neg hS, hnobody, sendLoop, sendWalk, hpE] at hpsend
      obtain ⟨rfl, -⟩ := Prod.mk.inj (Option.some.inj hpsend)
      exact ⟨hinv, rfl⟩
    obtain ⟨hi₂, hset₂⟩ := env_steps hp₁.1 hpenv
    rw [hp₁.2] at hset₂
    obtain ⟨u, hu, hpoll⟩ := Option.bind_eq_some_iff.mp hpoll
    rw [← hset₂]
    by_cases hsat : Satisfied p₂.set R option
    · obtain ⟨p', hrecv, -, -, hleft⟩ := rtEventRecv_satisfied flag 0 hi₂ hu hR hflag hsat
      rw [hrecv] at hpoll
      obtain ⟨rfl, hr⟩ := Prod.mk.inj (Option.some.inj hpoll)
      rw [if_pos hsat]
      exact ⟨hleft, (EventReturn.received.inj (Option.some.inj hr)).symm⟩
    · obtain ⟨p', hrecv, -, -, hleft⟩ := rtEventRecv_refused flag hi₂ hu hR hflag hsat
      rw [hrecv] at hpoll
      obtain ⟨rfl, hr⟩ := Prod.mk.inj (Option.some.inj hpoll)
      rw [if_neg hsat]
      exact ⟨hleft.trans (left_of_not hsat).symm, (EventReturn.received.inj (Option.some.inj hr)).symm⟩
  obtain ⟨hpset, rfl⟩ := hpoll'
  -- the side that waits
  have hi := eventInv hrun
  obtain ⟨s₁, hrecv, hown, hcall, hset₁, hevent, hinfo⟩ := rtEventRecv_waits flag hi ht hR hflag (hsE ▸ hnot)
    htimeout
  have hi₁ : EventInv s₁ := by
    refine hown.inv hi fun _ => ?_
    rw [hset₁, hevent, hinfo, hsE]
    exact ⟨hflag, hnot⟩
  refine ⟨s₁, ?_, fun s₂ hsteps hset₂ hone => ?_⟩
  · rw [eventStep, ht, Option.bind_some, hrecv]
    rfl
  obtain ⟨hi₂, hw₂⟩ := keeps_steps (fun _ _ _ => Waits.keeps) hi₁ hsteps ⟨hcall, fun _ => ⟨hevent, hinfo⟩⟩
  obtain ⟨s₃, hsend, hi₃, hset₃, hmem, hreceived⟩ := rtEventSend_one hi₂ hS hone hw₂
  rw [hset₂] at hset₃ hmem hreceived
  have hcall₃ : s₃.threads.view.call t = some () := by
    have hkeeps := (rtEventSend_spec hi₂ S).2 t
    rw [hsend] at hkeeps
    exact hkeeps.call hw₂.1
  have hgoes {s s' : EventState τ} {r' : RecvReturn} (hgoes : goesOn t s .goOn = true)
      (hgo : eventStep flag s .goOn = some (s', some (.received r'))) : (eventRecvGoOn s t).2 = r' := by
    obtain ⟨⟨u, c⟩, hu, heq⟩ := Option.map_eq_some_iff.mp hgo
    obtain rfl : u = t :=
      Option.some.inj ((IpcThreads.returning_eq.mp hu).1.symm.trans (of_decide_eq_true hgoes))
    exact EventReturn.received.inj (Option.some.inj (Prod.mk.inj heq).2)
  refine ⟨s₃, ?_, hset₃.trans hpset.symm, ?_, fun hcode s₄ s₅ r' hlater hback hgo => ?_,
    fun hcode s₄ s₅ s₆ s₇ r' hbefore htimer hlater hback hgo => ?_⟩
  · rw [eventStep, hsend]
  · rw [hmem, not_not]
    by_cases hsat : Satisfied (E ||| S) R option
    · simp [hsat]
    · simp [hsat, rtEtimeout, rtEok]
  · by_cases hsat : Satisfied (E ||| S) R option
    · rw [if_pos hsat]
      obtain ⟨-, hw, hval⟩ := keeps_steps (fun _ _ _ => Received.keeps) hi₃ hlater (hreceived hsat)
      rw [← hgoes hback hgo, eventRecvGoOn, if_neg (not_not.mpr hw.2.2), hval]
    · rw [if_neg hsat] at hcode
      exact absurd hcode (by decide)
  · by_cases hsat : Satisfied (E ||| S) R option
    · rw [if_pos hsat] at hcode
      exact absurd rfl hcode
    · rw [if_neg hsat]
      obtain ⟨hi₄, hcall₄⟩ := keeps_steps (fun _ _ _ hk => hk.call) hi₃ hbefore hcall₃
      obtain ⟨hi₅, hexpired⟩ := timeout_expired hi₄ hcall₄ htimer
      obtain ⟨-, -, -, herr⟩ := keeps_steps (fun _ _ _ => Expired.keeps) hi₅ hlater hexpired
      rw [← hgoes hback hgo, eventRecvGoOn, herr, if_pos (by decide)]

/-- The threads run, and no event is set. -/
def eventStart : EventState Bool where
  threads :=
    { kernel :=
        { tcb := twoRunning.tcb
          table := twoRunning.table
          group := twoRunning.group
          current := some true
          currentPriority := twoRunning.currentPriority
          lockNest := 0
          waiting := fun _ => []
          defunct := [] }
      timer := fun _ => false
      pc := fun _ => .idle }
  set := 0
  eventSet := fun _ => 0
  eventInfo := fun _ => 0

theorem event_init_start : (event Bool .fifo).init eventStart where
  left :=
    { sched := by decide +kernel
      lock := rfl
      waiting := fun _ => rfl
      pc := fun _ => rfl
      running := by decide +kernel }
  right := rfl

/-- Event 1 is present, both events are asked for with `RT_EVENT_FLAG_AND` and `RT_EVENT_FLAG_CLEAR`, and event 2 is
sent: a receiver that polls gets both and clears them, and one that waits is resumed and gets the same. -/
theorem event_wait_agrees_with_poll_run : ∃ s₂ s₃ s₄ s₅ p₃ : EventState Bool, s₂.waiting = [true] ∧
    eventStep .fifo s₂ (.send 2) = some (s₃, some (.sent rtEok)) ∧ s₃.set = p₃.set ∧ p₃.set = 0 ∧
    true ∉ s₃.waiting ∧ ∃ r, eventStep .fifo s₄ .goOn = some (s₅, some (.received r)) ∧ r = ⟨rtEok, some 3⟩ := by
  have hrun : (event Bool .fifo).Run [(eventStart, .send 1)] (rtEventSend eventStart 1).1 :=
    .step (.init event_init_start) rfl
  have hpoll : ((eventStep .fifo (rtEventSend (rtEventSend eventStart 1).1 2).1 (.recv 3 5 0)).any fun x =>
      x.1.set = 0 ∧ x.2 = some (.received ⟨rtEok, some 3⟩)) = true := by decide +kernel
  obtain ⟨⟨p₃, r⟩, hpoll, hx⟩ := (Option.any_eq_true _ _).mp hpoll
  obtain ⟨hp₃, rfl⟩ := of_decide_eq_true hx
  have hset : (rtEventSend eventStart 1).1.set = 1 := by decide +kernel
  obtain ⟨s₁, hs₁, hwait⟩ := event_wait_agrees_with_poll (show (3 : BitVec 32) ≠ 0 by decide)
    (show (2 : BitVec 32) ≠ 0 by decide) (show recvStatus 1 3 5 = some rtError by decide) hrun hset rfl rfl .refl
    hpoll hrun hset (show _ = some true by decide +kernel) (show (-1 : BitVec 32) ≠ 0 by decide)
  have hlater : ((eventStep .fifo (rtEventSend eventStart 1).1 (.recv 3 5 (-1))).any fun x =>
      ((event Bool .fifo).execIf (fun s a => goesOn true s a = false) [.env .next] x.1).any fun s₂ =>
        decide (s₂.set = 1 ∧ s₂.waiting = [true]) && (eventStep .fifo s₂ (.send 2)).any fun y =>
          ((event Bool .fifo).execIf (fun s a => goesOn true s a = false) [.env .sleep, .env .next] y.1).any fun s₄ =>
            goesOn true s₄ .goOn && (eventStep .fifo s₄ .goOn).any fun z =>
              z.2 = some (.received ⟨rtEok, some 3⟩)) = true := by decide +kernel
  rw [hs₁, Option.any_some] at hlater
  obtain ⟨s₂, hs₂, hlater⟩ := (Option.any_eq_true _ _).mp hlater
  obtain ⟨hone, hlater⟩ := (Bool.and_eq_true _ _).mp hlater
  obtain ⟨hset₂, hone⟩ := of_decide_eq_true hone
  obtain ⟨s₃, hsend, hset₃, hmem, hback, -⟩ := hwait s₂ (System.execIf_steps hs₂) hset₂ hone
  rw [hsend, Option.any_some] at hlater
  obtain ⟨s₄, hs₄, hlater⟩ := (Option.any_eq_true _ _).mp hlater
  obtain ⟨hgoes, hlater⟩ := (Bool.and_eq_true _ _).mp hlater
  obtain ⟨⟨s₅, z⟩, hgo, hz⟩ := (Option.any_eq_true _ _).mp hlater
  obtain rfl := of_decide_eq_true hz
  exact ⟨s₂, s₃, s₄, s₅, p₃, hone, hsend, hset₃, hp₃, hmem.mpr rfl, _, hgo,
    hback rfl s₄ s₅ _ (System.execIf_steps hs₄) hgoes hgo⟩

end runs

end ThyristorController.Events
