import ThyristorController.Kernel.Event
import Mathlib.Data.List.Chain

/-!
# The rounds of a send (`src/ipc.c`)

`rt_event_send` walks the list of the waiting threads once. Each round examines one of them with the event set that
the rounds before it have left, and may clear some of it. `sendRounds` is the record that the loop keeps of them;
`send_leaves_nobody_behind` says what they do, for every send to an event in every state that it can be in.
-/

namespace ThyristorController.Events

open Transition SemThreads

variable {τ : Type} [DecidableEq τ]

/-- The rounds of a call. -/
def rtEventSendRounds (s : EventState τ) (set : BitVec 32) : List (Round τ) :=
  if set = 0 then [] else sendRounds s.waiting { s with set := s.set ||| set }

/-- What a send did to the state `s`, with its rounds and the state that it left. -/
structure Sent (s : EventState τ) (set : BitVec 32) (rounds : List (Round τ)) (s' : EventState τ) : Prop where
  /-- No thread that still waits is satisfied. -/
  nobody : ∀ t ∈ s'.waiting, ¬ Satisfied s'.set (s'.eventSet t) (s'.eventInfo t)
  /-- A thread is examined with what the threads before it have left. -/
  first : ∀ r ∈ rounds.head?, r.found = s.set ||| set
  next : rounds.IsChain fun r r' => r'.found = r.behind
  last : s'.set = (rounds.getLast?.map Round.behind).getD (s.set ||| set)
  /-- It is resumed exactly if its condition holds then. -/
  resumed : ∀ r ∈ rounds, (r.resumed = true ↔ Satisfied r.found (s.eventSet r.thread) (s.eventInfo r.thread)) ∧
    (r.resumed = true ↔ r.thread ∉ s'.waiting)
  /-- A round clears the request of a resumed thread with `RT_EVENT_FLAG_CLEAR`, and nothing else. -/
  cleared : ∀ r ∈ rounds, r.behind =
    if r.resumed = true ∧ s.eventInfo r.thread &&& rtEventFlagClear ≠ 0 then r.found &&& ~~~ s.eventSet r.thread
    else r.found
  /-- A thread that was not examined waits as before. -/
  other : ∀ t, t ∉ rounds.map Round.thread → (t ∈ s'.waiting ↔ t ∈ s.waiting)

section rounds

variable {flag : IpcFlag} {h : History (EventState τ) (EventAction τ)} {s s' : EventState τ} {t u : τ} {l : List τ}
  {r : Round τ} {set : BitVec 32}

theorem serve_set (s : EventState τ) (t : τ) : (serve s t).set = left s.set (s.eventSet t) (s.eventInfo t) := by
  unfold serve
  split_ifs with hs
  · rfl
  · exact (left_of_not hs).symm

theorem serve_other (s : EventState τ) (hu : u ≠ t) :
    (serve s t).eventSet u = s.eventSet u ∧ (serve s t).eventInfo u = s.eventInfo u := by
  unfold serve
  split_ifs
  · exact ⟨Function.update_of_ne hu _ _, rfl⟩
  · exact ⟨rfl, rfl⟩

theorem serve_eventInfo (s : EventState τ) (t : τ) : (serve s t).eventInfo = s.eventInfo := by
  unfold serve
  split_ifs
  · rfl
  · rfl

theorem sendRounds_cons (hf : Flagged (s.eventInfo t)) : sendRounds (t :: l) s =
    ⟨t, s.set, (serve s t).set, decide (Satisfied s.set (s.eventSet t) (s.eventInfo t))⟩ ::
      sendRounds l (serve s t) := by
  rw [sendRounds, sendWalk_cons hf]
  rfl

theorem sendRounds_turns (hnd : l.Nodup) (hf : ∀ t ∈ l, Flagged (s.eventInfo t)) :
    (sendRounds l s).map (fun r => (r.thread, r.found)) = turns s l s.set := by
  induction l generalizing s with
  | nil => rfl
  | cons t l ih =>
    obtain ⟨ht, hnd⟩ := List.nodup_cons.mp hnd
    have hother : ∀ u ∈ l, (serve s t).eventSet u = s.eventSet u ∧ (serve s t).eventInfo u = s.eventInfo u :=
      fun u hu => serve_other s (ne_of_mem_of_not_mem hu ht)
    rw [sendRounds_cons (hf t List.mem_cons_self), List.map_cons, turns, ih hnd fun u hu => ?_]
    · rw [(turns_congr (serve s t).set hother).1, serve_set]
    · rw [serve_eventInfo]
      exact hf u (List.mem_cons_of_mem _ hu)

theorem sendRounds_thread (hnd : l.Nodup) (hf : ∀ t ∈ l, Flagged (s.eventInfo t)) :
    (sendRounds l s).map Round.thread = l := by
  have hturns : ∀ (l : List τ) (set : BitVec 32), (turns s l set).map Prod.fst = l := by
    intro l
    induction l with
    | nil => exact fun _ => rfl
    | cons t l ih => exact fun set => congrArg (t :: ·) (ih _)
  have := congrArg (List.map Prod.fst) (sendRounds_turns hnd hf)
  rwa [List.map_map, hturns] at this

theorem sendRounds_round (hnd : l.Nodup) (hf : ∀ t ∈ l, Flagged (s.eventInfo t)) (hr : r ∈ sendRounds l s) :
    (r.resumed = true ↔ Satisfied r.found (s.eventSet r.thread) (s.eventInfo r.thread)) ∧
      r.behind = left r.found (s.eventSet r.thread) (s.eventInfo r.thread) := by
  induction l generalizing s with
  | nil => cases hr
  | cons t l ih =>
    obtain ⟨ht, hnd⟩ := List.nodup_cons.mp hnd
    rw [sendRounds_cons (hf t List.mem_cons_self)] at hr
    rcases List.mem_cons.mp hr with rfl | hr
    · exact ⟨by simp, serve_set s t⟩
    · have hflag : ∀ u ∈ l, Flagged ((serve s t).eventInfo u) := fun u hu => by
        rw [serve_eventInfo]
        exact hf u (List.mem_cons_of_mem _ hu)
      have hmem : r.thread ∈ l := by
        rw [← sendRounds_thread hnd hflag]
        exact List.mem_map_of_mem hr
      obtain ⟨hset, hinfo⟩ := serve_other s (ne_of_mem_of_not_mem hmem ht)
      have hround := ih hnd hflag hr
      rwa [hset, hinfo] at hround

theorem sendRounds_chain (hnd : l.Nodup) (hf : ∀ t ∈ l, Flagged (s.eventInfo t)) :
    (∀ r ∈ (sendRounds l s).head?, r.found = s.set) ∧
      ((sendRounds l s).IsChain fun r r' => r'.found = r.behind) ∧
      leftBehind s l s.set = ((sendRounds l s).getLast?.map Round.behind).getD s.set := by
  induction l generalizing s with
  | nil => exact ⟨nofun, .nil, rfl⟩
  | cons t l ih =>
    obtain ⟨ht, hnd⟩ := List.nodup_cons.mp hnd
    have hflag : ∀ u ∈ l, Flagged ((serve s t).eventInfo u) := fun u hu => by
      rw [serve_eventInfo]
      exact hf u (List.mem_cons_of_mem _ hu)
    have hother : ∀ u ∈ l, (serve s t).eventSet u = s.eventSet u ∧ (serve s t).eventInfo u = s.eventInfo u :=
      fun u hu => serve_other s (ne_of_mem_of_not_mem hu ht)
    obtain ⟨hfirst, hnext, hlast⟩ := ih hnd hflag
    have hleft : leftBehind s (t :: l) s.set = leftBehind (serve s t) l (serve s t).set := by
      rw [(turns_congr (serve s t).set hother).2, serve_set]
      rfl
    rw [sendRounds_cons (hf t List.mem_cons_self)]
    refine ⟨fun r hr => ?_, ?_, ?_⟩
    · obtain rfl := Option.some.inj hr
      rfl
    · exact List.isChain_cons.mpr ⟨hfirst, hnext⟩
    · rw [hleft, hlast]
      cases hrounds : sendRounds l (serve s t) with
      | nil => rfl
      | cons r rounds => simp [List.getLast?_cons]

/-- A send to an event in any state of any run: it is refused for the empty set, and else examines every waiting
thread once, in the order of the list. -/
theorem send_leaves_nobody_behind (hrun : (event τ flag).Run h s) (set : BitVec 32) :
    Sent s set (rtEventSendRounds s set) (rtEventSend s set).1 ∧
      (set = 0 → rtEventSend s set = (s, rtError)) ∧
      (set ≠ 0 → (rtEventSend s set).2 = rtEok ∧ (rtEventSendRounds s set).map Round.thread = s.waiting ∧
        s.waiting.Nodup) := by
  have hi := eventInv hrun
  have hinv := (rtEventSend_spec hi set).1
  have hnd := hi.threads.waiting_nodup ()
  have hf : ∀ t ∈ s.waiting, Flagged (s.eventInfo t) := fun t ht => (hi.waiter t ht).1
  by_cases hset : set = 0
  · refine ⟨?_, fun _ => if_pos hset, fun hne => absurd hset hne⟩
    rw [rtEventSendRounds, rtEventSend, if_pos hset, if_pos hset]
    refine ⟨fun t ht => (hi.waiter t ht).2, by simp, .nil, ?_, by simp, by simp, fun _ _ => Iff.rfl⟩
    simp [hset]
  · obtain ⟨s', hs', hserves⟩ := rtEventSend_serves hi hset
    rw [hs'] at hinv ⊢
    have hrounds : rtEventSendRounds s set = sendRounds s.waiting { s with set := s.set ||| set } := if_neg hset
    set s₁ : EventState τ := { s with set := s.set ||| set } with s₁_def
    have hf₁ : ∀ t ∈ s.waiting, Flagged (s₁.eventInfo t) := hf
    have hthread := sendRounds_thread (s := s₁) hnd hf₁
    obtain ⟨hfirst, hnext, hlast⟩ := sendRounds_chain (s := s₁) hnd hf₁
    rw [hrounds]
    refine ⟨⟨fun t ht => (hinv.waiter t ht).2, hfirst, hnext, hserves.set.trans hlast, fun r hr => ?_, fun r hr => ?_,
      fun t ht => ?_⟩, fun hzero => absurd hzero hset, fun _ => ⟨rfl, hthread, hnd⟩⟩
    · obtain ⟨hresumed, -⟩ := sendRounds_round hnd hf₁ hr
      have hturn := hserves.turn (r.thread, r.found) (by
        rw [← sendRounds_turns hnd hf₁]
        exact List.mem_map_of_mem hr)
      refine ⟨hresumed, hresumed.trans ?_⟩
      unfold Turn at hturn
      split_ifs at hturn with hsat
      · exact iff_of_true hsat hturn.1
      · exact iff_of_false hsat (not_not.mpr hturn.1)
    · obtain ⟨hresumed, hbehind⟩ := sendRounds_round hnd hf₁ hr
      rw [hbehind, left]
      simp only [hresumed]
      rfl
    · rw [hthread] at ht
      exact (hserves.other t ht).1

/-- A thread waits for event 1 with `RT_EVENT_FLAG_OR` and `RT_EVENT_FLAG_CLEAR`, another one for events 1 and 2 with
`RT_EVENT_FLAG_AND`, and both are sent: the first thread is resumed and clears its event, so that the second one, which
the events satisfied before, still waits. -/
theorem send_leaves_nobody_behind_run : ∃ h s, (event Bool .fifo).Run h s ∧ s.waiting = [true, false] ∧
    rtEventSendRounds s 3 = [⟨true, 3, 2, true⟩, ⟨false, 2, 2, false⟩] ∧
      Sent s 3 (rtEventSendRounds s 3) (rtEventSend s 3).1 ∧ (rtEventSend s 3).1.set = 2 ∧
      true ∉ (rtEventSend s 3).1.waiting ∧ false ∈ (rtEventSend s 3).1.waiting := by
  obtain ⟨h, s, hrun, hwait, hrounds⟩ := System.exists_run event_init_start
    [.recv 1 6 (-1), .env .next, .recv 3 1 (-1)]
    (fun _ s => s.waiting = [true, false] ∧ rtEventSendRounds s 3 = [⟨true, 3, 2, true⟩, ⟨false, 2, 2, false⟩])
    (by decide +kernel)
  have hsent := (send_leaves_nobody_behind hrun 3).1
  refine ⟨h, s, hrun, hwait, hrounds, hsent, ?_, ?_, ?_⟩
  · rw [hsent.last, hrounds]
    rfl
  · exact ((hsent.resumed ⟨true, 3, 2, true⟩ (hrounds ▸ List.mem_cons_self)).2).mp rfl
  · by_contra hno
    have hresumed := (hsent.resumed ⟨false, 2, 2, false⟩
      (hrounds ▸ List.mem_cons_of_mem _ List.mem_cons_self)).2.mpr hno
    contradiction

end rounds

end ThyristorController.Events
