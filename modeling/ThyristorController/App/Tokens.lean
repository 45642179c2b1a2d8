import ThyristorController.Lib.TokenSlot
import ThyristorController.App.Steps

/-!
# `pwm1_sem` and `pwm1_start` as a token channel

The semaphore and the slot `pwm1_start` form a `TokenSlot.Chan`: a callback that finds its condition
true is a request, a release of the ADC thread is a stop, and `pwm_thread_entry` is the consumer. The
channel of a run is computed from its history, with every token tagged by who released it and in which
charge cycle; `refines` shows that the state of every run is the one of its channel. The tokens leave
the semaphore in the order in which they came.
-/

namespace ThyristorController

open Transition TokenSlot

/-! ## The channel of a run -/

/-- Who released a token. -/
inductive Source where
  | callback (p : Phase)
  | adc
deriving DecidableEq

/-- A token of `pwm1_sem`, with the charge cycle in which it was released, if one was in progress. -/
structure Token where
  source : Source
  cycle : Option Nat
deriving DecidableEq

/-- The charge cycle in progress: cycles are numbered by the 0-to-1 transitions of `run_record`. -/
def cycle (h : Past) (s : State) : Option Nat :=
  if s.runRecord = 1 then some (count ChargeStart h) else none

/-- What a step is for the channel. -/
def event (h : Past) (s : State) : Action → Option (Event Token)
  | .phase p => if PhaseGuard p.channel p.turn s then some (.request ⟨.callback p, cycle h s⟩) else none
  | .adc _ => if s.adcPc = .release then some (.stop ⟨.adc, cycle h s⟩) else none
  | .pwm =>
    match s.pwmPc with
    | .take => some .take
    | .test => some .test
    | .clear => some .finish
    | .off i .relayOff => if nextOff i = .take then some .cleaned else none
    | _ => none
  | .tick | .gpio _ _ | .serial _ _ => none

/-- The channel after a history. -/
def chan : Past → Chan Token
  | [] => .empty
  | (s, a) :: h =>
    match event h s a with
    | some e => (chan h).apply rtSemValueMax e
    | none => chan h

/-- The program points of `pwm_thread_entry` at each place of the consumer. -/
def AtPlace : PwmPc → Place Token → Prop
  | .take, .idle => True
  | .blocked, .waiting => True
  | .test, .holding _ => True
  | .reset, .serving | .wait, .serving | .fire, .serving | .clear, .serving => True
  | .off _ _, .cleaning => True
  | _, _ => False

/-- The state is the one of the channel. -/
structure Refines (h : Past) (s : State) : Prop where
  queue_length : (chan h).queue.length = s.pwm1Sem.value
  slot : (chan h).slot = decide (s.pwm1Start ≠ 0)
  place : AtPlace s.pwmPc (chan h).place
  suspended : Suspended s

/-- The channel has counted what the history has. -/
structure Counted (h : Past) : Prop where
  requests : (chan h).requests = count Activation h
  lost : (chan h).lost = count ActivationFails h
  stops : (chan h).stops + count StopFails h = count StopRelease h
  served : (chan h).served = count FiringEntry h
  cleaned : (chan h).cleaned = count ShutDownEntry h

/-! ## The refinement -/

variable {h : Past} {s s' : State} {a : Action}

theorem refines_init (volume : Volume) : Refines [] (initState volume) := by
  refine ⟨?_, ?_, ?_, ?_⟩ <;> simp [chan, Chan.empty, initState, rtSemInit, AtPlace, Suspended]

theorem AtPlace.waiting_iff {pc : PwmPc} {place : Place Token} (hp : AtPlace pc place) :
    place = .waiting ↔ pc = .blocked := by
  cases pc <;> cases place <;> simp_all [AtPlace]

theorem AtPlace.idle {place : Place Token} (hp : AtPlace .take place) : place = .idle := by
  cases place <;> first | rfl | exact hp.elim

theorem AtPlace.holding {place : Place Token} (hp : AtPlace .test place) : ∃ t, place = .holding t := by
  cases place with
  | holding t => exact ⟨t, rfl⟩
  | idle | waiting | serving | cleaning => exact hp.elim

theorem AtPlace.serving {pc : PwmPc} {place : Place Token} (hp : AtPlace pc place)
    (hpc : pc = .reset ∨ pc = .wait ∨ pc = .fire ∨ pc = .clear) : place = .serving := by
  rcases hpc with rfl | rfl | rfl | rfl <;> cases place <;> first | rfl | exact hp.elim

theorem AtPlace.cleaning {i : Fin 4} {pc : OffPc} {place : Place Token} (hp : AtPlace (.off i pc) place) :
    place = .cleaning := by
  cases place <;> first | rfl | exact hp.elim

/-- A release is a post: both go to the blocked thread, or are stored, or fail. -/
theorem post_release {c : Chan Token} (hlen : c.queue.length = s.pwm1Sem.value)
    (hplace : AtPlace s.pwmPc c.place) (hs : Suspended s) (t : Token) :
    ((c.post rtSemValueMax t).isSome = true ↔ ¬ SemFull s) ∧
      ((c.post rtSemValueMax t).getD c).queue.length = (releasePwm1Sem s).pwm1Sem.value ∧
      AtPlace (releasePwm1Sem s).pwmPc ((c.post rtSemValueMax t).getD c).place := by
  rcases Chan.post_cases rtSemValueMax c t with ⟨hw, he⟩ | ⟨hw, hlt, he⟩ | ⟨hw, hge, he⟩ <;> rw [he]
  · have hb := hplace.waiting_iff.mp hw
    obtain ⟨hv, hpc, hval, -⟩ := releasePwm1Sem_blocked hs hb
    refine ⟨?_, ?_, ?_⟩
    · simp [SemFull, hb]
    · rw [hval, ← hv]
      exact hlen
    · rw [hpc]
      trivial
  · have hb : s.pwmPc ≠ .blocked := fun hb => hw (hplace.waiting_iff.mpr hb)
    obtain ⟨hpc, hval, -⟩ := releasePwm1Sem_stored hs hb (hlen ▸ hlt)
    refine ⟨?_, ?_, ?_⟩
    · simp [SemFull, ← hlen, hlt]
    · simp [hval, hlen]
    · rw [hpc]
      exact hplace
  · have hb : s.pwmPc ≠ .blocked := fun hb => hw (hplace.waiting_iff.mpr hb)
    have hf : SemFull s := ⟨hb, by omega⟩
    rw [releasePwm1Sem_full hs hf]
    exact ⟨by simp [hf], hlen, hplace⟩

theorem chan_event {e : Event Token} (he : event h s a = some e) :
    chan ((s, a) :: h) = (chan h).apply rtSemValueMax e := by
  simp only [chan, he]

theorem chan_none (he : event h s a = none) : chan ((s, a) :: h) = chan h := by
  simp only [chan, he]

/-- The steps that are events of the channel. -/
inductive EventStep (h : Past) (s : State) : Action → Event Token → Prop
  | activate (p : Phase) : PhaseGuard p.channel p.turn s →
      EventStep h s (.phase p) (.request ⟨.callback p, cycle h s⟩)
  | release (raw : Fin 7 → Fin 4096) : s.adcPc = .release →
      EventStep h s (.adc raw) (.stop ⟨.adc, cycle h s⟩)
  | take : s.pwmPc = .take → EventStep h s .pwm .take
  | test : s.pwmPc = .test → EventStep h s .pwm .test
  | clear : s.pwmPc = .clear → EventStep h s .pwm .finish
  | cleaned (i : Fin 4) : s.pwmPc = .off i .relayOff → EventStep h s .pwm .cleaned

theorem event_step {e : Event Token} (he : event h s a = some e) : EventStep h s a e := by
  cases a with
  | phase p =>
    simp only [event] at he
    split_ifs at he with hg
    cases he
    exact .activate p hg
  | adc raw =>
    simp only [event] at he
    split_ifs at he with hpc
    cases he
    exact .release raw hpc
  | pwm =>
    simp only [event] at he
    split at he
    · next hpc => cases he; exact .take hpc
    · next hpc => cases he; exact .test hpc
    · next hpc => cases he; exact .clear hpc
    · next i hpc =>
      split_ifs at he
      cases he
      exact .cleaned i hpc
    · cases he
  | tick | gpio _ _ | serial _ _ => cases he

/-- A step that is nothing to the channel and keeps the semaphore, the slot and the place. -/
theorem Refines.frame (hr : Refines h s) (he : event h s a = none) (hsem : s'.pwm1Sem = s.pwm1Sem)
    (hstart : s'.pwm1Start = s.pwm1Start) (hblocked : s'.pwmPc = .blocked ↔ s.pwmPc = .blocked)
    (hplace : AtPlace s'.pwmPc (chan h).place) : Refines ((s, a) :: h) s' := by
  have hsusp : Suspended s' := by
    rw [Suspended, hsem, hr.suspended]
    simp only [hblocked]
  refine ⟨?_, ?_, ?_, hsusp⟩ <;> rw [chan_none he]
  · rw [hsem, hr.queue_length]
  · rw [hstart, hr.slot]
  · exact hplace

theorem Refines.activate (hr : Refines h s) (p : Phase) (hg : PhaseGuard p.channel p.turn s) :
    Refines ((s, .phase p) :: h) (releasePwm1Sem (marked p.channel p.turn s)) := by
  have hs : Suspended (marked p.channel p.turn s) := hr.suspended
  obtain ⟨-, hqueue, hplace⟩ := post_release (s := marked p.channel p.turn s) hr.queue_length hr.place hs
    ⟨.callback p, cycle h s⟩
  have he : event h s (.phase p) = some (.request ⟨.callback p, cycle h s⟩) := if_pos hg
  refine ⟨?_, ?_, ?_, suspended_releasePwm1Sem hs⟩ <;> rw [chan_event he]
  · rw [← hqueue]
    exact congrArg List.length (Chan.apply_request_queue ..)
  · rw [releasePwm1Sem_eq]
    simp [Chan.apply_request_slot, marked, p.channel_ne_zero]
  · rw [Chan.apply_request_place]
    exact hplace

theorem Refines.release (hr : Refines h s) (raw : Fin 7 → Fin 4096) (hpc : s.adcPc = .release) :
    Refines ((s, .adc raw) :: h) (releasePwm1Sem { s with adcPc := .testPercentage }) := by
  have hs : Suspended { s with adcPc := .testPercentage } := hr.suspended
  obtain ⟨-, hqueue, hplace⟩ := post_release (s := { s with adcPc := .testPercentage }) hr.queue_length
    hr.place hs ⟨.adc, cycle h s⟩
  have he : event h s (.adc raw) = some (.stop ⟨.adc, cycle h s⟩) := if_pos hpc
  refine ⟨?_, ?_, ?_, suspended_releasePwm1Sem hs⟩ <;> rw [chan_event he]
  · rw [← hqueue]
    exact congrArg List.length (Chan.apply_stop_queue ..)
  · rw [releasePwm1Sem_eq, Chan.apply_stop_slot]
    exact hr.slot
  · rw [Chan.apply_stop_place]
    exact hplace

theorem Refines.takeToken (hr : Refines h s) (hpc : s.pwmPc = .take) {sem : RtSemaphore Thread}
    (hv : sem.value + 1 = s.pwm1Sem.value) (hl : sem.suspendThread = s.pwm1Sem.suspendThread) :
    Refines ((s, .pwm) :: h) { s with pwm1Sem := sem, pwmPc := .test } := by
  obtain ⟨hq, hsl, hp, hs⟩ := hr
  rw [hpc] at hp
  have he : event h s .pwm = some .take := by simp only [event, hpc]
  obtain ⟨t, rest, hqueue⟩ := List.exists_cons_of_length_pos (l := (chan h).queue) (by omega)
  have htake : (chan h).apply rtSemValueMax .take = { chan h with place := .holding t, queue := rest } := by
    simp only [Chan.apply, hp.idle, hqueue]
  rw [hqueue, List.length_cons] at hq
  refine ⟨?_, ?_, ?_, by rw [Suspended, hl, hs, hpc]; rfl⟩ <;> simp only [chan_event he, htake]
  · omega
  · exact hsl
  · trivial

theorem Refines.takeBlock (hr : Refines h s) (hpc : s.pwmPc = .take) (hv : s.pwm1Sem.value = 0)
    {sem : RtSemaphore Thread} (hv' : sem.value = 0)
    (hl : sem.suspendThread = s.pwm1Sem.suspendThread ++ [.pwm]) :
    Refines ((s, .pwm) :: h) { s with pwm1Sem := sem, pwmPc := .blocked } := by
  obtain ⟨hq, hsl, hp, hs⟩ := hr
  rw [hpc] at hp
  have he : event h s .pwm = some .take := by simp only [event, hpc]
  have hqueue : (chan h).queue = [] := List.eq_nil_of_length_eq_zero (hq.trans hv)
  have htake : (chan h).apply rtSemValueMax .take = { chan h with place := .waiting } := by
    simp only [Chan.apply, hp.idle, hqueue]
  refine ⟨?_, ?_, ?_, by rw [Suspended, hl, hs, hpc]; rfl⟩ <;> simp only [chan_event he, htake]
  · rw [hqueue, hv', List.length_nil]
  · exact hsl
  · trivial

theorem Refines.test (hr : Refines h s) (hpc : s.pwmPc = .test) :
    Refines ((s, .pwm) :: h)
      { s with pwmPc := if s.pwm1Start ≠ 0 then .reset else .off 1 .pulse } := by
  obtain ⟨hq, hsl, hp, hs⟩ := hr
  rw [hpc] at hp
  obtain ⟨t, hheld⟩ := hp.holding
  have he : event h s .pwm = some .test := by simp only [event, hpc]
  have hsusp : s.pwm1Sem.suspendThread = [] := by
    rw [hs, hpc]
    rfl
  by_cases hstart : s.pwm1Start = 0
  · have htest : (chan h).apply rtSemValueMax .test =
        { chan h with place := .cleaning, cleaned := (chan h).cleaned + 1 } := by
      simp [Chan.apply, hheld, hsl, hstart]
    rw [if_neg (not_not.mpr hstart)]
    refine ⟨?_, ?_, ?_, hsusp⟩ <;> simp only [chan_event he, htest]
    · exact hq
    · exact hsl
    · trivial
  · have htest : (chan h).apply rtSemValueMax .test =
        { chan h with place := .serving, served := (chan h).served + 1 } := by
      simp [Chan.apply, hheld, hsl, hstart]
    rw [if_pos hstart]
    refine ⟨?_, ?_, ?_, hsusp⟩ <;> simp only [chan_event he, htest]
    · exact hq
    · exact hsl
    · trivial

theorem Refines.clear (hr : Refines h s) (hpc : s.pwmPc = .clear) :
    Refines ((s, .pwm) :: h) { s with pwm1Start := 0, pwmPc := .take } := by
  obtain ⟨hq, hsl, hp, hs⟩ := hr
  have he : event h s .pwm = some .finish := by simp only [event, hpc]
  have hfinish : (chan h).apply rtSemValueMax .finish = { chan h with place := .idle, slot := false } := by
    simp only [Chan.apply, hp.serving (by simp [hpc])]
  refine ⟨?_, ?_, ?_, by rw [Suspended, hs, hpc]; rfl⟩ <;> simp only [chan_event he, hfinish]
  · exact hq
  · simp
  · trivial

theorem Refines.offRelayOff (hr : Refines h s) {i : Fin 4} (hpc : s.pwmPc = .off i .relayOff) :
    Refines ((s, .pwm) :: h) { s with gpioMO1 := 0, pwmPc := nextOff i } := by
  have hp := hr.place
  rw [hpc] at hp
  have hclean := hp.cleaning
  rcases nextOff_cases i with ⟨-, hnext⟩ | ⟨j, -, hnext⟩ <;> rw [hnext]
  · have he : event h s .pwm = some .cleaned := by simp only [event, hpc, if_pos hnext]
    have hcleaned : (chan h).apply rtSemValueMax .cleaned = { chan h with place := .idle } := by
      simp only [Chan.apply, hclean]
    obtain ⟨hq, hsl, -, hs⟩ := hr
    refine ⟨?_, ?_, ?_, by rw [Suspended, hs, hpc]; rfl⟩ <;> simp only [chan_event he, hcleaned]
    · exact hq
    · exact hsl
    · trivial
  · have he : event h s .pwm = none := by simp [event, hpc, hnext]
    refine hr.frame he rfl rfl (by simp [hpc]) ?_
    rw [hclean]
    trivial

theorem Refines.pwm (hr : Refines h s) (hstep : PwmStep s s') : Refines ((s, .pwm) :: h) s' := by
  have hp := hr.place
  cases hstep with
  | takeToken sem hpc hv hl => exact hr.takeToken hpc hv hl
  | takeBlock sem hpc hv hv' hl => exact hr.takeBlock hpc hv hv' hl
  | testStart hpc hstart =>
    have htest := hr.test hpc
    rwa [if_pos hstart] at htest
  | testStop hpc hstart =>
    have htest := hr.test hpc
    rwa [if_neg (not_not.mpr hstart)] at htest
  | reset hpc | waitDone hpc _ | fire hpc =>
    refine hr.frame (by simp [event, hpc]) rfl rfl (by simp [hpc]) ?_
    rw [hp.serving (by simp [hpc])]
    trivial
  | waitMore hpc hcount => exact hr.frame (by simp [event, hpc]) rfl rfl Iff.rfl hp
  | clear hpc => exact hr.clear hpc
  | offPulse i hpc | offStatus i hpc | offPercentage i hpc | offRecord i hpc | offRelayOn i hpc
  | offDelay i hpc =>
    refine hr.frame (by simp [event, hpc]) rfl rfl (by simp [hpc]) ?_
    rw [hpc] at hp
    rw [hp.cleaning]
    trivial
  | offRelayOff i hpc => exact hr.offRelayOff hpc

theorem refines_step (hr : Refines h s) (hstep : controller.step s a = some s') :
    Refines ((s, a) :: h) s' := by
  cases step_effect hstep with
  | idle p hg => exact hr.frame (if_neg hg) rfl rfl Iff.rfl hr.place
  | activate p hg => exact hr.activate p hg
  | tick => exact hr.frame rfl rfl rfl Iff.rfl hr.place
  | adc raw s' hadc =>
    cases hadc with
    | release hpc => exact hr.release raw hpc
    | _ => exact hr.frame (by simp [event, *]) rfl rfl Iff.rfl hr.place
  | gpio pins mkfsOk s' hgpio =>
    cases hgpio <;> exact hr.frame rfl rfl rfl Iff.rfl hr.place
  | pwm s' hpwm => exact hr.pwm hpwm
  | serial v c volume => exact hr.frame rfl rfl rfl Iff.rfl hr.place

/-! ## The counters -/

theorem counted_request (hr : Refines h s) (hc : Counted h) (p : Phase)
    (hg : PhaseGuard p.channel p.turn s) : Counted ((s, .phase p) :: h) := by
  obtain ⟨hreq, hlost, hstops, hserved, hcleaned⟩ := hc
  have he : event h s (.phase p) = some (.request ⟨.callback p, cycle h s⟩) := if_pos hg
  have hact : Activation s (.phase p) := hg
  have hstop : ¬ StopRelease s (.phase p) ∧ ¬ StopFails s (.phase p) := ⟨id, fun h => h.1⟩
  have hpwm : ¬ FiringEntry s (.phase p) ∧ ¬ ShutDownEntry s (.phase p) := ⟨id, id⟩
  obtain ⟨hfull, -⟩ := post_release hr.queue_length hr.place hr.suspended ⟨.callback p, cycle h s⟩
  cases hpost : (chan h).post rtSemValueMax ⟨.callback p, cycle h s⟩ with
  | none =>
    have hf : ActivationFails s (.phase p) := ⟨hg, by simpa [hpost] using hfull⟩
    refine ⟨?_, ?_, ?_, ?_, ?_⟩ <;> simp [chan_event he, Chan.apply, *]
  | some c' =>
    have hf : ¬ ActivationFails s (.phase p) := fun hf => by simp [hpost, hf.2] at hfull
    rw [Chan.post_eq hpost] at hpost
    refine ⟨?_, ?_, ?_, ?_, ?_⟩ <;> simp [chan_event he, Chan.apply, *]

theorem counted_stop (hr : Refines h s) (hc : Counted h) (raw : Fin 7 → Fin 4096)
    (hpc : s.adcPc = .release) : Counted ((s, .adc raw) :: h) := by
  obtain ⟨hreq, hlost, hstops, hserved, hcleaned⟩ := hc
  have he : event h s (.adc raw) = some (.stop ⟨.adc, cycle h s⟩) := if_pos hpc
  have hact : ¬ Activation s (.adc raw) ∧ ¬ ActivationFails s (.adc raw) := ⟨id, fun h => h.1⟩
  have hstop : StopRelease s (.adc raw) := hpc
  have hpwm : ¬ FiringEntry s (.adc raw) ∧ ¬ ShutDownEntry s (.adc raw) := ⟨id, id⟩
  obtain ⟨hfull, -⟩ := post_release hr.queue_length hr.place hr.suspended ⟨.adc, cycle h s⟩
  cases hpost : (chan h).post rtSemValueMax ⟨.adc, cycle h s⟩ with
  | none =>
    have hf : StopFails s (.adc raw) := ⟨hpc, by simpa [hpost] using hfull⟩
    refine ⟨?_, ?_, ?_, ?_, ?_⟩ <;> simp [chan_event he, Chan.apply, *]
    omega
  | some c' =>
    have hf : ¬ StopFails s (.adc raw) := fun hf => by simp [hpost, hf.2] at hfull
    rw [Chan.post_eq hpost] at hpost
    refine ⟨?_, ?_, ?_, ?_, ?_⟩ <;> simp [chan_event he, Chan.apply, *]
    omega

theorem counted_test (hr : Refines h s) (hc : Counted h) (hpc : s.pwmPc = .test) :
    Counted ((s, .pwm) :: h) := by
  obtain ⟨hreq, hlost, hstops, hserved, hcleaned⟩ := hc
  have hp := hr.place
  rw [hpc] at hp
  obtain ⟨t, hheld⟩ := hp.holding
  have he : event h s .pwm = some .test := by simp only [event, hpc]
  have hact : ¬ Activation s .pwm ∧ ¬ ActivationFails s .pwm := ⟨id, fun h => h.1⟩
  have hstop : ¬ StopRelease s .pwm ∧ ¬ StopFails s .pwm := ⟨id, fun h => h.1⟩
  by_cases hstart : s.pwm1Start = 0
  · have hfire : ¬ FiringEntry s .pwm := fun h => h.2 hstart
    have hoff : ShutDownEntry s .pwm := ⟨hpc, hstart⟩
    refine ⟨?_, ?_, ?_, ?_, ?_⟩ <;> simp [chan_event he, Chan.apply, hr.slot, *]
  · have hfire : FiringEntry s .pwm := ⟨hpc, hstart⟩
    have hoff : ¬ ShutDownEntry s .pwm := fun h => hstart h.2
    refine ⟨?_, ?_, ?_, ?_, ?_⟩ <;> simp [chan_event he, Chan.apply, hr.slot, *]

theorem counted_idle (hc : Counted h)
    (hev : event h s a = none ∨ ∃ e, event h s a = some e ∧ (e = .take ∨ e = .finish ∨ e = .cleaned))
    (hact : ¬ Activation s a) (hstop : ¬ StopRelease s a) (hfire : ¬ FiringEntry s a)
    (hoff : ¬ ShutDownEntry s a) : Counted ((s, a) :: h) := by
  obtain ⟨hreq, hlost, hstops, hserved, hcleaned⟩ := hc
  have hfails : ¬ ActivationFails s a ∧ ¬ StopFails s a := ⟨fun h => hact h.1, fun h => hstop h.1⟩
  rcases hev with he | ⟨e, he, hcase⟩
  · refine ⟨?_, ?_, ?_, ?_, ?_⟩ <;> simp [chan_none he, *]
  · obtain ⟨h1, h2, h3, h4, h5⟩ := Chan.apply_counters rtSemValueMax (chan h) hcase
    refine ⟨?_, ?_, ?_, ?_, ?_⟩ <;> simp [chan_event he, *]

theorem counted_step (hr : Refines h s) (hc : Counted h) (a : Action) : Counted ((s, a) :: h) := by
  cases a with
  | phase p =>
    by_cases hg : PhaseGuard p.channel p.turn s
    · exact counted_request hr hc p hg
    · exact counted_idle hc (.inl (if_neg hg)) hg id id id
  | adc raw =>
    by_cases hpc : s.adcPc = .release
    · exact counted_stop hr hc raw hpc
    · exact counted_idle hc (.inl (if_neg hpc)) id hpc id id
  | tick | gpio _ _ | serial _ _ => exact counted_idle hc (.inl rfl) id id id id
  | pwm =>
    by_cases hpc : s.pwmPc = .test
    · exact counted_test hr hc hpc
    · refine counted_idle hc ?_ id id (fun h => hpc h.1) (fun h => hpc h.1)
      simp only [event]
      split <;> simp_all
      exact (em _).symm

/-- What every run of the controller keeps of its channel. -/
structure ChanInv (h : Past) (s : State) : Prop where
  refines : Refines h s
  counted : Counted h
  ok : (chan h).Ok

theorem ok_step (hok : (chan h).Ok) : (chan ((s, a) :: h)).Ok := by
  cases he : event h s a with
  | none =>
    rw [chan_none he]
    exact hok
  | some e =>
    rw [chan_event he]
    exact Chan.ok_apply (by decide) hok e

theorem chanInv (hrun : controller.Run h s) : ChanInv h s := by
  refine hrun.always ?_ ?_
  · rintro s ⟨volume, rfl⟩
    exact ⟨refines_init volume, ⟨rfl, rfl, rfl, rfl, rfl⟩, Chan.ok_empty⟩
  · rintro h s a s' - ⟨hr, hc, hok⟩ hstep
    exact ⟨refines_step hr hstep, counted_step hr hc a, ok_step hok⟩

theorem slot_of_firing (hi : ChanInv h s)
    (hpc : s.pwmPc = .reset ∨ s.pwmPc = .wait ∨ s.pwmPc = .fire ∨ s.pwmPc = .clear) : s.pwm1Start ≠ 0 := by
  have hserve := hi.ok.serving_slot
  rw [hi.refines.place.serving hpc, hi.refines.slot] at hserve
  simpa using hserve

/-! ## Surplus tokens -/

theorem surplus_of_marked (hi : ChanInv h s) (hact : Activation s a) (hstart : s.pwm1Start ≠ 0) :
    (chan ((s, a) :: h)).outstanding ≠ [] := by
  cases a with
  | phase p =>
    have he : event h s (.phase p) = some (.request ⟨.callback p, cycle h s⟩) := if_pos hact
    rw [chan_event he]
    exact Chan.outstanding_request_marked (by decide) hi.ok _ (by simp [hi.refines.slot, hstart])
  | tick | adc _ | gpio _ _ | pwm | serial _ _ => exact hact.elim

theorem surplus_step (hi : ChanInv h s) (hne : (chan h).outstanding ≠ []) (hoff : ¬ ShutDownEntry s a) :
    (chan ((s, a) :: h)).outstanding ≠ [] := by
  cases he : event h s a with
  | none =>
    rw [chan_none he]
    exact hne
  | some e =>
    rw [chan_event he]
    cases event_step he with
    | activate p hg => exact Chan.outstanding_request_ne_nil (by decide) hi.ok _ hne
    | release raw hpc => exact Chan.outstanding_stop_ne_nil hi.ok _ hne
    | take hpc => rwa [Chan.outstanding_take]
    | test hpc =>
      have hstart : s.pwm1Start ≠ 0 := fun hstart => hoff ⟨hpc, hstart⟩
      rwa [Chan.outstanding_test_marked (by simp [hi.refines.slot, hstart])]
    | clear hpc => rwa [Chan.outstanding_finish]
    | cleaned i hpc => rwa [Chan.outstanding_cleaned]

theorem outstanding_of_blocked (hi : ChanInv h s) (hpc : s.pwmPc = .blocked) :
    (chan h).outstanding = [] ∧ s.pwm1Start = 0 := by
  have hpl := hi.refines.place.waiting_iff.mpr hpc
  have htokens : (chan h).tokens = [] := by simp [Chan.tokens, hpl, hi.ok.waiting_queue hpl]
  have hpend := hi.ok.pending_le
  refine ⟨by simp [Chan.outstanding, htokens], ?_⟩
  by_contra hstart
  simp [htokens, Chan.pending, hi.refines.slot, hstart, hpl] at hpend

end ThyristorController
