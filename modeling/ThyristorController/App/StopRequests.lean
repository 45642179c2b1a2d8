import ThyristorController.App.Tokens

/-!
# Stop requests and firing requests

The tokens of `pwm1_sem` do not say whether they ask for a firing or for a shut-down; the slot
`pwm1_start` decides when a token is tested. A stop request is never lost (`stop_requests_kept`). The
converse needs that no callback activates while the slot is marked (`shut_downs_le_stop_releases`): then
every shut-down has its release of the ADC thread. For a shut-down to belong to the charge in progress
the releases must also wait for each other (`shut_downs_of_this_cycle`).
-/

namespace ThyristorController

open Transition TokenSlot

variable {h : Past} {s s' : State} {a : Action}

/-! ## What the state says about the tokens -/

/-- The tokens taken and not tested, or still in the semaphore. -/
def tokensLeft (s : State) : Nat := (if s.pwmPc = .test then 1 else 0) + s.pwm1Sem.value

/-- One if `pwm1_start` is marked and its firing has not begun. -/
def markWaits (s : State) : Nat := if s.pwm1Start ≠ 0 ∧ firing s.pwmPc = false then 1 else 0

theorem tokens_length (hr : Refines h s) : (chan h).tokens.length = tokensLeft s := by
  have hp := hr.place
  rw [Chan.tokens, List.length_append, hr.queue_length, tokensLeft]
  congr 1
  cases hpc : s.pwmPc <;> cases hpl : (chan h).place <;> simp_all [AtPlace]

theorem pending_eq (hr : Refines h s) : (chan h).pending = markWaits s := by
  have hp := hr.place
  have hsl := hr.slot
  rw [Chan.pending, markWaits, hsl]
  cases hpc : s.pwmPc <;> cases hpl : (chan h).place <;> simp_all [AtPlace, firing]

/-! ## No stop request is swallowed -/

/-- While no release fails, a stop request is served, or in the semaphore, or in the thread's hands, and
there are no more firings than activations. -/
theorem stop_requests_kept (hrun : controller.Run h s)
    (hnofail : Throughout (fun _ s a => ¬ (ActivationFails s a ∨ StopFails s a)) h) :
    count StopRelease h ≤
        count ShutDownEntry h + s.pwm1Sem.value + (if s.pwmPc = .test then 1 else 0) ∧
      count FiringEntry h ≤ count Activation h := by
  obtain ⟨hr, hc, hok⟩ := chanInv hrun
  have hlost : count ActivationFails h = 0 := count_eq_zero (hnofail.mono fun _ _ _ hn hf => hn (.inl hf))
  have hstop : count StopFails h = 0 := count_eq_zero (hnofail.mono fun _ _ _ hn hf => hn (.inr hf))
  have htokens := tokens_length hr
  obtain ⟨hreq, hlost', hstops, hserved, hcleaned⟩ := hc
  have hbalance := hok.balance
  have hle := hok.served_le
  unfold tokensLeft at htokens
  refine ⟨?_, ?_⟩ <;> omega

/-- A firing and a shut-down that follow their requests. -/
theorem stop_requests_kept_run : ∃ h s, controller.Run h s ∧ count StopRelease h = 1 ∧
    count StopRelease h ≤
        count ShutDownEntry h + s.pwm1Sem.value + (if s.pwmPc = .test then 1 else 0) ∧
      count FiringEntry h ≤ count Activation h := by
  obtain ⟨h, s, hrun, hnofail, hone⟩ := run_of_schedule ⟨true, some [0, 0, 0, 1]⟩
    [startUp, [.phase .U, .pwm, .pwm], List.replicate 4 (.adc fun _ => 0)]
    (fun h _ => Throughout (fun _ s a => ¬ (ActivationFails s a ∨ StopFails s a)) h ∧
      count StopRelease h = 1) (by decide +kernel)
  exact ⟨h, s, hrun, hone, stop_requests_kept hrun hnofail⟩

/-! ## Every shut-down has its release -/

/-- If callbacks activate only while `pwm1_start` is clear, no firing token is consumed as a shut-down. -/
theorem shut_downs_le_stop_releases (hrun : controller.Run h s)
    (hclear : Throughout (fun _ s a => Activation s a → s.pwm1Start = 0) h) :
    count ShutDownEntry h ≤ count StopRelease h := by
  have hx : (chan h).Exclusive := by
    refine hrun.invariant (I := fun h _ => (chan h).Exclusive) ?_ ?_ hclear
    · exact fun _ _ => Chan.exclusive_empty
    · intro h s a s' hr hx hg _
      cases he : event h s a with
      | none =>
        rw [chan_none he]
        exact hx
      | some e =>
        rw [chan_event he]
        refine Chan.exclusive_apply (chanInv hr).ok hx e ?_
        cases event_step he with
        | activate p hact => simp [Chan.Free, (chanInv hr).refines.slot, hg hact]
        | release | take | test | clear | cleaned => trivial
  obtain ⟨hr, hc, hok⟩ := chanInv hrun
  have hle := Chan.cleaned_le_stops hok hx
  have hcleaned := hc.cleaned
  have hstops := hc.stops
  omega

/-- Two firings, and a shut-down that the ADC thread asked for. -/
theorem shut_downs_le_stop_releases_run : ∃ h s, controller.Run h s ∧ count FiringEntry h = 2 ∧
    count ShutDownEntry h = 1 ∧ count ShutDownEntry h ≤ count StopRelease h := by
  obtain ⟨h, s, hrun, hclear, hfire, hoff⟩ := run_of_schedule ⟨true, some [0, 0, 0, 1]⟩
    [startUp, [.phase .U, .pwm, .pwm, .pwm], List.replicate 96 .tick, [.pwm, .pwm, .pwm],
      [.phase .V, .pwm, .pwm, .pwm], List.replicate 96 .tick, [.pwm, .pwm, .pwm],
      List.replicate 4 (.adc fun _ => 0), [.pwm, .pwm]]
    (fun h _ => Throughout (fun _ s a => Activation s a → s.pwm1Start = 0) h ∧
      count FiringEntry h = 2 ∧ count ShutDownEntry h = 1) (by decide +kernel)
  exact ⟨h, s, hrun, hfire, hoff, shut_downs_le_stop_releases hrun hclear⟩

/-- `PHASE_V_cb` marks the slot while the thread waits to fire channel 1: the end of that firing clears
the mark of channel 2, and its token shuts the charge down. The ADC thread released nothing. -/
theorem shut_down_of_a_firing_token : ∃ h s, controller.Run h s ∧ count StopRelease h = 0 ∧
    ¬ count ShutDownEntry h ≤ count StopRelease h :=
  run_of_schedule ⟨true, none⟩
    [startUp, [.phase .U, .pwm, .pwm, .pwm, .phase .V], List.replicate 96 .tick, List.replicate 5 .pwm]
    (fun h _ => count StopRelease h = 0 ∧ ¬ count ShutDownEntry h ≤ count StopRelease h)
    (by decide +kernel)

/-! ## Every shut-down belongs to the charge in progress -/

/-- The thread is in a shut-down that will still clear `run_record`. -/
def clearsAhead : PwmPc → Bool
  | .off i pc => i ≠ 3 || (pc = .pulse || pc = .status || pc = .percentage || pc = .record)
  | _ => false

/-- A shut-down is entered in a charge cycle, with a token of the ADC thread from that cycle. -/
def StopOfThisCycle (h : Past) (s : State) (a : Action) : Prop :=
  ShutDownEntry s a → s.runRecord = 1 ∧ (chan h).place.held = [⟨.adc, cycle h s⟩]

instance (h : Past) (s : State) (a : Action) : Decidable (StopOfThisCycle h s a) :=
  inferInstanceAs (Decidable (_ → _))

/-- A release comes only when it cannot be taken for another one: a callback's when there is no token,
the ADC thread's when the charge goes on and no stop request is outstanding. -/
def ReleaseAlone (s : State) (a : Action) : Prop :=
  (Activation s a → s.pwm1Start = 0 ∧ tokensLeft s = 0) ∧
    (StopRelease s a → s.runRecord = 1 ∧ clearsAhead s.pwmPc = false ∧ tokensLeft s = markWaits s)

instance (s : State) (a : Action) : Decidable (ReleaseAlone s a) := inferInstanceAs (Decidable (_ ∧ _))

/-- A stop token of the charge in progress, which nothing is about to end. -/
def CurrentStop (h : Past) (s : State) (t : Token) : Prop :=
  t = ⟨.adc, cycle h s⟩ ∧ s.runRecord = 1 ∧ clearsAhead s.pwmPc = false

theorem polite_of_releaseAlone (hi : ChanInv h s) (hg : ReleaseAlone s a) {e : Event Token}
    (he : event h s a = some e) : (chan h).Polite (CurrentStop h s) e := by
  have htokens := tokens_length hi.refines
  cases event_step he with
  | activate p hact =>
    obtain ⟨hstart, hleft⟩ := hg.1 hact
    refine ⟨?_, ?_⟩
    · simp [hi.refines.slot, hstart]
    · exact List.eq_nil_of_length_eq_zero (htokens.trans hleft)
  | release raw hpc =>
    obtain ⟨hrun, hahead, hleft⟩ := hg.2 hpc
    refine ⟨?_, rfl, hrun, hahead⟩
    rw [Chan.outstanding, pending_eq hi.refines, ← hleft, ← htokens]
    exact List.drop_length
  | take | test | clear | cleaned => trivial

theorem clearsAhead_released {pc : PwmPc} (hpc : clearsAhead pc = false) :
    clearsAhead (released pc) = false := by
  unfold released
  split_ifs
  · rfl
  · exact hpc

theorem currentStop_step (hi : ChanInv h s) (hstep : controller.step s a = some s')
    (hoff : ¬ ShutDownEntry s a) {t : Token} (ht : CurrentStop h s t) :
    CurrentStop ((s, a) :: h) s' t := by
  obtain ⟨rfl, hrec, hahead⟩ := ht
  have hs := hi.refines.suspended
  have hstart : ¬ ChargeStart s a := by
    cases a <;> simp [ChargeStart, hrec]
  have hkeep : s'.runRecord = 1 ∧ clearsAhead s'.pwmPc = false := by
    cases step_effect hstep with
    | idle | tick | serial => exact ⟨hrec, hahead⟩
    | activate p hg =>
      rw [activate_pwmPc hs]
      exact ⟨by simpa [marked] using hrec, clearsAhead_released hahead⟩
    | adc raw s' hadc =>
      cases hadc with
      | release hpc =>
        rw [release_pwmPc hs]
        exact ⟨by simpa using hrec, clearsAhead_released hahead⟩
      | _ => exact ⟨hrec, hahead⟩
    | gpio pins mkfsOk s' hgpio =>
      cases hgpio with
      | record hpc => exact ⟨rfl, hahead⟩
      | _ => exact ⟨hrec, hahead⟩
    | pwm s' hpwm =>
      cases hpwm with
      | testStop hpc hslot => exact absurd ⟨hpc, hslot⟩ hoff
      | offRecord i hpc => simp [hpc, clearsAhead] at hahead
      | offRelayOff i hpc =>
        obtain rfl : i = 3 := by simpa [hpc, clearsAhead] using hahead
        exact ⟨hrec, rfl⟩
      | waitMore => exact ⟨hrec, hahead⟩
      | _ => exact ⟨hrec, by simp_all [clearsAhead]⟩
  refine ⟨?_, hkeep⟩
  rw [cycle, cycle, if_pos hrec, if_pos hkeep.1, count_cons, if_neg hstart, Nat.add_zero]

theorem orderly_step (hi : ChanInv h s) (ho : (chan h).Orderly (CurrentStop h s)) (hg : ReleaseAlone s a)
    (hstep : controller.step s a = some s') :
    (chan ((s, a) :: h)).Orderly (CurrentStop ((s, a) :: h) s') := by
  by_cases hoff : ShutDownEntry s a
  · cases a with
    | pwm =>
      have hp := hi.refines.place
      rw [hoff.1] at hp
      obtain ⟨t, hheld⟩ := hp.holding
      have he : event h s .pwm = some .test := by simp only [event, hoff.1]
      rw [chan_event he]
      exact .of_outstanding_nil (ho.test _ hheld (by simp [hi.refines.slot, hoff.2])).2
    | phase _ | tick | adc _ | gpio _ _ | serial _ _ => exact hoff.elim
  · refine Chan.Orderly.mono ?_ fun t => currentStop_step hi hstep hoff
    cases he : event h s a with
    | none =>
      rw [chan_none he]
      exact ho
    | some e =>
      rw [chan_event he]
      exact Chan.orderly_apply hi.ok ho e (polite_of_releaseAlone hi hg he)

/-- If releases come alone, every shut-down ends the charge whose voltage was reached. -/
theorem shut_downs_of_this_cycle (hrun : controller.Run h s)
    (halone : Throughout (fun _ s a => ReleaseAlone s a) h) : Throughout StopOfThisCycle h := by
  refine hrun.throughout (I := fun h s => (chan h).Orderly (CurrentStop h s)) ?_ ?_ halone
  · intro h s hrun halone
    refine hrun.invariant (I := fun h s => (chan h).Orderly (CurrentStop h s)) ?_ ?_ halone
    · exact fun _ _ => Chan.orderly_empty _
    · exact fun h s a s' hr ho hg hstep => orderly_step (chanInv hr) ho hg hstep
  · intro h s a s' hr ho _ _ hoff
    cases a with
    | pwm =>
      have hi := (chanInv hr).refines
      have hp := hi.place
      rw [hoff.1] at hp
      obtain ⟨t, hheld⟩ := hp.holding
      obtain ⟨rfl, hrec, -⟩ := (ho.test rtSemValueMax hheld (by simp [hi.slot, hoff.2])).1
      rw [hheld]
      exact ⟨hrec, rfl⟩
    | phase _ | tick | adc _ | gpio _ _ | serial _ _ => exact hoff.elim

/-- Two charges, each ended by its own stop request. -/
theorem shut_downs_of_this_cycle_run : ∃ h s, controller.Run h s ∧ count ChargeStart h = 2 ∧
    count ShutDownEntry h = 2 ∧ Throughout StopOfThisCycle h := by
  obtain ⟨h, s, hrun, halone, hstart, hoff⟩ := run_of_schedule ⟨true, some [0, 0, 0, 1]⟩
    [startUp, [.phase .U, .pwm, .pwm, .pwm], List.replicate 4 (.adc fun _ => 0), List.replicate 96 .tick,
      List.replicate 26 .pwm, List.replicate 8 (.gpio startPins true),
      List.replicate 25 (.adc fun _ => 0), [.pwm, .pwm]]
    (fun h _ => Throughout (fun _ s a => ReleaseAlone s a) h ∧ count ChargeStart h = 2 ∧
      count ShutDownEntry h = 2) (by decide +kernel)
  exact ⟨h, s, hrun, hstart, hoff, shut_downs_of_this_cycle hrun halone⟩

/-- The ADC thread releases in two iterations while the thread waits to fire channel 1. The first token
ends the charge; the second one ends the next charge as soon as it has begun. -/
theorem shut_down_of_a_stale_stop : ∃ h s, controller.Run h s ∧ ¬ Throughout StopOfThisCycle h :=
  run_of_schedule ⟨true, some [0, 0, 0, 1]⟩
    [startUp, [.phase .U, .pwm, .pwm, .pwm], List.replicate 29 (.adc fun _ => 0),
      List.replicate 96 .tick, List.replicate 26 .pwm, List.replicate 8 (.gpio startPins true),
      [.pwm, .pwm]]
    (fun h _ => ¬ Throughout StopOfThisCycle h) (by decide +kernel)

end ThyristorController
