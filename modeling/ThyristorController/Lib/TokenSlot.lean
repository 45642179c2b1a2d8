import Mathlib.Data.List.Basic
import Mathlib.Tactic.Common

/-!
# A counting channel with a one-slot register

Two kinds of producers post tokens to one consumer through a bounded queue. A *request* first marks
the shared slot and then posts its token; a *stop* only posts. The consumer takes a token and looks at
the slot: if it is marked it serves the request and clears the slot at the end of the service,
otherwise it cleans up. Nothing ties a token to the mark, so a token may be taken for one of the other
kind.

`Ok` is what every order of events keeps: each token is accounted for (`balance`), at most one service
per request (`served_le`), and a mark that waits for its service has a token (`pending_le`). If
requests arrive only while the slot is clear, no request's token is taken for a stop
(`cleaned_le_stops`). If moreover producers wait for the tokens before theirs, each token is taken for
what it is, and a clean-up takes the one outstanding stop (`Orderly.test`).
-/

namespace TokenSlot

variable {τ : Type*}

/-- Where the consumer is. -/
inductive Place (τ : Type*) where
  | idle
  | waiting
  | holding (t : τ)
  | serving
  | cleaning

namespace Place

/-- The token in the consumer's hands. -/
def held : Place τ → List τ
  | .holding t => [t]
  | _ => []

/-- The consumer is in a service. -/
def isServing : Place τ → Bool
  | .serving => true
  | _ => false

@[simp] theorem held_holding (t : τ) : held (.holding t) = [t] := rfl
@[simp] theorem held_idle : held (.idle : Place τ) = [] := rfl
@[simp] theorem held_waiting : held (.waiting : Place τ) = [] := rfl
@[simp] theorem held_serving : held (.serving : Place τ) = [] := rfl
@[simp] theorem held_cleaning : held (.cleaning : Place τ) = [] := rfl

@[simp] theorem isServing_holding (t : τ) : isServing (.holding t) = false := rfl
@[simp] theorem isServing_idle : isServing (.idle : Place τ) = false := rfl
@[simp] theorem isServing_waiting : isServing (.waiting : Place τ) = false := rfl
@[simp] theorem isServing_serving : isServing (.serving : Place τ) = true := rfl
@[simp] theorem isServing_cleaning : isServing (.cleaning : Place τ) = false := rfl

end Place

/-- The channel, with what happened so far. Only delivered stops are counted; a request that the queue
refused has marked the slot and counts as lost. -/
structure Chan (τ : Type*) where
  queue : List τ
  slot : Bool
  place : Place τ
  requests : Nat
  lost : Nat
  stops : Nat
  served : Nat
  cleaned : Nat

/-- What may happen. -/
inductive Event (τ : Type*) where
  | request (t : τ)
  | stop (t : τ)
  | take
  | test
  | finish
  | cleaned

namespace Chan

/-- The channel before anything happened. -/
def empty : Chan τ where
  queue := []
  slot := false
  place := .idle
  requests := 0
  lost := 0
  stops := 0
  served := 0
  cleaned := 0

/-- Post a token: to the waiting consumer, or to the queue if it has room for it. -/
def post (cap : Nat) (c : Chan τ) (t : τ) : Option (Chan τ) :=
  match c.place with
  | .waiting => some { c with place := .holding t }
  | _ => if c.queue.length < cap then some { c with queue := c.queue ++ [t] } else none

/-- The effect of an event; one that does not fit the consumer's place changes nothing. -/
def apply (cap : Nat) (c : Chan τ) : Event τ → Chan τ
  | .request t =>
    { (c.post cap t).getD { c with lost := c.lost + 1 } with slot := true, requests := c.requests + 1 }
  | .stop t =>
    match c.post cap t with
    | some c' => { c' with stops := c.stops + 1 }
    | none => c
  | .take =>
    match c.place, c.queue with
    | .idle, [] => { c with place := .waiting }
    | .idle, t :: rest => { c with place := .holding t, queue := rest }
    | _, _ => c
  | .test =>
    match c.place with
    | .holding _ =>
      if c.slot then { c with place := .serving, served := c.served + 1 }
      else { c with place := .cleaning, cleaned := c.cleaned + 1 }
    | _ => c
  | .finish =>
    match c.place with
    | .serving => { c with place := .idle, slot := false }
    | _ => c
  | .cleaned =>
    match c.place with
    | .cleaning => { c with place := .idle }
    | _ => c

/-- The tokens not yet looked at, oldest first. -/
def tokens (c : Chan τ) : List τ := c.place.held ++ c.queue

/-- One if the mark waits for its service. -/
def pending (c : Chan τ) : Nat := if c.slot && !c.place.isServing then 1 else 0

/-- The tokens that do not belong to a waiting mark: the stops, as long as tokens keep their order. -/
def outstanding (c : Chan τ) : List τ := c.tokens.drop c.pending

theorem pending_le_one (c : Chan τ) : c.pending ≤ 1 := by
  unfold pending
  split <;> omega

theorem post_cases (cap : Nat) (c : Chan τ) (t : τ) :
    (c.place = .waiting ∧ c.post cap t = some { c with place := .holding t }) ∨
    (c.place ≠ .waiting ∧ c.queue.length < cap ∧ c.post cap t = some { c with queue := c.queue ++ [t] }) ∨
    (c.place ≠ .waiting ∧ cap ≤ c.queue.length ∧ c.post cap t = none) := by
  cases hp : c.place with
  | waiting => exact .inl ⟨rfl, by simp [post, hp]⟩
  | idle | holding _ | serving | cleaning =>
    right
    by_cases hc : c.queue.length < cap
    · exact .inl ⟨nofun, hc, by simp [post, hp, hc]⟩
    · exact .inr ⟨nofun, by omega, by simp [post, hp, hc]⟩

theorem post_eq {c c' : Chan τ} {cap : Nat} {t : τ} (h : c.post cap t = some c') :
    c' = { c with queue := c'.queue, place := c'.place } := by
  rcases post_cases cap c t with ⟨-, he⟩ | ⟨-, -, he⟩ | ⟨-, -, he⟩ <;> rw [he] at h <;> cases h <;> rfl

section post

variable (cap : Nat) (c : Chan τ) (t : τ)

theorem apply_request_queue : (c.apply cap (.request t)).queue = ((c.post cap t).getD c).queue := by
  simp only [apply]
  cases c.post cap t <;> rfl

theorem apply_request_place : (c.apply cap (.request t)).place = ((c.post cap t).getD c).place := by
  simp only [apply]
  cases c.post cap t <;> rfl

theorem apply_stop_queue : (c.apply cap (.stop t)).queue = ((c.post cap t).getD c).queue := by
  simp only [apply]
  cases c.post cap t <;> rfl

theorem apply_stop_place : (c.apply cap (.stop t)).place = ((c.post cap t).getD c).place := by
  simp only [apply]
  cases c.post cap t <;> rfl

theorem apply_stop_slot : (c.apply cap (.stop t)).slot = c.slot := by
  simp only [apply]
  cases hp : c.post cap t with
  | none => rfl
  | some c' =>
    rw [post_eq hp]

theorem apply_request_slot : (c.apply cap (.request t)).slot = true := rfl

end post

theorem apply_counters (cap : Nat) (c : Chan τ) {e : Event τ} (he : e = .take ∨ e = .finish ∨ e = .cleaned) :
    (c.apply cap e).requests = c.requests ∧ (c.apply cap e).lost = c.lost ∧
      (c.apply cap e).stops = c.stops ∧ (c.apply cap e).served = c.served ∧
      (c.apply cap e).cleaned = c.cleaned := by
  rcases he with rfl | rfl | rfl <;> simp only [apply] <;> split <;> exact ⟨rfl, rfl, rfl, rfl, rfl⟩

/-! ## What every order of events keeps -/

/-- The invariant of the channel. -/
structure Ok (c : Chan τ) : Prop where
  balance : c.tokens.length + c.served + c.cleaned + c.lost = c.requests + c.stops
  served_le : c.served + c.pending ≤ c.requests
  pending_le : c.pending ≤ c.tokens.length
  serving_slot : c.place.isServing = true → c.slot = true
  waiting_queue : c.place = .waiting → c.queue = []

theorem ok_empty : (empty : Chan τ).Ok := by
  refine ⟨?_, ?_, ?_, ?_, ?_⟩ <;> simp [empty, tokens, pending]

variable {cap : Nat} {c : Chan τ}

theorem ok_request (hcap : 0 < cap) (h : c.Ok) (t : τ) : (c.apply cap (.request t)).Ok := by
  obtain ⟨hb, hs, hp, hv, hw⟩ := h
  simp only [tokens, List.length_append] at hb hp
  have hmark := pending_le_one { c with slot := true }
  have hserved : c.served + ({ c with slot := true } : Chan τ).pending ≤ c.requests + 1 := by omega
  simp only [pending] at hmark hserved
  rcases post_cases cap c t with ⟨hpl, he⟩ | ⟨hpl, -, he⟩ | ⟨hpl, hfull, he⟩ <;>
    simp only [apply, he, Option.getD_some, Option.getD_none]
  · have hq := hw hpl
    simp only [hpl, hq, Place.held_waiting, List.length_nil] at hb
    refine ⟨?_, ?_, ?_, ?_, ?_⟩ <;> simp [tokens, pending, hq] <;> omega
  · refine ⟨?_, ?_, ?_, ?_, ?_⟩ <;> simp only [tokens, pending, List.length_append, List.length_singleton]
    · omega
    · exact hserved
    · omega
    · exact fun _ => trivial
    · exact fun hwait => absurd hwait hpl
  · refine ⟨?_, ?_, ?_, ?_, ?_⟩ <;> simp only [tokens, pending, List.length_append]
    · omega
    · exact hserved
    · omega
    · exact fun _ => trivial
    · exact hw

theorem ok_stop (h : c.Ok) (t : τ) : (c.apply cap (.stop t)).Ok := by
  obtain ⟨hb, hs, hp, hv, hw⟩ := h
  simp only [tokens, pending, List.length_append] at hb hs hp
  rcases post_cases cap c t with ⟨hpl, he⟩ | ⟨hpl, -, he⟩ | ⟨hpl, hfull, he⟩ <;> simp only [apply, he]
  · have hq := hw hpl
    simp only [hpl, hq, Place.held_waiting, List.length_nil, Place.isServing_waiting, Bool.not_false,
      Bool.and_true] at hb hs hp
    refine ⟨?_, ?_, ?_, ?_, ?_⟩ <;> simp [tokens, pending, hq] <;> omega
  · refine ⟨?_, ?_, ?_, ?_, ?_⟩ <;> simp only [tokens, pending, List.length_append, List.length_singleton]
    · omega
    · exact hs
    · omega
    · exact hv
    · exact fun hwait => absurd hwait hpl
  · exact ⟨by simpa only [tokens, List.length_append] using hb, hs,
      by simpa only [tokens, pending, List.length_append] using hp, hv, hw⟩

theorem ok_take (h : c.Ok) : (c.apply cap .take).Ok := by
  obtain ⟨hb, hs, hp, hv, hw⟩ := h
  simp only [apply]
  split
  · next hpl hq => refine ⟨?_, ?_, ?_, ?_, ?_⟩ <;> simp_all [tokens, pending]
  · next hpl hq => refine ⟨?_, ?_, ?_, ?_, ?_⟩ <;> simp_all [tokens, pending]
  · exact ⟨hb, hs, hp, hv, hw⟩

theorem ok_test (h : c.Ok) : (c.apply cap .test).Ok := by
  obtain ⟨hb, hs, hp, hv, hw⟩ := h
  simp only [apply]
  split
  · next t hpl =>
    split
    · next hslot =>
      refine ⟨?_, ?_, ?_, ?_, ?_⟩ <;> simp_all [tokens, pending]
      omega
    · next hslot =>
      refine ⟨?_, ?_, ?_, ?_, ?_⟩ <;> simp_all [tokens, pending]
      omega
  · exact ⟨hb, hs, hp, hv, hw⟩

theorem ok_finish (h : c.Ok) : (c.apply cap .finish).Ok := by
  obtain ⟨hb, hs, hp, hv, hw⟩ := h
  simp only [apply]
  split
  · next hpl => refine ⟨?_, ?_, ?_, ?_, ?_⟩ <;> simp_all [tokens, pending]
  · exact ⟨hb, hs, hp, hv, hw⟩

theorem ok_cleaned (h : c.Ok) : (c.apply cap .cleaned).Ok := by
  obtain ⟨hb, hs, hp, hv, hw⟩ := h
  simp only [apply]
  split
  · next hpl => refine ⟨?_, ?_, ?_, ?_, ?_⟩ <;> simp_all [tokens, pending]
  · exact ⟨hb, hs, hp, hv, hw⟩

theorem ok_apply (hcap : 0 < cap) (h : c.Ok) (e : Event τ) : (c.apply cap e).Ok := by
  cases e with
  | request t => exact ok_request hcap h t
  | stop t => exact ok_stop h t
  | take => exact ok_take h
  | test => exact ok_test h
  | finish => exact ok_finish h
  | cleaned => exact ok_cleaned h

/-! ## Requests on a clear slot only -/

/-- Every request has been served, or its mark waits. -/
def Exclusive (c : Chan τ) : Prop := c.requests = c.served + c.pending

/-- The guard: a request finds the slot clear. -/
def Free (c : Chan τ) : Event τ → Prop
  | .request _ => c.slot = false
  | _ => True

theorem not_serving_of_clear (h : c.Ok) (hslot : c.slot = false) : c.place.isServing = false := by
  by_contra hs
  rw [h.serving_slot (by simpa using hs)] at hslot
  cases hslot

theorem exclusive_empty : (empty : Chan τ).Exclusive := rfl

theorem exclusive_apply (h : c.Ok) (hx : c.Exclusive) (e : Event τ) (hfree : c.Free e) :
    (c.apply cap e).Exclusive := by
  cases e with
  | request t =>
    have hslot : c.slot = false := hfree
    have hserve := not_serving_of_clear h hslot
    rcases post_cases cap c t with ⟨hpl, he⟩ | ⟨-, -, he⟩ | ⟨-, -, he⟩ <;>
      simp_all [apply, Exclusive, pending]
  | stop t =>
    rcases post_cases cap c t with ⟨hpl, he⟩ | ⟨-, -, he⟩ | ⟨-, -, he⟩ <;>
      simp_all [apply, Exclusive, pending]
  | take =>
    simp only [apply]
    split <;> simp_all [Exclusive, pending]
  | test =>
    simp only [apply]
    split
    · split <;> simp_all [Exclusive, pending]
    · exact hx
  | finish =>
    simp only [apply]
    split <;> simp_all [Exclusive, pending]
  | cleaned =>
    simp only [apply]
    split <;> simp_all [Exclusive, pending]

theorem cleaned_le_stops (h : c.Ok) (hx : c.Exclusive) : c.cleaned ≤ c.stops := by
  have hb := h.balance
  have hp := h.pending_le
  unfold Exclusive at hx
  omega

/-! ## Producers that wait for each other -/

/-- At most one stop is outstanding, and it satisfies `P`. -/
structure Orderly (P : τ → Prop) (c : Chan τ) : Prop where
  one : c.outstanding.length ≤ 1
  all : ∀ t ∈ c.outstanding, P t

/-- The guard: a request finds the slot clear and no token, a stop finds no outstanding stop. -/
def Polite (P : τ → Prop) (c : Chan τ) : Event τ → Prop
  | .request _ => c.slot = false ∧ c.tokens = []
  | .stop t => c.outstanding = [] ∧ P t
  | _ => True

theorem orderly_empty (P : τ → Prop) : (empty : Chan τ).Orderly P := by
  refine ⟨?_, ?_⟩ <;> simp [empty, outstanding, tokens]

/-- The outstanding tokens of a channel without any are none, whatever is required of them. -/
theorem Orderly.of_outstanding_nil {P : τ → Prop} (h : c.outstanding = []) : c.Orderly P := by
  refine ⟨?_, ?_⟩ <;> simp [h]

theorem Orderly.mono {P Q : τ → Prop} (h : c.Orderly P) (hPQ : ∀ t, P t → Q t) : c.Orderly Q :=
  ⟨h.one, fun t ht => hPQ t (h.all t ht)⟩

theorem orderly_congr {P : τ → Prop} {c' : Chan τ} (h : c.Orderly P)
    (ho : c'.outstanding = c.outstanding) : c'.Orderly P := by
  refine ⟨?_, ?_⟩ <;> rw [ho]
  · exact h.one
  · exact h.all

theorem outstanding_request (h : c.Ok) {t : τ} (hslot : c.slot = false) (htok : c.tokens = []) :
    (c.apply cap (.request t)).outstanding = [] := by
  have hserve := not_serving_of_clear h hslot
  simp only [tokens, List.append_eq_nil_iff] at htok
  rcases post_cases cap c t with ⟨hpl, he⟩ | ⟨-, -, he⟩ | ⟨-, -, he⟩ <;>
    simp_all [apply, outstanding, tokens, pending]

theorem outstanding_stop (cap : Nat) (h : c.Ok) (t : τ) :
    (c.apply cap (.stop t)).outstanding = c.outstanding ++ [t] ∨
      (c.apply cap (.stop t)).outstanding = c.outstanding := by
  have hp := h.pending_le
  rcases post_cases cap c t with ⟨hpl, he⟩ | ⟨hpl, -, he⟩ | ⟨-, -, he⟩ <;> simp only [apply, he]
  · left
    have hq := h.waiting_queue hpl
    simp_all [outstanding, tokens, pending]
  · left
    simp only [outstanding, tokens, pending] at hp ⊢
    rw [← List.append_assoc, List.drop_append_of_le_length hp]
  · right
    trivial

theorem outstanding_take : (c.apply cap .take).outstanding = c.outstanding := by
  simp only [apply]
  split <;> simp_all [outstanding, tokens, pending]

theorem outstanding_test_marked (hslot : c.slot = true) :
    (c.apply cap .test).outstanding = c.outstanding := by
  simp only [apply]
  split <;> simp_all [outstanding, tokens, pending]

theorem outstanding_test_clear (cap : Nat) {t : τ} (hpl : c.place = .holding t) (hslot : c.slot = false) :
    c.outstanding = t :: (c.apply cap .test).outstanding := by
  simp [apply, outstanding, tokens, pending, hpl, hslot]

theorem outstanding_finish : (c.apply cap .finish).outstanding = c.outstanding := by
  simp only [apply]
  split <;> simp_all [outstanding, tokens, pending]

theorem outstanding_cleaned : (c.apply cap .cleaned).outstanding = c.outstanding := by
  simp only [apply]
  split <;> simp_all [outstanding, tokens, pending]

theorem orderly_apply {P : τ → Prop} (h : c.Ok) (ho : c.Orderly P) (e : Event τ) (hg : c.Polite P e) :
    (c.apply cap e).Orderly P := by
  cases e with
  | request t => exact .of_outstanding_nil (outstanding_request h hg.1 hg.2)
  | stop t =>
    rcases outstanding_stop cap h t with he | he
    · refine ⟨?_, ?_⟩ <;> simp [he, hg.1, hg.2]
    · exact .of_outstanding_nil (he.trans hg.1)
  | take => exact orderly_congr ho outstanding_take
  | test =>
    cases hslot : c.slot with
    | true => exact orderly_congr ho (outstanding_test_marked hslot)
    | false =>
      cases hpl : c.place with
      | holding t =>
        have he := outstanding_test_clear cap hpl hslot
        have hone := ho.one
        rw [he, List.length_cons] at hone
        exact .of_outstanding_nil (List.eq_nil_of_length_eq_zero (by omega))
      | idle | waiting | serving | cleaning => exact orderly_congr ho (by simp [apply, hpl])
  | finish => exact orderly_congr ho outstanding_finish
  | cleaned => exact orderly_congr ho outstanding_cleaned

theorem Orderly.test {P : τ → Prop} (cap : Nat) (ho : c.Orderly P) {t : τ} (hpl : c.place = .holding t)
    (hslot : c.slot = false) : P t ∧ (c.apply cap .test).outstanding = [] := by
  have he := outstanding_test_clear cap hpl hslot
  have hone := ho.one
  rw [he, List.length_cons] at hone
  exact ⟨ho.all t (by simp [he]), List.eq_nil_of_length_eq_zero (by omega)⟩

/-! ## A surplus token -/

theorem outstanding_ne_nil_iff : c.outstanding ≠ [] ↔ c.pending < c.tokens.length := by
  rw [outstanding, Ne, List.drop_eq_nil_iff, Nat.not_le]

theorem tokens_request (cap : Nat) (h : c.Ok) (t : τ) :
    c.tokens.length < (c.apply cap (.request t)).tokens.length ∨
      (cap ≤ c.tokens.length ∧ (c.apply cap (.request t)).tokens.length = c.tokens.length) := by
  rw [tokens, tokens, apply_request_place, apply_request_queue]
  rcases post_cases cap c t with ⟨hpl, he⟩ | ⟨-, -, he⟩ | ⟨-, hge, he⟩ <;> rw [he]
  · left
    simp [hpl, h.waiting_queue hpl]
  · left
    simp
  · right
    refine ⟨?_, rfl⟩
    rw [List.length_append]
    omega

theorem outstanding_request_marked (hcap : 2 ≤ cap) (h : c.Ok) (t : τ) (hslot : c.slot = true) :
    (c.apply cap (.request t)).outstanding ≠ [] := by
  rw [outstanding_ne_nil_iff]
  have htokens := tokens_request cap h t
  have hle := pending_le_one (c.apply cap (.request t))
  cases hserve : c.place.isServing with
  | true =>
    have hpend : (c.apply cap (.request t)).pending = 0 := by
      rw [pending, apply_request_place]
      rcases post_cases cap c t with ⟨hpl, -⟩ | ⟨-, -, he⟩ | ⟨-, -, he⟩
      · simp [hpl] at hserve
      · simp [he, hserve]
      · simp [he, hserve]
    omega
  | false =>
    have hpend := h.pending_le
    rw [pending, hslot, hserve] at hpend
    simp only [Bool.not_false, Bool.and_self, if_true] at hpend
    omega

theorem outstanding_request_ne_nil (hcap : 2 ≤ cap) (h : c.Ok) (t : τ) (hne : c.outstanding ≠ []) :
    (c.apply cap (.request t)).outstanding ≠ [] := by
  cases hslot : c.slot with
  | true => exact outstanding_request_marked hcap h t hslot
  | false =>
    rw [outstanding_ne_nil_iff] at hne ⊢
    have htokens := tokens_request cap h t
    have hle := pending_le_one (c.apply cap (.request t))
    omega

theorem outstanding_stop_ne_nil (h : c.Ok) (t : τ) (hne : c.outstanding ≠ []) :
    (c.apply cap (.stop t)).outstanding ≠ [] := by
  rcases outstanding_stop cap h t with he | he <;> rw [he]
  · simp
  · exact hne

end Chan

end TokenSlot
