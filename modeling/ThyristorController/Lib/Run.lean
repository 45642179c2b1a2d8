import Mathlib.Data.List.Basic
import Mathlib.Logic.Relation
import Mathlib.Tactic.Common

/-!
# Runs of a deterministic transition system, with their history

A `System` has one partial step function, whose second argument carries the scheduler's choice and
the inputs of the step. A run is kept together with its history: the list of past steps, newest first,
each with the state it was taken in. Properties of a run are then read off the history: how often an
event happened (`count`), whether one event happened and another did not since (`Since`), whether every
step met a condition on the state before it (`Throughout`).

`Run.invariant` is the induction rule: what holds initially and is kept by every step that meets the
condition holds at the end of every run whose steps all meet it. `Run.throughout` turns such an
invariant into a property of every step of the run.
-/

namespace Transition

variable {σ α : Type*}

/-- The past steps of a run, newest first: the state before the step, and its action. -/
abbrev History (σ α : Type*) := List (σ × α)

/-- A transition system with one partial step per action. -/
structure System (σ α : Type*) where
  init : σ → Prop
  step : σ → α → Option σ

/-- The runs of a system: what happened, and the state reached. -/
inductive System.Run (S : System σ α) : History σ α → σ → Prop
  | init {s : σ} : S.init s → S.Run [] s
  | step {h : History σ α} {s s' : σ} {a : α} : S.Run h s → S.step s a = some s' → S.Run ((s, a) :: h) s'

/-- Any number of steps that meet the condition lead from one state to another. -/
def System.Steps (S : System σ α) (P : σ → α → Prop) : σ → σ → Prop :=
  Relation.ReflTransGen fun s s' => ∃ a, P s a ∧ S.step s a = some s'

/-! ## Properties of a history -/

/-- Every step of the history satisfies `P`, which may look at the steps before it. -/
def Throughout (P : History σ α → σ → α → Prop) : History σ α → Prop
  | [] => True
  | (s, a) :: h => P h s a ∧ Throughout P h

/-- An event `p` happened, and no event `q` since. -/
def Since (p q : σ → α → Prop) : History σ α → Prop
  | [] => False
  | (s, a) :: h => p s a ∨ (¬ q s a ∧ Since p q h)

/-- How many steps of the history are events `p`. -/
def count (p : σ → α → Prop) [∀ s a, Decidable (p s a)] (h : History σ α) : Nat :=
  h.countP fun e => decide (p e.1 e.2)

section lemmas

variable {P Q : History σ α → σ → α → Prop} {p q : σ → α → Prop} {s : σ} {a : α} {h : History σ α}

instance Throughout.decidable [∀ h s a, Decidable (P h s a)] :
    (h : History σ α) → Decidable (Throughout P h)
  | [] => isTrue trivial
  | (s, a) :: h =>
    have : Decidable (Throughout P h) := Throughout.decidable h
    inferInstanceAs (Decidable (P h s a ∧ Throughout P h))

instance Since.decidable [∀ s a, Decidable (p s a)] [∀ s a, Decidable (q s a)] :
    (h : History σ α) → Decidable (Since p q h)
  | [] => isFalse id
  | (s, a) :: h =>
    have : Decidable (Since p q h) := Since.decidable h
    inferInstanceAs (Decidable (p s a ∨ (¬ q s a ∧ Since p q h)))

@[simp] theorem throughout_nil : Throughout P [] := trivial

@[simp] theorem throughout_cons : Throughout P ((s, a) :: h) ↔ P h s a ∧ Throughout P h := Iff.rfl

theorem Throughout.mono (hPQ : ∀ h s a, P h s a → Q h s a) (hP : Throughout P h) : Throughout Q h := by
  induction h with
  | nil => trivial
  | cons e h ih => exact ⟨hPQ _ _ _ hP.1, ih hP.2⟩

theorem Throughout.and (hP : Throughout P h) (hQ : Throughout Q h) : Throughout (fun h s a => P h s a ∧ Q h s a) h := by
  induction h with
  | nil => trivial
  | cons e h ih => exact ⟨⟨hP.1, hQ.1⟩, ih hP.2 hQ.2⟩

theorem throughout_of_forall {Q : α → Prop} (hQ : ∀ a ∈ h.map Prod.snd, Q a) : Throughout (fun _ _ a => Q a) h := by
  induction h with
  | nil => trivial
  | cons e h ih => exact ⟨hQ _ List.mem_cons_self, ih fun a ha => hQ a (List.mem_cons_of_mem _ ha)⟩

@[simp] theorem not_since_nil : ¬ Since p q ([] : History σ α) := id

@[simp] theorem since_cons : Since p q ((s, a) :: h) ↔ p s a ∨ (¬ q s a ∧ Since p q h) := Iff.rfl

@[simp] theorem count_nil [∀ s a, Decidable (p s a)] : count p ([] : History σ α) = 0 := rfl

@[simp] theorem count_cons [∀ s a, Decidable (p s a)] :
    count p ((s, a) :: h) = count p h + if p s a then 1 else 0 := by
  by_cases hp : p s a <;> simp [count, hp]

theorem count_eq_zero [∀ s a, Decidable (p s a)] (hnone : Throughout (fun _ s a => ¬ p s a) h) :
    count p h = 0 := by
  induction h with
  | nil => rfl
  | cons e h ih => rw [count_cons, ih hnone.2, if_neg hnone.1]

theorem count_append [∀ s a, Decidable (p s a)] (h₁ h₂ : History σ α) :
    count p (h₁ ++ h₂) = count p h₁ + count p h₂ :=
  List.countP_append

end lemmas

/-! ## The induction rules -/

namespace System.Run

variable {S : System σ α} {G P : History σ α → σ → α → Prop} {I : History σ α → σ → Prop}
  {h : History σ α} {s : σ}

/-- What holds initially, and is kept by every step that meets `G`, holds after every run whose steps
all meet `G`. -/
theorem invariant (hinit : ∀ s, S.init s → I [] s)
    (hstep : ∀ h s a s', S.Run h s → I h s → G h s a → S.step s a = some s' → I ((s, a) :: h) s')
    (hrun : S.Run h s) (hG : Throughout G h) : I h s := by
  induction hrun with
  | init hs => exact hinit _ hs
  | step hr hs ih => exact hstep _ _ _ _ hr (ih hG.2) hG.1 hs

/-- The rule for a property that every run has. -/
theorem always (hinit : ∀ s, S.init s → I [] s)
    (hstep : ∀ h s a s', S.Run h s → I h s → S.step s a = some s' → I ((s, a) :: h) s')
    (hrun : S.Run h s) : I h s := by
  induction hrun with
  | init hs => exact hinit _ hs
  | step hr hs ih => exact hstep _ _ _ _ hr ih hs

/-- If an invariant of the runs that meet `G` makes each of their steps satisfy `P`, then all steps of
such a run do. -/
theorem throughout (hinv : ∀ h s, S.Run h s → Throughout G h → I h s)
    (hP : ∀ h s a s', S.Run h s → I h s → G h s a → S.step s a = some s' → P h s a)
    (hrun : S.Run h s) (hG : Throughout G h) : Throughout P h := by
  induction hrun with
  | init => trivial
  | step hr hs ih => exact ⟨hP _ _ _ _ hr (hinv _ _ hr hG.2) hG.1 hs, ih hG.2⟩

/-- The same for an invariant of all runs. -/
theorem throughout_always (hinv : ∀ h s, S.Run h s → I h s)
    (hP : ∀ h s a s', S.Run h s → I h s → S.step s a = some s' → P h s a) (hrun : S.Run h s) :
    Throughout P h := by
  induction hrun with
  | init => trivial
  | step hr hs ih => exact ⟨hP _ _ _ _ hr (hinv _ _ hr) hs, ih⟩

/-- If a step from a state with `P` leads to a state with `P` exactly if it meets `G`, then all states of a run have
`P` exactly if all its steps meet `G`. -/
theorem throughout_iff {P : σ → Prop} {G : σ → α → Prop} (hinit : ∀ s, S.init s → P s)
    (hstep : ∀ h s a s', S.Run h s → P s → S.step s a = some s' → (P s' ↔ G s a)) (hrun : S.Run h s) :
    (Throughout (fun _ s _ => P s) h ∧ P s) ↔ Throughout (fun _ s a => G s a) h := by
  induction hrun with
  | init hs => exact ⟨fun _ => trivial, fun _ => ⟨trivial, hinit _ hs⟩⟩
  | step hr hs ih =>
    constructor
    · rintro ⟨⟨hp, hpast⟩, hp'⟩
      exact ⟨(hstep _ _ _ _ hr hp hs).mp hp', ih.mp ⟨hpast, hp⟩⟩
    · rintro ⟨hg, hpast⟩
      obtain ⟨hthrough, hp⟩ := ih.mpr hpast
      exact ⟨⟨hp, hthrough⟩, (hstep _ _ _ _ hr hp hs).mpr hg⟩

/-- The same for a `P` that alone does not carry the induction: an invariant `I` of the runs that meet `G` gives `P`,
and a step from `I` to `P` meets `G`. -/
theorem throughout_iff_of_invariant {I P : σ → Prop} {G : σ → α → Prop} (hinit : ∀ s, S.init s → I s)
    (hstep : ∀ s a s', I s → G s a → S.step s a = some s' → I s') (hP : ∀ s, I s → P s)
    (hG : ∀ s a s', I s → S.step s a = some s' → P s' → G s a) (hrun : S.Run h s) :
    (Throughout (fun _ s _ => P s) h ∧ P s) ↔ Throughout (fun _ s a => G s a) h := by
  have hinv : ∀ h s, S.Run h s → Throughout (fun _ s a => G s a) h → I s := by
    intro h s hrun hall
    exact hrun.invariant (I := fun _ s => I s) hinit (fun _ _ _ _ _ hI hg hs => hstep _ _ _ hI hg hs) hall
  induction hrun with
  | init hs => exact ⟨fun _ => trivial, fun _ => ⟨trivial, hP _ (hinit _ hs)⟩⟩
  | step hr hs ih =>
    constructor
    · rintro ⟨⟨hp, hpast⟩, hp'⟩
      have hall := ih.mp ⟨hpast, hp⟩
      exact ⟨hG _ _ _ (hinv _ _ hr hall) hs hp', hall⟩
    · rintro ⟨hg, hpast⟩
      obtain ⟨hthrough, hp⟩ := ih.mpr hpast
      exact ⟨⟨hp, hthrough⟩, hP _ (hstep _ _ _ (hinv _ _ hr hpast) hg hs)⟩

/-- If a step from the invariant has `P` and leads to the invariant exactly if it meets `G`, then a run keeps the
invariant and has only steps with `P` exactly if all its steps meet `G`. -/
theorem throughout_and_iff {P G : σ → α → Prop} (hinit : ∀ s, S.init s → I [] s)
    (hstep : ∀ h s a s', I h s → S.step s a = some s' → ((P s a ∧ I ((s, a) :: h) s') ↔ G s a)) (hrun : S.Run h s) :
    (Throughout (fun h s a => I h s ∧ P s a) h ∧ I h s) ↔ Throughout (fun _ s a => G s a) h := by
  induction hrun with
  | init hs => exact ⟨fun _ => trivial, fun _ => ⟨trivial, hinit _ hs⟩⟩
  | step hr hs ih =>
    constructor
    · rintro ⟨⟨⟨hI, hp⟩, hpast⟩, hI'⟩
      exact ⟨(hstep _ _ _ _ hI hs).mp ⟨hp, hI'⟩, ih.mp ⟨hpast, hI⟩⟩
    · rintro ⟨hg, hpast⟩
      obtain ⟨hthrough, hI⟩ := ih.mpr hpast
      obtain ⟨hp, hI'⟩ := (hstep _ _ _ _ hI hs).mpr hg
      exact ⟨⟨⟨hI, hp⟩, hthrough⟩, hI'⟩

theorem mono {S' : System σ α} (hinit : ∀ s, S.init s → S'.init s) (hstep : S.step = S'.step) (hrun : S.Run h s) :
    S'.Run h s := by
  induction hrun with
  | init hs => exact .init (hinit _ hs)
  | step _ hs ih => exact .step ih (hstep ▸ hs)

end System.Run

namespace System.Steps

variable {S : System σ α} {P : σ → α → Prop} {I : σ → Prop} {h : History σ α} {s s' t : σ} {a : α}

theorem single (hP : P s a) (hstep : S.step s a = some s') : S.Steps P s s' :=
  Relation.ReflTransGen.single ⟨a, hP, hstep⟩

theorem trans (hs : S.Steps P s s') (ht : S.Steps P s' t) : S.Steps P s t := Relation.ReflTransGen.trans hs ht

theorem keeps (hstep : ∀ s a s', I s → P s a → S.step s a = some s' → I s') (hs : S.Steps P s s') (hI : I s) :
    I s' := by
  induction hs with
  | refl => exact hI
  | tail _ hstep' ih =>
    obtain ⟨a, hP, ha⟩ := hstep'
    exact hstep _ _ _ ih hP ha

theorem run (hs : S.Steps P s s') (hrun : S.Run h s) : ∃ h', S.Run h' s' :=
  hs.keeps (I := fun s => ∃ h, S.Run h s) (fun _ _ _ ⟨_, hr⟩ _ ha => ⟨_, hr.step ha⟩) ⟨h, hrun⟩

end System.Steps

/-! ## Executing a schedule -/

/-- Execute a list of actions, first action first, from a state with a given history. -/
def System.exec (S : System σ α) : List α → History σ α → σ → Option (History σ α × σ)
  | [], h, s => some (h, s)
  | a :: as, h, s => (S.step s a).bind fun s' => S.exec as ((s, a) :: h) s'

theorem System.exec_run {S : System σ α} {as : List α} {h h' : History σ α} {s s' : σ}
    (hrun : S.Run h s) (he : S.exec as h s = some (h', s')) : S.Run h' s' := by
  induction as generalizing h s with
  | nil =>
    simp only [exec, Option.some.injEq, Prod.mk.injEq] at he
    obtain ⟨rfl, rfl⟩ := he
    exact hrun
  | cons a as ih =>
    simp only [exec, Option.bind_eq_some_iff] at he
    obtain ⟨t, ht, he⟩ := he
    exact ih (.step hrun ht) he

theorem System.exists_run {S : System σ α} {s : σ} (hs : S.init s) (as : List α)
    (P : History σ α → σ → Prop) [∀ h s, Decidable (P h s)]
    (he : ((S.exec as [] s).any fun r => decide (P r.1 r.2)) = true) : ∃ h s', S.Run h s' ∧ P h s' := by
  cases hr : S.exec as [] s with
  | none => simp [hr] at he
  | some r =>
    simp only [hr, Option.any_some, decide_eq_true_eq] at he
    exact ⟨r.1, r.2, exec_run (.init hs) hr, he⟩

theorem System.exec_actions {S : System σ α} {as : List α} {h h' : History σ α} {s s' : σ}
    (he : S.exec as h s = some (h', s')) : h'.map Prod.snd = as.reverse ++ h.map Prod.snd := by
  induction as generalizing h s with
  | nil =>
    obtain ⟨rfl, -⟩ := Prod.mk.inj (Option.some.inj he)
    rfl
  | cons a as ih =>
    obtain ⟨t, -, he⟩ := Option.bind_eq_some_iff.mp he
    rw [ih he, List.reverse_cons, List.append_assoc]
    rfl

theorem System.exists_run_of {S : System σ α} {s : σ} (hs : S.init s) (as : List α) {Q : α → Prop}
    (hQ : ∀ a ∈ as, Q a) (P : History σ α → σ → Prop) [∀ h s, Decidable (P h s)]
    (he : ((S.exec as [] s).any fun r => decide (P r.1 r.2)) = true) :
    ∃ h s', S.Run h s' ∧ Throughout (fun _ _ a => Q a) h ∧ P h s' := by
  cases hr : S.exec as [] s with
  | none => simp [hr] at he
  | some r =>
    simp only [hr, Option.any_some, decide_eq_true_eq] at he
    refine ⟨r.1, r.2, exec_run (.init hs) hr, throughout_of_forall fun a ha => hQ a ?_, he⟩
    rw [exec_actions hr, List.map_nil, List.append_nil] at ha
    exact List.mem_reverse.mp ha

/-- Execute a list of actions, each of which meets a condition. -/
def System.execIf (S : System σ α) (P : σ → α → Prop) [∀ s a, Decidable (P s a)] : List α → σ → Option σ
  | [], s => some s
  | a :: as, s => if P s a then (S.step s a).bind fun s' => S.execIf P as s' else none

theorem System.execIf_steps {S : System σ α} {P : σ → α → Prop} [∀ s a, Decidable (P s a)] {as : List α} {s s' : σ}
    (he : S.execIf P as s = some s') : S.Steps P s s' := by
  induction as generalizing s with
  | nil =>
    obtain rfl := Option.some.inj he
    exact .refl
  | cons a as ih =>
    obtain ⟨hP, he⟩ := Option.ite_none_right_eq_some.mp he
    obtain ⟨t, ht, he⟩ := Option.bind_eq_some_iff.mp he
    exact .head ⟨a, hP, ht⟩ (ih he)

end Transition
