import ThyristorController.Lib.Run

/-!
# Two parties on a pair of queues

A `Party` waits for one symbol at a time; what it does with it, up to the next time that it waits, is a function of its
state and the symbol: the next state, and the symbols that it puts out one after the other. Two such parties write into
each other's queue. At any moment either of them can go on in at most one way, and steps of the two commute
(`Link.diamond`), so that the state in which they come to rest does not depend on their order: one schedule that comes
to rest decides about all others (`settles_iff`). Such a schedule is put together of what a party `Takes` at a stretch.
-/

namespace Duplex

open Transition

variable {σ τ α : Type*}

/-- A party that reads from a queue. A halted party reads no more. -/
structure Party (σ α : Type*) where
  halted : σ → Bool
  react : σ → α → σ × List α

/-- Two parties, the symbols that each of them still has to put out, and those on their way. -/
@[ext] structure Link (σ τ α : Type*) where
  left : σ
  leftOut : List α
  toRight : List α
  right : τ
  rightOut : List α
  toLeft : List α
  deriving DecidableEq

inductive Side
  | left
  | right
  deriving DecidableEq

namespace Link

def swap (s : Link σ τ α) : Link τ σ α := ⟨s.right, s.rightOut, s.toLeft, s.left, s.leftOut, s.toRight⟩

/-- The left party puts out a symbol, or reads one if there is none to put out. -/
def stepLeft (A : Party σ α) (s : Link σ τ α) : Option (Link σ τ α) :=
  match s.leftOut, s.toLeft with
  | b :: rest, _ => some { s with leftOut := rest, toRight := s.toRight ++ [b] }
  | [], b :: rest =>
    if A.halted s.left then none
    else some { s with left := (A.react s.left b).1, leftOut := (A.react s.left b).2, toLeft := rest }
  | [], [] => none

def step (A : Party σ α) (B : Party τ α) (s : Link σ τ α) : Side → Option (Link σ τ α)
  | .left => s.stepLeft A
  | .right => (s.swap.stepLeft B).map swap

/-- Neither party can go on. -/
def Stuck (A : Party σ α) (B : Party τ α) (s : Link σ τ α) : Prop := ∀ x, s.step A B x = none

variable {A : Party σ α} {B : Party τ α} {s s' s₁ s₂ t : Link σ τ α} {x y : Side}

theorem stepLeft_eq : s.stepLeft A = some s' ↔
    (∃ b rest, s.leftOut = b :: rest ∧ s' = { s with leftOut := rest, toRight := s.toRight ++ [b] }) ∨
    (s.leftOut = [] ∧ A.halted s.left = false ∧ ∃ b rest, s.toLeft = b :: rest ∧
      s' = { s with left := (A.react s.left b).1, leftOut := (A.react s.left b).2, toLeft := rest }) := by
  obtain ⟨l, lo, tr, r, ro, tl⟩ := s
  cases lo with
  | cons b rest =>
    constructor
    · intro hs
      exact .inl ⟨b, rest, rfl, (Option.some.inj hs).symm⟩
    · rintro (⟨c, rest', heq, rfl⟩ | ⟨hnil, _⟩)
      · obtain ⟨rfl, rfl⟩ := List.cons.inj heq
        rfl
      · cases hnil
  | nil =>
    cases tl with
    | nil => simp [stepLeft]
    | cons b rest =>
      constructor
      · intro hs
        obtain ⟨hh, hs⟩ := Option.ite_none_left_eq_some.mp hs
        exact .inr ⟨rfl, Bool.eq_false_iff.mpr hh, b, rest, rfl, (Option.some.inj hs).symm⟩
      · rintro (⟨c, rest', hnil, _⟩ | ⟨_, hh, c, rest', heq, rfl⟩)
        · cases hnil
        · obtain ⟨rfl, rfl⟩ := List.cons.inj heq
          exact if_neg (Bool.eq_false_iff.mp hh)

theorem stepRight_eq : s.step A B .right = some s' ↔
    (∃ b rest, s.rightOut = b :: rest ∧ s' = { s with rightOut := rest, toLeft := s.toLeft ++ [b] }) ∨
    (s.rightOut = [] ∧ B.halted s.right = false ∧ ∃ b rest, s.toRight = b :: rest ∧
      s' = { s with right := (B.react s.right b).1, rightOut := (B.react s.right b).2, toRight := rest }) := by
  have hswap : s.step A B .right = some s' ↔ s.swap.stepLeft B = some s'.swap := by
    simp only [step, Option.map_eq_some_iff]
    constructor
    · rintro ⟨u, hu, rfl⟩
      exact hu
    · intro hu
      exact ⟨_, hu, rfl⟩
  obtain ⟨l, lo, tr, r, ro, tl⟩ := s
  obtain ⟨l', lo', tr', r', ro', tl'⟩ := s'
  rw [hswap, stepLeft_eq]
  simp only [swap, Link.mk.injEq]
  constructor
  · rintro (⟨b, rest, ho, h1, h2, h3, h4, h5, h6⟩ | ⟨ho, hh, b, rest, hq, h1, h2, h3, h4, h5, h6⟩)
    · exact .inl ⟨b, rest, ho, h4, h5, h6, h1, h2, h3⟩
    · exact .inr ⟨ho, hh, b, rest, hq, h4, h5, h6, h1, h2, h3⟩
  · rintro (⟨b, rest, ho, h1, h2, h3, h4, h5, h6⟩ | ⟨ho, hh, b, rest, hq, h1, h2, h3, h4, h5, h6⟩)
    · exact .inl ⟨b, rest, ho, h4, h5, h6, h1, h2, h3⟩
    · exact .inr ⟨ho, hh, b, rest, hq, h4, h5, h6, h1, h2, h3⟩

/-- A step of either party is still possible after one of the other, and their order does not matter. -/
theorem diamond (hl : s.step A B .left = some s₁) (hr : s.step A B .right = some s₂) :
    ∃ t, s₁.step A B .right = some t ∧ s₂.step A B .left = some t := by
  have hl' : s.stepLeft A = some s₁ := hl
  rw [stepLeft_eq] at hl'
  rw [stepRight_eq] at hr
  obtain ⟨l, lo, tr, r, ro, tl⟩ := s
  rcases hl' with ⟨b, rest, rfl, rfl⟩ | ⟨rfl, hh, b, rest, rfl, rfl⟩ <;>
    rcases hr with ⟨c, rest', rfl, rfl⟩ | ⟨rfl, hh', c, rest', rfl, rfl⟩ <;>
    simp [step, stepLeft, swap, *]

theorem diamond_any (hxy : x ≠ y) (hx : s.step A B x = some s₁) (hy : s.step A B y = some s₂) :
    ∃ t, s₁.step A B y = some t ∧ s₂.step A B x = some t := by
  cases x with
  | left =>
    cases y with
    | left => exact absurd rfl hxy
    | right => exact diamond hx hy
  | right =>
    cases y with
    | left =>
      obtain ⟨t, h₁, h₂⟩ := diamond hy hx
      exact ⟨t, h₂, h₁⟩
    | right => exact absurd rfl hxy

end Link

/-! ## Every order of the steps comes to the same end -/

/-- `n` steps lead from one state to another. -/
inductive Steps (A : Party σ α) (B : Party τ α) : Nat → Link σ τ α → Link σ τ α → Prop
  | refl (s : Link σ τ α) : Steps A B 0 s s
  | head {n : Nat} {s s' t : Link σ τ α} {x : Side} : s.step A B x = some s' → Steps A B n s' t → Steps A B (n + 1) s t

/-- The two parties, from a given state on. -/
def duplex (A : Party σ α) (B : Party τ α) (s₀ : Link σ τ α) : System (Link σ τ α) Side where
  init s := s = s₀
  step s x := s.step A B x

/-- Every run comes to rest after at most so many steps, and then `P` holds. -/
def Settles (A : Party σ α) (B : Party τ α) (s₀ : Link σ τ α) (P : Link σ τ α → Prop) : Prop :=
  ∃ n, ∀ h s, (duplex A B s₀).Run h s → h.length ≤ n ∧ (s.Stuck A B → P s)

section steps

variable {A : Party σ α} {B : Party τ α} {s s' s₀ t u : Link σ τ α} {x : Side} {m n : Nat}
  {P : Link σ τ α → Prop} {h : History (Link σ τ α) Side}

theorem Steps.trans (h₁ : Steps A B m s t) (h₂ : Steps A B n t u) : Steps A B (m + n) s u := by
  induction h₁ with
  | refl s => rwa [Nat.zero_add]
  | head hs _ ih =>
    rw [Nat.add_right_comm]
    exact .head hs (ih h₂)

/-- The end of a schedule is reached after any first step, too, and in as many steps. -/
theorem Steps.after (hst : Steps A B n s t) (ht : t.Stuck A B) (hx : s.step A B x = some s') :
    ∃ m, n = m + 1 ∧ Steps A B m s' t := by
  induction hst generalizing s' with
  | refl s =>
    rw [ht x] at hx
    cases hx
  | @head n s v t y hy hvt ih =>
    by_cases hxy : x = y
    · subst hxy
      obtain rfl : v = s' := Option.some.inj (hy.symm.trans hx)
      exact ⟨n, rfl, hvt⟩
    · obtain ⟨w, hw, hw'⟩ := Link.diamond_any hxy hx hy
      obtain ⟨m, rfl, hwt⟩ := ih ht hw'
      exact ⟨m + 1, rfl, .head hw hwt⟩

theorem Steps.after_run (hst : Steps A B n s₀ t) (ht : t.Stuck A B) (hrun : (duplex A B s₀).Run h s) :
    ∃ m, n = m + h.length ∧ Steps A B m s t := by
  induction hrun with
  | init hs =>
    obtain rfl : _ = s₀ := hs
    exact ⟨n, rfl, hst⟩
  | step _ hx ih =>
    obtain ⟨m, hm, hmt⟩ := ih
    obtain ⟨k, rfl, hkt⟩ := hmt.after ht hx
    exact ⟨k, by rw [List.length_cons]; omega, hkt⟩

theorem Steps.run (hst : Steps A B n s t) (hrun : (duplex A B s₀).Run h s) : ∃ h', (duplex A B s₀).Run h' t := by
  induction hst generalizing h with
  | refl s => exact ⟨h, hrun⟩
  | head hs _ ih => exact ih (hrun.step hs)

/-- Where one schedule comes to rest, all do. -/
theorem settles_iff (hst : Steps A B n s₀ t) (ht : t.Stuck A B) : Settles A B s₀ P ↔ P t := by
  constructor
  · rintro ⟨k, hk⟩
    obtain ⟨h', hrun⟩ := hst.run (.init rfl)
    exact (hk h' t hrun).2 ht
  · intro hP
    refine ⟨n, fun h s hrun => ?_⟩
    obtain ⟨m, hm, hmt⟩ := hst.after_run ht hrun
    refine ⟨by omega, fun hstuck => ?_⟩
    cases hmt with
    | refl => exact hP
    | head hs _ =>
      rw [hstuck] at hs
      cases hs

end steps

/-! ## What a party takes at a stretch -/

/-- The party reads the first list of symbols and puts out the second one. -/
inductive Takes (A : Party σ α) : σ → List α → List α → σ → Prop
  | nil (l : σ) : Takes A l [] [] l
  | cons {l l' : σ} {b : α} {bs out : List α} : A.halted l = false → Takes A (A.react l b).1 bs out l' →
    Takes A l (b :: bs) ((A.react l b).2 ++ out) l'

section takes

variable {A : Party σ α} {B : Party τ α} {l l' l'' : σ} {r r' : τ} {b : α} {bs bs' out out' there back : List α}
  {s t u : Link σ τ α} {n : Nat}

/-- Both parties wait. -/
def Link.quiet (l : σ) (there : List α) (r : τ) (back : List α) : Link σ τ α := ⟨l, [], there, r, [], back⟩

/-- Some steps lead from one state to the other. -/
def Leads (A : Party σ α) (B : Party τ α) (s t : Link σ τ α) : Prop := ∃ n, Steps A B n s t

theorem Leads.refl (s : Link σ τ α) : Leads A B s s := ⟨0, .refl s⟩

theorem Leads.trans (h₁ : Leads A B s t) (h₂ : Leads A B t u) : Leads A B s u := by
  obtain ⟨_, h₁⟩ := h₁
  obtain ⟨_, h₂⟩ := h₂
  exact ⟨_, h₁.trans h₂⟩

theorem Takes.one (hh : A.halted l = false) : Takes A l [b] (A.react l b).2 (A.react l b).1 := by
  have htakes := Takes.cons hh (.nil (A.react l b).1)
  rwa [List.append_nil] at htakes

theorem Takes.append (h₁ : Takes A l bs out l') (h₂ : Takes A l' bs' out' l'') :
    Takes A l (bs ++ bs') (out ++ out') l'' := by
  induction h₁ with
  | nil => exact h₂
  | cons hh _ ih =>
    rw [List.append_assoc]
    exact .cons hh (ih h₂)

theorem flushLeft (out there back : List α) (l : σ) (r : τ) :
    Leads A B ⟨l, out, there, r, [], back⟩ (.quiet l (there ++ out) r back) := by
  induction out generalizing there with
  | nil =>
    rw [List.append_nil]
    exact .refl _
  | cons b out ih =>
    obtain ⟨n, hn⟩ := ih (there ++ [b])
    rw [List.append_assoc] at hn
    exact ⟨n + 1, .head (x := .left) rfl hn⟩

theorem flushRight (out there back : List α) (l : σ) (r : τ) :
    Leads A B ⟨l, [], there, r, out, back⟩ (.quiet l there r (back ++ out)) := by
  induction out generalizing back with
  | nil =>
    rw [List.append_nil]
    exact .refl _
  | cons b out ih =>
    obtain ⟨n, hn⟩ := ih (back ++ [b])
    rw [List.append_assoc] at hn
    exact ⟨n + 1, .head (x := .right) rfl hn⟩

theorem Takes.left (htakes : Takes A l bs out l') :
    Leads A B (.quiet l there r (bs ++ back)) (.quiet l' (there ++ out) r back) := by
  induction htakes generalizing there with
  | nil =>
    rw [List.append_nil]
    exact .refl _
  | @cons l l' b bs out hh _ ih =>
    have hread : (Link.quiet l there r (b :: bs ++ back)).step A B .left =
        some ⟨(A.react l b).1, (A.react l b).2, there, r, [], bs ++ back⟩ := by
      simp [Link.quiet, Link.step, Link.stepLeft, hh]
    rw [← List.append_assoc]
    exact .trans ⟨1, .head hread (.refl _)⟩ ((flushLeft ..).trans ih)

theorem Takes.right (htakes : Takes B r bs out r') :
    Leads A B (.quiet l (bs ++ there) r back) (.quiet l there r' (back ++ out)) := by
  induction htakes generalizing back with
  | nil =>
    rw [List.append_nil]
    exact .refl _
  | @cons r r' b bs out hh _ ih =>
    have hread : (Link.quiet l (b :: bs ++ there) r back).step A B .right =
        some ⟨l, [], bs ++ there, (B.react r b).1, (B.react r b).2, back⟩ := by
      simp [Link.quiet, Link.step, Link.swap, Link.stepLeft, hh]
    rw [← List.append_assoc]
    exact .trans ⟨1, .head hread (.refl _)⟩ ((flushRight ..).trans ih)

theorem Takes.answer (hr : Takes B r there back r') (hl : Takes A l back out l') :
    Leads A B (.quiet l there r []) (.quiet l' out r' []) := by
  have h₁ : Leads A B (.quiet l (there ++ []) r []) (.quiet l [] r' ([] ++ back)) := hr.right
  have h₂ : Leads A B (.quiet l [] r' (back ++ [])) (.quiet l' ([] ++ out) r' []) := hl.left
  rw [List.append_nil, List.nil_append] at h₁ h₂
  exact h₁.trans h₂

theorem stuck_quiet (hl : A.halted l = true ∨ back = []) (hr : B.halted r = true ∨ there = []) :
    (Link.quiet l there r back).Stuck A B := by
  rintro (_ | _)
  · rcases hl with hl | rfl
    · cases back <;> simp [Link.quiet, Link.step, Link.stepLeft, hl]
    · rfl
  · rcases hr with hr | rfl
    · cases there <;> simp [Link.quiet, Link.step, Link.swap, Link.stepLeft, hr]
    · rfl

/-- The state of a party after it has read what is on its way, as far as it reads it. -/
def drain (A : Party σ α) : σ → List α → σ
  | l, [] => l
  | l, b :: bs => if A.halted l then l else drain A (A.react l b).1 bs

theorem drain_halted (bs : List α) (hl : A.halted l = true) : drain A l bs = l := by
  cases bs with
  | nil => rfl
  | cons b bs => rw [drain, if_pos hl]

theorem drain_append (l : σ) (bs more : List α) : drain A l (bs ++ more) = drain A (drain A l bs) more := by
  induction bs generalizing l with
  | nil => rfl
  | cons b bs ih =>
    by_cases hl : A.halted l = true
    · rw [drain_halted _ hl, drain_halted _ hl, drain_halted _ hl]
    · rw [List.cons_append, drain, drain, if_neg hl, if_neg hl, ih]

theorem Takes.drain (htakes : Takes A l bs out l') (more : List α) : drain A l (bs ++ more) = drain A l' more := by
  induction htakes with
  | nil => rfl
  | cons hl _ ih => rw [List.cons_append, Duplex.drain, if_neg (Bool.eq_false_iff.mp hl), ih]

theorem Takes.drain_behind {before : List α} (htakes : Takes A (Duplex.drain A l before) bs out l') :
    Duplex.drain A l (before ++ bs) = l' := by
  have hdrain := htakes.drain []
  rwa [List.append_nil, ← drain_append] at hdrain

end takes

end Duplex
