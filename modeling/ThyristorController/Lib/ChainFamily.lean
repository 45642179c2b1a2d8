import ThyristorController.Lib.Chain

/-!
# Disjoint chains in one successor map

`Family next used chains` says that many singly linked lists share the cells of one memory, and no cell: every list is
linked by `next`, no cell occurs twice, and the cells of the lists are in use. `Family.change` is the rule for an
operation on one list, which may take free cells, and may do what it likes to cells that are in no list.
-/

namespace Chain

variable {α ι : Type*}

/-- The lists are linked by `next` and share no cell. -/
structure Family (next : α → Option α) (used : α → Prop) (chains : ι → List α) : Prop where
  linked : ∀ i, Linked next (chains i).head? (chains i)
  nodup : ∀ i, (chains i).Nodup
  used : ∀ i, ∀ c ∈ chains i, used c
  disjoint : ∀ i j, i ≠ j → List.Disjoint (chains i) (chains j)

variable {next next' : α → Option α} {used used' : α → Prop} {chains : ι → List α} {i : ι} {c d : α} {l r : List α}

theorem Linked.head_eq {p : Option α} (h : Linked next p l) : Linked next l.head? l := h.head ▸ h

theorem Linked.split {p : Option α} (h : Linked next p (l ++ c :: r)) : Linked next (next c) r := by
  induction l generalizing p with
  | nil => exact h.2
  | cons d l ih => exact ih h.2

theorem Linked.next_eq {p : Option α} (h : Linked next p (l ++ c :: r)) : next c = r.head? := h.split.head

theorem Linked.cut {p : Option α} (h : Linked next p (l ++ c :: r)) (hsame : ∀ d ∈ l, next' d = next d)
    (hc : next' c = none) : Linked next' p (l ++ [c]) := by
  induction l generalizing p with
  | nil => exact ⟨h.1, hc⟩
  | cons d l ih =>
    refine ⟨h.1, ?_⟩
    rw [hsame d (List.mem_cons_self ..)]
    exact ih h.2 fun e he => hsame e (List.mem_cons_of_mem _ he)

theorem Linked.extend {p : Option α} (h : Linked next p (l ++ [c])) (hsame : ∀ e ∈ l, next' e = next e)
    (hc : next' c = some d) (hd : next' d = none) : Linked next' p (l ++ [c] ++ [d]) := by
  induction l generalizing p with
  | nil =>
    refine ⟨h.1, ?_⟩
    rw [hc]
    exact ⟨rfl, hd⟩
  | cons e l ih =>
    refine ⟨h.1, ?_⟩
    rw [hsame e (List.mem_cons_self ..)]
    exact ih h.2 fun x hx => hsame x (List.mem_cons_of_mem _ hx)

theorem Family.congr (h : Family next used chains) (hnext : ∀ i, ∀ c ∈ chains i, next' c = next c)
    (hused : ∀ i, ∀ c ∈ chains i, used' c) : Family next' used' chains :=
  ⟨fun i => (h.linked i).congr (hnext i), h.nodup, hused, h.disjoint⟩

variable [DecidableEq ι]

theorem Family.change (h : Family next used chains) (hlinked : Linked next' l.head? l) (hnodup : l.Nodup)
    (hl : ∀ c ∈ l, used' c ∧ (c ∈ chains i ∨ ¬ used c))
    (hothers : ∀ j, j ≠ i → ∀ c ∈ chains j, next' c = next c ∧ used' c) :
    Family next' used' (Function.update chains i l) := by
  have hfresh (j : ι) (hj : j ≠ i) : List.Disjoint l (chains j) := fun c hc hcj => by
    rcases (hl c hc).2 with hci | hfree
    · exact h.disjoint j i hj hcj hci
    · exact hfree (h.used j c hcj)
  refine ⟨fun j => ?_, fun j => ?_, fun j c hc => ?_, fun j k hjk => ?_⟩
  · by_cases hj : j = i
    · subst hj
      rwa [Function.update_self]
    · rw [Function.update_of_ne hj]
      exact (h.linked j).congr fun c hc => (hothers j hj c hc).1
  · by_cases hj : j = i
    · subst hj
      rwa [Function.update_self]
    · rw [Function.update_of_ne hj]
      exact h.nodup j
  · by_cases hj : j = i
    · subst hj
      rw [Function.update_self] at hc
      exact (hl c hc).1
    · rw [Function.update_of_ne hj] at hc
      exact (hothers j hj c hc).2
  · by_cases hj : j = i
    · subst hj
      rw [Function.update_self, Function.update_of_ne (Ne.symm hjk)]
      exact hfresh k (Ne.symm hjk)
    · rw [Function.update_of_ne hj]
      by_cases hk : k = i
      · subst hk
        rw [Function.update_self]
        exact fun c hc hc' => hfresh j hj hc' hc
      · rw [Function.update_of_ne hk]
        exact h.disjoint j k hjk

end Chain
