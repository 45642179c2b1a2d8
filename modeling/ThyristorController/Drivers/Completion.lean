import Mathlib.Data.Fintype.Basic
import Mathlib.Data.List.Basic
import Mathlib.Logic.Function.Basic
import ThyristorController.Kernel.IpcThreads
import ThyristorController.Lib.Run

/-!
# Completions (`components/drivers/src/completion.c`)

One thread at a time calls `rt_completion_wait`; any number of threads and interrupts call `rt_completion_done`. A
critical section is one step, and so is every statement outside of them: the first test of `rt_completion_done`, and
`result = thread->error` behind `rt_schedule`.

A thread whose timer has expired clears the flag when it runs again, whatever has happened since. `completions_kept`
says that no completion is lost, and none is invented, when a thread that has timed out finds the flag clear;
`proper_of_apart` says that it does if no `rt_completion_done` comes in between.
-/

namespace ThyristorController.Completions

open Transition

/-! ## The functions -/

/-- Where the thread is in `rt_completion_wait`: in none, behind `rt_schedule`, or before the flag is cleared. -/
inductive WaitPc (τ : Type) where
  | out
  | schedule (t : τ)
  | clear (t : τ) (result : Int)
  deriving DecidableEq

/-- `struct rt_completion`, and fields of the threads. A thread in `suspendedList` is suspended; `done c` is whether the
caller `c` is behind the test of `rt_completion_done`. -/
structure Completion (τ δ : Type) where
  flag : Bool
  suspendedList : List τ
  error : τ → Int
  timer : τ → Bool
  pc : WaitPc τ
  done : δ → Bool

variable {τ δ : Type} [DecidableEq τ] [DecidableEq δ]

namespace Completion

/-- `rt_completion_wait`, up to `rt_schedule` or to the end. -/
def wait (s : Completion τ δ) (t : τ) (timeout : Int) : Completion τ δ :=
  if s.flag = false then
    if timeout = 0 then s
    else
      { s with
        error := Function.update s.error t rtEok
        suspendedList := s.suspendedList ++ [t]
        timer := Function.update s.timer t (0 < timeout)
        pc := .schedule t }
  else { s with flag := false }

/-- `rt_thread_resume`. -/
def resume (s : Completion τ δ) (t : τ) : Completion τ δ :=
  { s with suspendedList := s.suspendedList.erase t, timer := Function.update s.timer t false }

/-- `rt_thread_timeout`. -/
def timeout (s : Completion τ δ) (t : τ) : Completion τ δ :=
  { s.resume t with error := Function.update s.error t rtEtimeout }

/-- The thread in `rt_completion_wait` runs again. -/
def goOn (s : Completion τ δ) : Option (Completion τ δ) :=
  match s.pc with
  | .out => none
  | .schedule t => if t ∈ s.suspendedList then none else some { s with pc := .clear t (s.error t) }
  | .clear _ _ => some { s with flag := false, pc := .out }

/-- The critical section of `rt_completion_done`. -/
def complete (s : Completion τ δ) (c : δ) : Completion τ δ :=
  let s := { s with flag := true, done := Function.update s.done c false }
  match s.suspendedList with
  | t :: _ => s.resume t
  | [] => s

end Completion

inductive CompletionAction (τ δ : Type) where
  | wait (t : τ) (timeout : Int)
  | timeout (t : τ)
  | goOn
  | done (c : δ)
  | complete (c : δ)
  deriving DecidableEq

/-- A thread begins to wait when no other one waits; the assertion that the list is empty is tested. -/
def completionStep (s : Completion τ δ) : CompletionAction τ δ → Option (Completion τ δ)
  | .wait t timeout =>
    if s.pc = .out then if s.flag = false ∧ s.suspendedList ≠ [] then none else some (s.wait t timeout) else none
  | .timeout t => if s.timer t then some (s.timeout t) else none
  | .goOn => s.goOn
  | .done c =>
    if s.done c then none else some (if s.flag then s else { s with done := Function.update s.done c true })
  | .complete c => if s.done c then some (s.complete c) else none

/-- Behind `rt_completion_init`. -/
def completions (τ δ : Type) [DecidableEq τ] [DecidableEq δ] : System (Completion τ δ) (CompletionAction τ δ) where
  init s := s.flag = false ∧ s.suspendedList = [] ∧ (∀ t, s.timer t = false) ∧ s.pc = .out ∧ ∀ c, s.done c = false
  step := completionStep

/-! ## Completions of a run -/

/-- The thread at `pc` returns `RT_EOK`. -/
def WaitPc.succeeds : WaitPc τ → Bool
  | .clear _ result => result = rtEok
  | _ => false

/-- The thread at `pc` returns something else. -/
def WaitPc.fails : WaitPc τ → Bool
  | .clear _ result => result ≠ rtEok
  | _ => false

/-- The step returns `RT_EOK` from `rt_completion_wait`. -/
def Consumes (s : Completion τ δ) : CompletionAction τ δ → Prop
  | .wait _ _ => s.flag = true
  | .goOn => s.pc.succeeds = true
  | _ => False

/-- The step returns an error from `rt_completion_wait`. -/
def TimesOut (s : Completion τ δ) : CompletionAction τ δ → Prop
  | .wait _ timeout => s.flag = false ∧ timeout = 0
  | .goOn => s.pc.fails = true
  | _ => False

/-- The step is the critical section of an `rt_completion_done`. -/
def Completes (_ : Completion τ δ) : CompletionAction τ δ → Prop
  | .complete _ => True
  | _ => False

/-- Of a call of `rt_completion_done` that began in the state `s₀`: it has returned in the steps `h` since. -/
def Returned (s₀ : Completion τ δ) (c : δ) (h : History (Completion τ δ) (CompletionAction τ δ)) : Prop :=
  s₀.flag = true ∨ .complete c ∈ h.map Prod.snd

/-- For every call of `rt_completion_done` that has returned, the flag is set or a wait has succeeded since the call
began. -/
def Answered (h : History (Completion τ δ) (CompletionAction τ δ)) (s : Completion τ δ) : Prop :=
  ∀ k < h.length, ∀ e ∈ h[k]?, ∀ c, e.2 = .done c → Returned e.1 c (h.take k) →
    s.flag = true ∨ ∃ e' ∈ h.take k, Consumes e'.1 e'.2

/-- A wait that has timed out finds the flag clear when it clears it. -/
def Proper (s : Completion τ δ) : CompletionAction τ δ → Prop
  | .goOn => s.pc.fails = true → s.flag = false
  | _ => True

section steps

variable {s s' : Completion τ δ} {t : τ} {c : δ} {a : CompletionAction τ δ} {time : Int}
  {h : History (Completion τ δ) (CompletionAction τ δ)}

/-! ### No completion is lost -/

omit [DecidableEq δ] in
@[simp] theorem resume_flag : (s.resume t).flag = s.flag := rfl

theorem complete_flag : (s.complete c).flag = true := by
  unfold Completion.complete
  dsimp only
  cases s.suspendedList with
  | nil => rfl
  | cons t l => rfl

theorem flag_stays (hP : Proper s a) (hs : completionStep s a = some s') (hflag : s.flag = true) :
    s'.flag = true ∨ Consumes s a := by
  cases a with
  | wait t time => exact .inr hflag
  | timeout t =>
    obtain ⟨-, hs⟩ := Option.ite_none_right_eq_some.mp hs
    obtain rfl := Option.some.inj hs
    exact .inl hflag
  | goOn =>
    have hs' : s.goOn = some s' := hs
    unfold Completion.goOn at hs'
    cases hpc : s.pc with
    | out =>
      rw [hpc] at hs'
      contradiction
    | schedule t =>
      rw [hpc] at hs'
      obtain ⟨-, hs'⟩ := Option.ite_none_left_eq_some.mp hs'
      obtain rfl := Option.some.inj hs'
      exact .inl hflag
    | clear t result =>
      right
      by_cases hresult : result = rtEok
      · show s.pc.succeeds = true
        rw [hpc]
        exact decide_eq_true hresult
      · have hclear : s.flag = false := by
          refine hP ?_
          rw [hpc]
          exact decide_eq_true hresult
        rw [hflag] at hclear
        contradiction
  | done c =>
    obtain ⟨-, hs⟩ := Option.ite_none_left_eq_some.mp hs
    obtain rfl := Option.some.inj hs
    rw [if_pos hflag]
    exact .inl hflag
  | complete c =>
    obtain ⟨-, hs⟩ := Option.ite_none_right_eq_some.mp hs
    obtain rfl := Option.some.inj hs
    exact .inl complete_flag

theorem step_answered (ha : Answered h s) (hP : Proper s a) (hs : completionStep s a = some s') :
    Answered ((s, a) :: h) s' := by
  intro k hk e he c hc hreturned
  cases k with
  | zero =>
    -- The call begins with this step, and returns if it finds the flag set.
    obtain rfl := Option.some.inj he
    dsimp only at hc
    subst hc
    have hflag : s.flag = true := hreturned.resolve_right fun hmem => by contradiction
    rcases flag_stays hP hs hflag with hset | hconsumes
    · exact .inl hset
    · exact hconsumes.elim
  | succ k =>
    rw [List.getElem?_cons_succ] at he
    rw [List.take_succ_cons] at hreturned ⊢
    by_cases hcomplete : a = .complete c
    · left
      subst hcomplete
      obtain ⟨-, hs⟩ := Option.ite_none_right_eq_some.mp hs
      obtain rfl := Option.some.inj hs
      exact complete_flag
    · have hbefore : Returned e.1 c (h.take k) := by
        refine hreturned.imp_right fun hmem => ?_
        rw [List.map_cons] at hmem
        exact (List.mem_cons.mp hmem).resolve_left fun hn => hcomplete hn.symm
      rcases ha k (Nat.lt_of_succ_lt_succ hk) e he c hc hbefore with hflag | ⟨e', he', hconsumes⟩
      · exact (flag_stays hP hs hflag).imp_right fun hconsumes => ⟨(s, a), List.mem_cons_self, hconsumes⟩
      · exact .inr ⟨e', List.mem_cons_of_mem _ he', hconsumes⟩

/-! ### No completion is invented -/

/-- A set flag, or a waiting thread without an error that is not suspended, stands for a completion that no wait has
consumed. -/
structure Ok (h : History (Completion τ δ) (CompletionAction τ δ)) (s : Completion τ δ) : Prop where
  flag : s.flag = true → Since Completes Consumes h
  listed : ∀ t ∈ s.suspendedList, s.pc = .schedule t ∧ s.suspendedList = [t] ∧ s.error t = rtEok
  timer : ∀ t, s.timer t = true → t ∈ s.suspendedList
  resumed : ∀ t, s.pc = .schedule t → t ∉ s.suspendedList → s.error t = rtEok → Since Completes Consumes h
  clear : s.pc.succeeds = true → Since Completes Consumes h

omit [DecidableEq τ] [DecidableEq δ] in
theorem since_keep (hnot : ¬ Consumes s a) (hsince : Since Completes Consumes h) :
    Since Completes Consumes ((s, a) :: h) :=
  .inr ⟨hnot, hsince⟩

omit [DecidableEq τ] [DecidableEq δ] in
/-- A step that is neither a completion nor a wait that succeeds, and changes no variable of `rt_completion_wait`. -/
theorem Ok.keep (hok : Ok h s) (hnot : ¬ Consumes s a) (hflag : s'.flag = s.flag)
    (hlist : s'.suspendedList = s.suspendedList) (herror : s'.error = s.error) (htimer : s'.timer = s.timer)
    (hpc : s'.pc = s.pc) : Ok ((s, a) :: h) s' := by
  constructor
  · rw [hflag]
    exact fun hf => since_keep hnot (hok.flag hf)
  · rw [hlist, hpc, herror]
    exact hok.listed
  · rw [hlist, htimer]
    exact hok.timer
  · rw [hlist, hpc, herror]
    exact fun t hp hl he => since_keep hnot (hok.resumed t hp hl he)
  · rw [hpc]
    exact fun hp => since_keep hnot (hok.clear hp)

omit [DecidableEq τ] [DecidableEq δ] in
theorem Ok.list_empty (hok : Ok h s) (hpc : ∀ t, s.pc ≠ .schedule t) : s.suspendedList = [] := by
  rw [List.eq_nil_iff_forall_not_mem]
  intro t ht
  exact hpc t (hok.listed t ht).1

omit [DecidableEq δ] in
theorem Ok.wait (hok : Ok h s) (hout : s.pc = .out) : Ok ((s, .wait t time) :: h) (s.wait t time) := by
  have hnil : s.suspendedList = [] := hok.list_empty fun t hp => by
    rw [hout] at hp
    contradiction
  have htimer : ∀ u, s.timer u = false := by
    intro u
    cases htu : s.timer u with
    | false => rfl
    | true =>
      have hmem := hok.timer u htu
      rw [hnil] at hmem
      contradiction
  unfold Completion.wait
  by_cases hflag : s.flag = false
  · have hnot : ¬ Consumes s (.wait t time : CompletionAction τ δ) := by
      intro hc
      have hset : s.flag = true := hc
      rw [hflag] at hset
      contradiction
    rw [if_pos hflag]
    by_cases hzero : time = 0
    · rw [if_pos hzero]
      exact hok.keep hnot rfl rfl rfl rfl rfl
    · rw [if_neg hzero, hnil]
      refine ⟨fun hf => ?_, fun u hu => ?_, fun u hu => ?_, fun u hp hl => ?_, fun hp => by contradiction⟩
      · have hf' : s.flag = true := hf
        rw [hflag] at hf'
        contradiction
      · obtain rfl : u = t := List.mem_singleton.mp hu
        exact ⟨rfl, rfl, Function.update_self _ _ _⟩
      · refine List.mem_singleton.mpr ?_
        by_contra hne
        have hu' : Function.update s.timer t (decide (0 < time)) u = true := hu
        rw [Function.update_of_ne hne, htimer] at hu'
        contradiction
      · obtain rfl := WaitPc.schedule.inj hp
        exact absurd (List.mem_singleton.mpr rfl) hl
  · rw [if_neg hflag]
    refine ⟨fun hf => by contradiction, hok.listed, hok.timer, fun u hp => ?_, fun hp => ?_⟩
    · have hp' : s.pc = .schedule u := hp
      rw [hout] at hp'
      contradiction
    · have hp' : s.pc.succeeds = true := hp
      rw [hout] at hp'
      contradiction

omit [DecidableEq δ] in
theorem Ok.stopped (hok : Ok h s) (hlist : s.suspendedList = [t]) : Function.update s.timer t false u = false := by
  by_cases hut : u = t
  · rw [hut, Function.update_self]
  · rw [Function.update_of_ne hut, Bool.eq_false_iff]
    intro hu
    have hmem := hok.timer u hu
    rw [hlist] at hmem
    exact hut (List.mem_singleton.mp hmem)

omit [DecidableEq δ] in
theorem Ok.timeout (hok : Ok h s) (ht : s.timer t = true) : Ok ((s, .timeout t) :: h) (s.timeout t) := by
  have hmem := hok.timer t ht
  obtain ⟨hpc, hlist, -⟩ := hok.listed t hmem
  have hnil : (s.timeout t).suspendedList = [] := by
    show s.suspendedList.erase t = []
    rw [hlist]
    exact List.erase_cons_head t []
  have hnot : ¬ Consumes s (.timeout t : CompletionAction τ δ) := id
  refine ⟨fun hf => since_keep hnot (hok.flag hf), fun u hu => ?_, fun u hu => ?_, fun u hp _ he => ?_, fun hp => ?_⟩
  · rw [hnil] at hu
    contradiction
  · exact absurd hu (Bool.eq_false_iff.mp (hok.stopped hlist))
  · exfalso
    have hp' : s.pc = .schedule u := hp
    rw [hpc] at hp'
    obtain rfl := WaitPc.schedule.inj hp'
    have he' : Function.update s.error t rtEtimeout t = rtEok := he
    rw [Function.update_self] at he'
    contradiction
  · have hp' : s.pc.succeeds = true := hp
    rw [hpc] at hp'
    contradiction

omit [DecidableEq δ] in
theorem Ok.goOn (hok : Ok h s) (hs : s.goOn = some s') : Ok ((s, .goOn) :: h) s' := by
  unfold Completion.goOn at hs
  cases hpc : s.pc with
  | out =>
    rw [hpc] at hs
    contradiction
  | schedule t =>
    rw [hpc] at hs
    obtain ⟨hmem, hs⟩ := Option.ite_none_left_eq_some.mp hs
    obtain rfl := Option.some.inj hs
    have hnot : ¬ Consumes s (.goOn : CompletionAction τ δ) := by
      intro hc
      have hc' : s.pc.succeeds = true := hc
      rw [hpc] at hc'
      contradiction
    refine ⟨fun hf => since_keep hnot (hok.flag hf), fun u hu => ?_, hok.timer, fun u hp => by contradiction,
      fun hp => ?_⟩
    · obtain ⟨hp, -⟩ := hok.listed u hu
      rw [hpc] at hp
      obtain rfl := WaitPc.schedule.inj hp
      exact absurd hu hmem
    · exact since_keep hnot (hok.resumed t hpc hmem (of_decide_eq_true hp))
  | clear t result =>
    rw [hpc] at hs
    obtain rfl := Option.some.inj hs
    refine ⟨fun hf => by contradiction, fun u hu => ?_, hok.timer, fun u hp => by contradiction,
      fun hp => by contradiction⟩
    obtain ⟨hp, -⟩ := hok.listed u hu
    rw [hpc] at hp
    contradiction

theorem Ok.complete (hok : Ok h s) : Ok ((s, .complete c) :: h) (s.complete c) := by
  have hsince : Since Completes Consumes ((s, CompletionAction.complete c) :: h) := .inl trivial
  unfold Completion.complete
  dsimp only
  cases hlist : s.suspendedList with
  | nil =>
    refine ⟨fun _ => hsince, fun u hu => by contradiction, fun u hu => ?_, fun _ _ _ _ => hsince, fun _ => hsince⟩
    have hmem := hok.timer u hu
    rw [hlist] at hmem
    contradiction
  | cons t l =>
    obtain ⟨hpc, hone, -⟩ := hok.listed t (by rw [hlist]; exact List.mem_cons_self)
    have hnil : (t :: l).erase t = [] := by
      rw [← hlist, hone]
      exact List.erase_cons_head t []
    refine ⟨fun _ => hsince, fun u hu => ?_, fun u hu => ?_, fun _ _ _ _ => hsince, fun _ => hsince⟩
    · have hu' : u ∈ (t :: l).erase t := hu
      rw [hnil] at hu'
      contradiction
    · exact absurd hu (Bool.eq_false_iff.mp (hok.stopped hone))

theorem step_ok (hok : Ok h s) (hs : completionStep s a = some s') : Ok ((s, a) :: h) s' := by
  cases a with
  | wait t time =>
    obtain ⟨hout, hs⟩ := Option.ite_none_right_eq_some.mp hs
    obtain ⟨-, hs⟩ := Option.ite_none_left_eq_some.mp hs
    obtain rfl := Option.some.inj hs
    exact hok.wait hout
  | timeout t =>
    obtain ⟨ht, hs⟩ := Option.ite_none_right_eq_some.mp hs
    obtain rfl := Option.some.inj hs
    exact hok.timeout ht
  | goOn => exact hok.goOn hs
  | done c =>
    obtain ⟨-, hs⟩ := Option.ite_none_left_eq_some.mp hs
    obtain rfl := Option.some.inj hs
    by_cases hflag : s.flag = true
    · rw [if_pos hflag]
      exact hok.keep id rfl rfl rfl rfl rfl
    · rw [if_neg hflag]
      exact hok.keep id rfl rfl rfl rfl rfl
  | complete c =>
    obtain ⟨-, hs⟩ := Option.ite_none_right_eq_some.mp hs
    obtain rfl := Option.some.inj hs
    exact hok.complete

theorem ok_run (hrun : (completions τ δ).Run h s) : Ok h s := by
  refine hrun.always (I := fun h s => Ok h s) ?_ fun _ _ _ _ _ hok hs => step_ok hok hs
  rintro s ⟨hflag, hlist, htimer, hpc, -⟩
  refine ⟨fun hf => ?_, fun t ht => ?_, fun t ht => ?_, fun t hp => ?_, fun hp => ?_⟩
  · rw [hflag] at hf
    contradiction
  · rw [hlist] at ht
    contradiction
  · rw [htimer t] at ht
    contradiction
  · rw [hpc] at hp
    contradiction
  · rw [hpc] at hp
    contradiction

omit [DecidableEq τ] [DecidableEq δ] in
theorem Ok.since (hok : Ok h s) (hc : Consumes s a) : Since Completes Consumes h := by
  cases a with
  | wait t time => exact hok.flag hc
  | goOn => exact hok.clear hc
  | _ => exact False.elim hc

theorem times_out_flag (hP : Proper s a) (hs : completionStep s a = some s') (ht : TimesOut s a) :
    s'.flag = s.flag := by
  cases a with
  | wait t time =>
    obtain ⟨-, hs⟩ := Option.ite_none_right_eq_some.mp hs
    obtain ⟨-, hs⟩ := Option.ite_none_left_eq_some.mp hs
    obtain rfl := Option.some.inj hs
    rw [Completion.wait, if_pos ht.1, if_pos ht.2]
  | goOn =>
    have hfails : s.pc.fails = true := ht
    have hs' : s.goOn = some s' := hs
    unfold Completion.goOn at hs'
    cases hpc : s.pc with
    | clear t result =>
      rw [hpc] at hs'
      obtain rfl := Option.some.inj hs'
      exact (hP hfails).symm
    | _ =>
      rw [hpc] at hfails
      contradiction
  | _ => exact False.elim ht

/-! ### A condition on the schedule -/

/-- The thread in `rt_completion_wait` has timed out, and has not cleared the flag. -/
def Expired (s : Completion τ δ) : Prop :=
  match s.pc with
  | .out => False
  | .schedule t => t ∉ s.suspendedList ∧ s.error t ≠ rtEok
  | .clear _ result => result ≠ rtEok

/-- No critical section of `rt_completion_done` comes between the end of the time of a wait and the end of the wait. -/
def Apart (s : Completion τ δ) (a : CompletionAction τ δ) : Prop := Completes s a → ¬ Expired s

/-- While the flag is set, no thread is suspended, and none has timed out. -/
def Fresh (s : Completion τ δ) : Prop := s.flag = true → s.suspendedList = [] ∧ ¬ Expired s

omit [DecidableEq τ] [DecidableEq δ] in
theorem Fresh.keep (hf : Fresh s) (hflag : s'.flag = s.flag) (hlist : s'.suspendedList = s.suspendedList)
    (herror : s'.error = s.error) (hpc : s'.pc = s.pc) : Fresh s' := by
  unfold Fresh Expired
  rw [hflag, hlist, herror, hpc]
  exact hf

theorem step_fresh (hok : Ok h s) (hf : Fresh s) (hA : Apart s a) (hs : completionStep s a = some s') : Fresh s' := by
  cases a with
  | wait t time =>
    obtain ⟨hout, hs⟩ := Option.ite_none_right_eq_some.mp hs
    obtain ⟨-, hs⟩ := Option.ite_none_left_eq_some.mp hs
    obtain rfl := Option.some.inj hs
    unfold Completion.wait
    split_ifs with hflag
    · exact hf
    · intro hset
      exact absurd (hset.symm.trans hflag) (by decide)
    · intro hset
      contradiction
  | timeout t =>
    obtain ⟨ht, hs⟩ := Option.ite_none_right_eq_some.mp hs
    obtain rfl := Option.some.inj hs
    intro hset
    have hmem := hok.timer t ht
    rw [(hf hset).1] at hmem
    contradiction
  | goOn =>
    have hs' : s.goOn = some s' := hs
    unfold Completion.goOn at hs'
    cases hpc : s.pc with
    | out =>
      rw [hpc] at hs'
      contradiction
    | schedule t =>
      rw [hpc] at hs'
      obtain ⟨hmem, hs'⟩ := Option.ite_none_left_eq_some.mp hs'
      obtain rfl := Option.some.inj hs'
      intro hset
      obtain ⟨hnil, hnot⟩ := hf hset
      refine ⟨hnil, fun herror => hnot ?_⟩
      unfold Expired
      rw [hpc]
      exact ⟨hmem, herror⟩
    | clear t result =>
      rw [hpc] at hs'
      obtain rfl := Option.some.inj hs'
      intro hset
      contradiction
  | done c =>
    obtain ⟨-, hs⟩ := Option.ite_none_left_eq_some.mp hs
    obtain rfl := Option.some.inj hs
    split_ifs
    · exact hf
    · exact hf.keep rfl rfl rfl rfl
  | complete c =>
    obtain ⟨-, hs⟩ := Option.ite_none_right_eq_some.mp hs
    obtain rfl := Option.some.inj hs
    have hnot : ¬ Expired s := hA trivial
    intro _
    unfold Completion.complete
    dsimp only
    cases hlist : s.suspendedList with
    | nil =>
      refine ⟨rfl, fun hexpired => hnot ?_⟩
      unfold Expired at hexpired ⊢
      rw [hlist]
      exact hexpired
    | cons t l =>
      -- the thread is woken up by this completion, and its error is the one it began with
      obtain ⟨hpc, hone, herror⟩ := hok.listed t (by rw [hlist]; exact List.mem_cons_self)
      refine ⟨?_, fun hexpired => ?_⟩
      · show (t :: l).erase t = []
        rw [← hlist, hone]
        exact List.erase_cons_head t []
      · unfold Expired at hexpired
        dsimp only [Completion.resume] at hexpired
        rw [hpc] at hexpired
        exact hexpired.2 herror

/-- A schedule in which no completion comes between the end of the time of a wait and the end of the wait: a wait that
has timed out finds the flag clear. -/
theorem proper_of_apart (hrun : (completions τ δ).Run h s) (hA : Throughout (fun _ s a => Apart s a) h) :
    Throughout (fun _ s a => Proper s a) h := by
  have hfresh : ∀ h s, (completions τ δ).Run h s → Throughout (fun _ s a => Apart s a) h → Fresh s := by
    intro h s hr hall
    refine hr.invariant (I := fun _ s => Fresh s) ?_ (fun _ _ _ _ hr hf hA hs => step_fresh (ok_run hr) hf hA hs) hall
    rintro s ⟨hflag, -⟩ hset
    exact absurd (hset.symm.trans hflag) (by decide)
  refine hrun.throughout hfresh (fun h s a s' _ hf _ _ => ?_) hA
  cases a with
  | goOn =>
    intro hfails
    by_contra hset
    refine (hf (Bool.eq_true_of_not_eq_false hset)).2 ?_
    unfold Expired
    cases hpc : s.pc with
    | clear t result =>
      rw [hpc] at hfails
      exact of_decide_eq_true hfails
    | _ =>
      rw [hpc] at hfails
      contradiction
  | _ => trivial

/-! ### Runs -/

omit [DecidableEq τ] [DecidableEq δ] in
instance (s : Completion τ δ) (a : CompletionAction τ δ) : Decidable (Consumes s a) := by
  cases a
  all_goals
    unfold Consumes
    infer_instance

omit [DecidableEq τ] [DecidableEq δ] in
instance (s : Completion τ δ) (a : CompletionAction τ δ) : Decidable (Proper s a) := by
  cases a
  all_goals
    unfold Proper
    infer_instance

instance (s : Completion τ δ) (c : δ) (h : History (Completion τ δ) (CompletionAction τ δ)) :
    Decidable (Returned s c h) := by
  unfold Returned
  infer_instance

instance [Fintype δ] (h : History (Completion τ δ) (CompletionAction τ δ)) (s : Completion τ δ) :
    Decidable (Answered h s) := by
  unfold Answered
  infer_instance

/-- A completion on which no thread waits. -/
def completionInit : Completion (Fin 2) (Fin 2) :=
  ⟨false, [], fun _ => rtEok, fun _ => false, .out, fun _ => false⟩

theorem init_completionInit : (completions (Fin 2) (Fin 2)).init completionInit :=
  ⟨rfl, rfl, fun _ => rfl, rfl, fun _ => rfl⟩

/-- A thread has timed out and reads its error, and `rt_completion_done` is called before it clears the flag: the next
wait times out. -/
theorem timeout_clears_completion : ∃ h s, (completions (Fin 2) (Fin 2)).Run h s ∧ ¬ Answered h s :=
  System.exists_run init_completionInit [.wait 0 5, .timeout 0, .goOn, .done 0, .complete 0, .goOn] _
    (by decide +kernel)

/-- In every run in which a wait that has timed out finds the flag clear: behind every call of `rt_completion_done` the
flag is set until a wait succeeds, a wait succeeds only if there was a completion since the last one that did, and a
wait that times out leaves the flag as it is. -/
theorem completions_kept (hrun : (completions τ δ).Run h s) (hP : Throughout (fun _ s a => Proper s a) h) :
    Answered h s ∧ Throughout (fun h s a => Consumes s a → Since Completes Consumes h) h ∧
      Throughout (fun _ s a => TimesOut s a → ∀ s', completionStep s a = some s' → s'.flag = s.flag) h := by
  refine ⟨?_, ?_, hP.mono fun _ s a hP ht s' hs => times_out_flag hP hs ht⟩
  · refine hrun.invariant (I := fun h s => Answered h s) ?_ (fun _ _ _ _ _ ha hP hs => step_answered ha hP hs) hP
    intro s _ k hk
    exact absurd hk (Nat.not_lt_zero k)
  · exact hrun.throughout_always (fun _ _ hr => ok_run hr) fun _ _ _ _ _ hok _ hc => hok.since hc

/-- A thread waits twice: it times out, and is woken up by a completion. -/
theorem completions_kept_run : ∃ h s, (completions (Fin 2) (Fin 2)).Run h s ∧ (∃ e ∈ h, Consumes e.1 e.2) ∧
    Answered h s := by
  obtain ⟨h, s, hrun, hP, hc⟩ := System.exists_run init_completionInit
    [.wait 0 5, .timeout 0, .goOn, .goOn, .wait 0 (-1), .done 1, .done 0, .complete 1, .goOn, .goOn, .complete 0]
    (fun h s => Throughout (fun _ s a => Proper s a) h ∧ ∃ e ∈ h, Consumes e.1 e.2) (by decide +kernel)
  exact ⟨h, s, hrun, hc, (completions_kept hrun hP).1⟩

end steps

end ThyristorController.Completions
