import ThyristorController.Dfs.Poll
import ThyristorController.Lib.WordSet

/-!
# Waiting for sets of descriptors (`components/dfs/src/select.c`)

`select` merges its three sets into one list for `poll`, and splits the answers again. `poll` reports POLLERR and
POLLHUP of every descriptor of the list, and `select` does not ask again in which of the sets a descriptor was; and it
clears only the words of a set that hold a descriptor below `nfds`. `select_asked` says when the sets are right.
-/

namespace ThyristorController.Selects

open Transition Polls

/-! ## The sets -/

/-- `fd_set`, with words of 32 bits. -/
abbrev FdSet := WordSets.Words 32

/-- Which of the three sets. -/
inductive FdKind where
  | read | write | except
  deriving DecidableEq

/-- The three sets, each of which may be absent. -/
abbrev FdSets := FdKind → Option FdSet

/-- `set && FD_ISSET(fd, set)`. -/
def fdIsset (fd : Nat) (set : Option FdSet) : Bool := set.any fun s => WordSets.mem s fd

/-- `fdszero`: for `n` = 0, 32, … below `nfds`, a word is cleared. -/
def fdszero (set : FdSet) (nfds : Int) : FdSet := WordSets.clear set ((nfds.toNat + 31) / 32)

/-! ## The list for `poll` -/

/-- A monitor operation is requested on this descriptor. -/
def requested (sets : FdSets) (fd : Nat) : Bool :=
  fdIsset fd (sets .read) || fdIsset fd (sets .write) || fdIsset fd (sets .except)

/-- What is filled in for a descriptor. -/
def pollfd (sets : FdSets) (fd : Nat) : Pollfd where
  fd := fd
  events := (if fdIsset fd (sets .read) then pollin else 0) ||| if fdIsset fd (sets .write) then pollout else 0

def pollset (nfds : Int) (sets : FdSets) : List Pollfd :=
  ((List.range nfds.toNat).filter (requested sets)).map (pollfd sets)

/-- The timeout of `poll`; the argument has seconds and microseconds. -/
def msec (timeout : Option (Int × Int)) : Int :=
  match timeout with
  | some (sec, usec) => sec * 1000 + usec.tdiv 1000
  | none => -1

/-! ## The sets that are returned -/

/-- The conditions that a set reports. POLLHUP is included as a read condition. -/
def FdKind.reports : FdKind → UInt32
  | .read => pollin ||| pollhup
  | .write => pollout
  | .except => pollerr

/-- A descriptor is entered in one of the sets, and counted. -/
def FdKind.report (k : FdKind) (fd : Nat) (revents : UInt32) (r : FdSets × Int) : FdSets × Int :=
  match r.1 k with
  | none => r
  | some set =>
    if revents &&& k.reports ≠ 0 then (Function.update r.1 k (some (WordSets.insert set fd)), r.2 + 1) else r

/-- The loop over the list. -/
def collect (revents : Nat → UInt32) : List Pollfd → Nat → FdSets × Int → FdSets × Int
  | [], _, r => r
  | p :: rest, ndx, r =>
    let r := FdKind.read.report p.fd.toNat (revents ndx) r
    let r := FdKind.write.report p.fd.toNat (revents ndx) r
    let r := FdKind.except.report p.fd.toNat (revents ndx) r
    collect revents rest (ndx + 1) r

/-- `select`, with the sets behind the call and the result; `calloc` is whether there is memory for the list, `ret` the
result of `poll` and `revents` what it has filled in. -/
def select (nfds : Int) (sets : FdSets) (calloc : Bool) (ret : Int) (revents : Nat → UInt32) : FdSets × Int :=
  if pollset nfds sets ≠ [] ∧ !calloc then (sets, -1)
  else
    let sets' := fun k => (sets k).map (fdszero · nfds)
    if 0 < ret then collect revents (pollset nfds sets) 0 (sets', 0) else (sets', ret)

/-! ## What is asked for -/

variable {τ κ : Type} [DecidableEq τ] [DecidableEq κ]

/-- The last answer for a descriptor in a call of `poll`. -/
def answerTo (fds : List Pollfd) (fd : Nat) : History (PollState τ κ) (PollAction τ κ) → Answer
  | [] => .closed
  | (s, a) :: h =>
    match s.pc, a with
    | .scan n _ _, .answer x => if (fds[n]?).any fun p => p.fd = (fd : Int) then x else answerTo fds fd h
    | _, _ => answerTo fds fd h

/-- What `poll` of a driver returns, or what `do_pollfd` takes in its place. -/
def answerMask : Answer → UInt32
  | .closed => pollnval
  | .noPoll => pollmaskDefault
  | .poll mask => UInt32.ofNat mask.toNat

/-- The answer has one of the conditions. -/
def has (a : Answer) (conditions : UInt32) : Prop := answerMask a &&& conditions ≠ 0

instance (a : Answer) (conditions : UInt32) : Decidable (has a conditions) :=
  inferInstanceAs (Decidable (_ ≠ _))

/-- How many descriptors below `nfds` a set has. -/
def bits (nfds : Int) (set : Option FdSet) : Nat := (List.range nfds.toNat).countP (fdIsset · set)

/-- Each set has exactly the descriptors below `nfds` that it had and whose answer has a condition that it reports, and
the result is the number of all bits. -/
def ReportsAsked (nfds : Int) (sets : FdSets) (answers : Nat → Answer) (r : FdSets × Int) : Prop :=
  (∀ k fd, fdIsset fd (r.1 k) = true ↔ (fd : Int) < nfds ∧ fdIsset fd (sets k) = true ∧ has (answers fd) k.reports) ∧
    r.2 = bits nfds (r.1 .read) + bits nfds (r.1 .write) + bits nfds (r.1 .except)

/-- The conditions of a set that `poll` reports unasked. -/
def FdKind.unasked (k : FdKind) : UInt32 := k.reports &&& (pollerr ||| pollhup)

/-- Where a set is there and does not have a descriptor that another set has, the answer for the descriptor has none of
the conditions that the set would get unasked. -/
def NothingUnasked (nfds : Int) (sets : FdSets) (answers : Nat → Answer) : Prop :=
  ∀ fd : Nat, (fd : Int) < nfds → requested sets fd = true → ∀ k, (sets k).isSome = true →
    fdIsset fd (sets k) = false → ¬ has (answers fd) k.unasked

instance (nfds : Int) (sets : FdSets) (answers : Nat → Answer) : Decidable (NothingUnasked nfds sets answers) :=
  decidable_of_iff (∀ fd ∈ List.range nfds.toNat, requested sets fd = true → ∀ k ∈ [FdKind.read, .write, .except],
      (sets k).isSome = true → fdIsset fd (sets k) = false → ¬ has (answers fd) k.unasked) (by
    have hkinds : ∀ k : FdKind, k ∈ [FdKind.read, .write, .except] := by
      intro k
      cases k <;> simp
    constructor
    · intro hall fd hlt hreq k
      exact hall fd (List.mem_range.mpr (by omega)) hreq k (hkinds k)
    · intro hall fd hfd hreq k _
      have := List.mem_range.mp hfd
      exact hall fd (by omega) hreq k)

/-- No set has a descriptor in a word all of whose descriptors are `nfds` or above. -/
def WithinWords (nfds : Int) (sets : FdSets) : Prop :=
  ∀ k fd, fdIsset fd (sets k) = true → ((fd / 32 * 32 : Nat) : Int) < nfds

/-! ## What `poll` leaves in the list -/

section poll

variable {thread : τ} {fds : List Pollfd} {msec : Int} {s s' : PollState τ κ} {a : PollAction τ κ} {n num : Nat}
  {h : History (PollState τ κ) (PollAction τ κ)}

/-- The descriptors of a list are not negative, and different. -/
structure Descriptors (fds : List Pollfd) : Prop where
  nonneg : ∀ p ∈ fds, 0 ≤ p.fd
  nodup : (fds.map Pollfd.fd).Nodup

/-- The first `n` entries have the results for the last answers; where none has been counted, all are zero. -/
structure Scanned (fds : List Pollfd) (h : History (PollState τ κ) (PollAction τ κ)) (revents : Nat → UInt32)
    (n num : Nat) : Prop where
  masks : ∀ i p, i < n → fds[i]? = some p → doPollfd p (answerTo fds p.fd.toNat h) = .ok (revents i)
  zero : num = 0 → ∀ i < n, i < fds.length → revents i = 0

/-- What holds in a scan, and behind the last one. -/
def Found (fds : List Pollfd) (h : History (PollState τ κ) (PollAction τ κ)) (s : PollState τ κ) : Prop :=
  match s.pc with
  | .scan n num _ => Scanned fds h s.revents n num
  | .teardown num | .returned num => 0 ≤ num → Scanned fds h s.revents fds.length num.toNat
  | _ => True

omit [DecidableEq τ] [DecidableEq κ] in
theorem answerTo_other (fd : Nat) (ha : ∀ x, a ≠ .answer x) : answerTo fds fd ((s, a) :: h) = answerTo fds fd h := by
  cases a with
  | answer x => exact absurd rfl (ha x)
  | _ => cases hpc : s.pc <;> simp only [answerTo, hpc]

omit [DecidableEq τ] [DecidableEq κ] in
theorem Scanned.other {revents : Nat → UInt32} (hs : Scanned fds h revents n num) (ha : ∀ x, a ≠ .answer x) :
    Scanned fds ((s, a) :: h) revents n num where
  masks i p hi hp := by
    rw [answerTo_other _ ha]
    exact hs.masks i p hi hp
  zero := hs.zero

omit [DecidableEq τ] [DecidableEq κ] in
theorem Scanned.all {revents : Nat → UInt32} (hs : Scanned fds h revents n num) (hn : fds.length ≤ n) :
    Scanned fds h revents fds.length num where
  masks i p hi hp := hs.masks i p (Nat.lt_of_lt_of_le hi hn) hp
  zero hnum i hi := hs.zero hnum i (Nat.lt_of_lt_of_le hi hn)

omit [DecidableEq τ] [DecidableEq κ] in
theorem Found.of_scan {istimeout : Bool} (hf : Found fds h s) (hpc : s.pc = .scan n num istimeout) :
    Scanned fds h s.revents n num := by
  unfold Found at hf
  rwa [hpc] at hf

omit [DecidableEq τ] [DecidableEq κ] in
theorem Found.of_teardown {num : Int} (hf : Found fds h s) (hpc : s.pc = .teardown num) (hnum : 0 ≤ num) :
    Scanned fds h s.revents fds.length num.toNat := by
  unfold Found at hf
  rw [hpc] at hf
  exact hf hnum

omit [DecidableEq τ] [DecidableEq κ] in
theorem Found.of_returned {num : Int} (hf : Found fds h s) (hpc : s.pc = .returned num) (hnum : 0 ≤ num) :
    Scanned fds h s.revents fds.length num.toNat := by
  unfold Found at hf
  rw [hpc] at hf
  exact hf hnum

omit [DecidableEq τ] [DecidableEq κ] in
theorem Found.keep (hf : Found fds h s) (ha : ∀ x, a ≠ .answer x) (hpc : s'.pc = s.pc)
    (hrevents : s'.revents = s.revents) : Found fds ((s, a) :: h) s' := by
  unfold Found at hf ⊢
  rw [hpc, hrevents]
  cases hs : s.pc with
  | scan n num istimeout =>
    rw [hs] at hf
    exact hf.other ha
  | teardown num =>
    rw [hs] at hf
    exact fun hnum => (hf hnum).other ha
  | returned num =>
    rw [hs] at hf
    exact fun hnum => (hf hnum).other ha
  | _ => trivial

theorem wakeup_revents (q : κ) (key : UInt32) : (s.wakeup thread q key).revents = s.revents := by
  unfold PollState.wakeup
  dsimp only
  cases (s.queue q).first key with
  | none => rfl
  | some e =>
    dsimp only
    split_ifs
    · rw [resume_frame]
      rfl
    · rfl

omit [DecidableEq τ] [DecidableEq κ] in
theorem answerTo_self {p : Pollfd} {x : Answer} {istimeout : Bool} (hpc : s.pc = .scan n num istimeout)
    (hp : fds[n]? = some p) (hfd : 0 ≤ p.fd) : answerTo fds p.fd.toNat ((s, .answer x) :: h) = x := by
  have hcast : p.fd = (p.fd.toNat : Int) := (Int.toNat_of_nonneg hfd).symm
  simp only [answerTo, hpc, hp, Option.any_some]
  rw [if_pos (decide_eq_true hcast)]

omit [DecidableEq τ] [DecidableEq κ] in
theorem answerTo_before {p q : Pollfd} {x : Answer} {istimeout : Bool} {i : Nat} (hfds : Descriptors fds)
    (hpc : s.pc = .scan n num istimeout) (hp : fds[n]? = some p) (hq : fds[i]? = some q) (hi : i < n) :
    answerTo fds q.fd.toNat ((s, .answer x) :: h) = answerTo fds q.fd.toNat h := by
  have hcast : q.fd = (q.fd.toNat : Int) := (Int.toNat_of_nonneg (hfds.nonneg q (List.mem_of_getElem? hq))).symm
  have hne : p.fd ≠ (q.fd.toNat : Int) := by
    rw [← hcast]
    intro hsame
    have hlt : n < (fds.map Pollfd.fd).length := by
      rw [List.length_map]
      exact (List.getElem?_eq_some_iff.mp hp).1
    have hindex : n = i := by
      apply (List.getElem?_inj hlt hfds.nodup).mp
      rw [List.getElem?_map, List.getElem?_map, hp, hq, Option.map_some, Option.map_some, hsame]
    omega
  simp only [answerTo, hpc, hp, Option.any_some]
  rw [if_neg (by simpa using hne)]

omit [DecidableEq τ] [DecidableEq κ] in
theorem Found.answer {p : Pollfd} {x : Answer} {istimeout : Bool} (hfds : Descriptors fds) (hf : Found fds h s)
    (hpc : s.pc = .scan n num istimeout) (hp : fds[n]? = some p) :
    Found fds ((s, .answer x) :: h) (s.answer n num istimeout (doPollfd p x)) := by
  have hscan := hf.of_scan hpc
  cases hmask : doPollfd p x with
  | error ret =>
    -- the driver returns an error, which is negative
    have hneg : ret < 0 := by
      unfold doPollfd at hmask
      split_ifs at hmask
      cases x with
      | poll mask =>
        dsimp only at hmask
        split_ifs at hmask with hlt
        cases hmask
        exact hlt
      | _ => contradiction
    exact fun hnum => absurd hneg (Int.not_lt.mpr hnum)
  | ok mask =>
    have hnew : ∀ num', (num' = 0 → num = 0 ∧ mask = 0) →
        Scanned fds ((s, .answer x) :: h) (Function.update s.revents n mask) (n + 1) num' := by
      intro num' hzero
      constructor
      · intro i q hi hq
        rcases Nat.lt_succ_iff_lt_or_eq.mp hi with hlt | rfl
        · rw [answerTo_before hfds hpc hp hq hlt, Function.update_of_ne (Nat.ne_of_lt hlt)]
          exact hscan.masks i q hlt hq
        · obtain rfl := Option.some.inj (hp.symm.trans hq)
          rw [answerTo_self hpc hp (hfds.nonneg p (List.mem_of_getElem? hp)), Function.update_self, hmask]
      · intro hnum i hi hlen
        obtain ⟨hnone, hmask⟩ := hzero hnum
        rcases Nat.lt_succ_iff_lt_or_eq.mp hi with hlt | rfl
        · rw [Function.update_of_ne (Nat.ne_of_lt hlt)]
          exact hscan.zero hnone i hlt hlen
        · rw [Function.update_self, hmask]
    unfold PollState.answer
    dsimp only
    split_ifs with hzero
    · exact hnew num fun hnum => ⟨hnum, hzero⟩
    · exact hnew (num + 1) fun hnum => by contradiction

theorem Found.goOn (hf : Found fds h s) (hs : s.goOn fds msec = some s') : Found fds ((s, .goOn) :: h) s' := by
  have hother : ∀ x, (.goOn : PollAction τ κ) ≠ .answer x := fun x hx => by contradiction
  unfold PollState.goOn at hs
  cases hpc : s.pc with
  | loop istimeout =>
    rw [hpc] at hs
    cases hs
    exact ⟨fun i p hi => absurd hi (Nat.not_lt_zero i), fun _ i hi => absurd hi (Nat.not_lt_zero i)⟩
  | scan n num istimeout =>
    have hscan : Scanned fds ((s, .goOn) :: h) s.revents n num := (hf.of_scan hpc).other hother
    rw [hpc] at hs
    dsimp only at hs
    by_cases hn : n < fds.length
    · rw [if_pos hn] at hs
      contradiction
    rw [if_neg hn] at hs
    cases hs
    unfold Found
    dsimp only
    split_ifs with hdone
    · exact fun _ => hscan.all (Nat.not_lt.mp hn)
    · trivial
  | wait =>
    rw [hpc] at hs
    cases hs
    unfold PollState.waitTimeout Found
    dsimp only
    split_ifs <;> trivial
  | sleep =>
    rw [hpc] at hs
    dsimp only at hs
    split_ifs at hs
    cases hs
    trivial
  | teardown num =>
    rw [hpc] at hs
    dsimp only at hs
    cases hnodes : s.nodes with
    | nil =>
      rw [hnodes] at hs
      cases hs
      exact fun hnum => (hf.of_teardown hpc hnum).other hother
    | cons node nodes =>
      rw [hnodes] at hs
      cases hs
      exact hf.keep hother hpc.symm rfl
  | returned num =>
    rw [hpc] at hs
    contradiction

theorem found_run (hfds : Descriptors fds) (hrun : (polls κ thread fds msec).Run h s) : Found fds h s := by
  refine hrun.always (I := fun h s => Found fds h s) ?_ ?_
  · rintro s ⟨-, -, -, -, -, -, -, hpc⟩
    unfold Found
    rw [hpc]
    trivial
  · intro h s a s' _ hf hs
    cases a with
    | goOn => exact hf.goOn hs
    | pollAdd q ok =>
      obtain ⟨p, -, rfl⟩ := Option.map_eq_some_iff.mp hs
      refine hf.keep (fun x hx => by contradiction) ?_ ?_
      · unfold PollState.pollAdd
        split_ifs <;> rfl
      · unfold PollState.pollAdd
        split_ifs <;> rfl
    | answer x =>
      have hs : pollStep thread fds msec s (.answer x) = some s' := hs
      unfold pollStep at hs
      cases hpc : s.pc with
      | scan n num istimeout =>
        rw [hpc] at hs
        obtain ⟨p, hp, rfl⟩ := Option.map_eq_some_iff.mp hs
        exact hf.answer hfds hpc hp
      | _ =>
        rw [hpc] at hs
        contradiction
    | wakeup q key =>
      cases hs
      exact hf.keep (fun x hx => by contradiction) (wakeup_frame thread s q key).1 (wakeup_revents q key)
    | add q e =>
      obtain ⟨-, hs⟩ := Option.ite_none_right_eq_some.mp hs
      cases hs
      exact hf.keep (fun x hx => by contradiction) rfl rfl
    | remove q e =>
      obtain ⟨-, hs⟩ := Option.ite_none_right_eq_some.mp hs
      cases hs
      exact hf.keep (fun x hx => by contradiction) rfl rfl
    | tick =>
      cases hs
      exact hf.keep (fun x hx => by contradiction) rfl rfl
    | timeout =>
      obtain ⟨-, hs⟩ := Option.ite_none_right_eq_some.mp hs
      cases hs
      refine hf.keep (fun x hx => by contradiction) ?_ ?_
      · rw [resume_frame]
      · rw [resume_frame]

end poll

/-! ## The list and its answers -/

section answers

variable {sets : FdSets} {nfds : Int} {fd : Nat} {k k' : FdKind} {x : Answer} {m : UInt32} {answers : Nat → Answer}

theorem pollset_descriptors (nfds : Int) (sets : FdSets) : Descriptors (pollset nfds sets) where
  nonneg p hp := by
    obtain ⟨fd, -, rfl⟩ := List.mem_map.mp hp
    exact Int.natCast_nonneg fd
  nodup := by
    rw [pollset, List.map_map]
    refine (List.nodup_range.filter _).map ?_
    intro a b hab
    exact Int.ofNat.inj hab

/-- The result for a descriptor has a condition if the answer has one that `poll` leaves in. -/
theorem doPollfd_and {p : Pollfd} (hm : doPollfd p x = .ok m) (hfd : 0 ≤ p.fd) {c : UInt32}
    (hc : pollnval &&& c = 0) : m &&& c ≠ 0 ↔ has x (p.key &&& c) := by
  unfold doPollfd at hm
  rw [if_neg (Int.not_lt.mpr hfd)] at hm
  cases x with
  | closed =>
    cases hm
    have hnone : answerMask .closed &&& (p.key &&& c) = 0 := by
      rw [UInt32.and_comm p.key, ← UInt32.and_assoc]
      show pollnval &&& c &&& p.key = 0
      rw [hc, UInt32.zero_and]
    exact iff_of_false (fun h => h hc) fun h => h hnone
  | noPoll =>
    cases hm
    rw [UInt32.and_assoc]
    rfl
  | poll mask =>
    dsimp only at hm
    split_ifs at hm
    cases hm
    rw [UInt32.and_assoc]
    rfl

theorem has_reports (h : has x k.unasked) : has x k.reports := by
  intro hnone
  apply h
  rw [FdKind.unasked, ← UInt32.and_assoc, hnone, UInt32.zero_and]

/-- A set reports a condition that has been asked for, or one that it gets unasked. -/
theorem reported_iff (hm : doPollfd (pollfd sets fd) x = .ok m) :
    m &&& k.reports ≠ 0 ↔ (fdIsset fd (sets k) = true ∧ has x k.reports) ∨ has x k.unasked := by
  have hc : pollnval &&& k.reports = 0 := by cases k <;> decide
  rw [doPollfd_and hm (Int.natCast_nonneg fd) hc]
  have hkey : (pollfd sets fd).key &&& k.reports =
      if fdIsset fd (sets k) = true then k.reports else k.unasked := by
    unfold Pollfd.key pollfd
    dsimp only
    cases k with
    | read => cases fdIsset fd (sets .read) <;> cases fdIsset fd (sets .write) <;> decide
    | write => cases fdIsset fd (sets .read) <;> cases fdIsset fd (sets .write) <;> decide
    | except =>
      cases fdIsset fd (sets .read) <;> cases fdIsset fd (sets .write) <;> cases fdIsset fd (sets .except) <;> decide
  rw [hkey]
  split_ifs with hset
  · constructor
    · exact fun h => .inl ⟨hset, h⟩
    · rintro (⟨-, h⟩ | h)
      · exact h
      · exact has_reports h
  · constructor
    · exact .inr
    · rintro (⟨h, -⟩ | h)
      · exact absurd h hset
      · exact h

/-! ### The loop over the list -/

/-- A descriptor in all three sets. -/
def reportAll (fd : Nat) (m : UInt32) (r : FdSets × Int) : FdSets × Int :=
  FdKind.except.report fd m (FdKind.write.report fd m (FdKind.read.report fd m r))

/-- One set behind a descriptor. -/
def reported (k : FdKind) (fd : Nat) (m : UInt32) (set : FdSet) : FdSet :=
  if m &&& k.reports ≠ 0 then WordSets.insert set fd else set

/-- Whether a descriptor is counted for a set. -/
def counted (k : FdKind) (m : UInt32) (set : Option FdSet) : Int :=
  if set.isSome = true ∧ m &&& k.reports ≠ 0 then 1 else 0

theorem report_set (r : FdSets × Int) :
    (k.report fd m r).1 k' = if k' = k then (r.1 k).map (reported k fd m) else r.1 k' := by
  unfold FdKind.report
  cases hset : r.1 k with
  | none =>
    dsimp only
    split_ifs with hk
    · rw [hk, hset]
      rfl
    · rfl
  | some set =>
    dsimp only [Option.map_some]
    unfold reported
    by_cases hhit : m &&& k.reports ≠ 0
    · rw [if_pos hhit, if_pos hhit]
      dsimp only
      rw [Function.update_apply]
    · rw [if_neg hhit, if_neg hhit]
      split_ifs with hk
      · rw [hk, hset]
      · rfl

theorem report_count (r : FdSets × Int) : (k.report fd m r).2 = r.2 + counted k m (r.1 k) := by
  unfold FdKind.report counted
  cases r.1 k with
  | none => simp
  | some set =>
    dsimp only [Option.isSome_some]
    split_ifs with hhit <;> simp_all

theorem reportAll_set (r : FdSets × Int) : (reportAll fd m r).1 k = (r.1 k).map (reported k fd m) := by
  unfold reportAll
  cases k <;> simp [report_set]

theorem reportAll_count (r : FdSets × Int) : (reportAll fd m r).2 =
    r.2 + (counted .read m (r.1 .read) + counted .write m (r.1 .write) + counted .except m (r.1 .except)) := by
  unfold reportAll
  rw [report_count, report_count, report_count]
  simp only [report_set, reduceCtorEq, if_false]
  omega

theorem fold_set (rv : Nat → UInt32) (l : List Nat) (r : FdSets × Int) :
    (l.foldl (fun r fd => reportAll fd (rv fd) r) r).1 k =
      (r.1 k).map fun set => l.foldl (fun set fd => reported k fd (rv fd) set) set := by
  induction l generalizing r with
  | nil => simp
  | cons fd l ih =>
    rw [List.foldl_cons, ih, reportAll_set, Option.map_map]
    rfl

/-- How many descriptors of a list are counted for a set. -/
def countedIn (k : FdKind) (rv : Nat → UInt32) (set : Option FdSet) (l : List Nat) : Nat :=
  if set.isSome then l.countP fun fd => rv fd &&& k.reports ≠ 0 else 0

theorem countedIn_cons (rv : Nat → UInt32) (set : Option FdSet) (l : List Nat) :
    (countedIn k rv set (fd :: l) : Int) = counted k (rv fd) set + countedIn k rv set l := by
  unfold countedIn counted
  rw [List.countP_cons]
  cases set with
  | none => simp
  | some set =>
    by_cases hhit : rv fd &&& k.reports = 0
    · simp [hhit]
    · simp [hhit, Int.add_comm]

theorem countedIn_isSome {rv : Nat → UInt32} {set set' : Option FdSet} (l : List Nat)
    (hsome : set.isSome = set'.isSome) : countedIn k rv set l = countedIn k rv set' l := by
  unfold countedIn
  rw [hsome]

theorem fold_count (rv : Nat → UInt32) (l : List Nat) (r : FdSets × Int) :
    (l.foldl (fun r fd => reportAll fd (rv fd) r) r).2 = r.2 + (countedIn .read rv (r.1 .read) l +
      countedIn .write rv (r.1 .write) l + countedIn .except rv (r.1 .except) l) := by
  induction l generalizing r with
  | nil => simp [countedIn]
  | cons fd l ih =>
    have hsome : ∀ k, ((reportAll fd (rv fd) r).1 k).isSome = (r.1 k).isSome := by
      intro k
      rw [reportAll_set, Option.isSome_map]
    rw [List.foldl_cons, ih, reportAll_count, countedIn_cons, countedIn_cons, countedIn_cons,
      countedIn_isSome l (hsome .read), countedIn_isSome l (hsome .write), countedIn_isSome l (hsome .except)]
    omega

theorem report_zero (r : FdSets × Int) : k.report fd 0 r = r := by
  unfold FdKind.report
  cases r.1 k with
  | none => rfl
  | some set => simp

theorem fold_zero {rv : Nat → UInt32} {l : List Nat} (hl : ∀ fd ∈ l, rv fd = 0) (r : FdSets × Int) :
    l.foldl (fun r fd => reportAll fd (rv fd) r) r = r := by
  induction l with
  | nil => rfl
  | cons fd l ih =>
    rw [List.foldl_cons, hl fd List.mem_cons_self, reportAll, report_zero, report_zero, report_zero]
    exact ih fun fd' hfd' => hl fd' (List.mem_cons_of_mem _ hfd')

/-- The loop of the code, when the results for the entries are those for their descriptors. -/
theorem collect_eq {revents : Nat → UInt32} {rv : Nat → UInt32} {l : List Nat} {ndx : Nat}
    (hrv : ∀ i fd, l[i]? = some fd → revents (ndx + i) = rv fd) (r : FdSets × Int) :
    collect revents (l.map (pollfd sets)) ndx r = l.foldl (fun r fd => reportAll fd (rv fd) r) r := by
  induction l generalizing ndx r with
  | nil => rfl
  | cons fd l ih =>
    have hhead : revents ndx = rv fd := hrv 0 fd rfl
    rw [List.map_cons, List.foldl_cons, ← ih]
    · rw [← hhead]
      rfl
    · intro i fd' hi
      rw [Nat.add_assoc, Nat.add_comm 1 i]
      exact hrv (i + 1) fd' hi

/-! ### The sets behind the call -/

theorem mem_fdszero {set : FdSet} :
    WordSets.mem (fdszero set nfds) fd = true ↔ nfds ≤ ((fd / 32 * 32 : Nat) : Int) ∧ WordSets.mem set fd = true := by
  unfold fdszero
  rw [WordSets.mem_clear]
  apply and_congr_left'
  omega

/-- The requested descriptors. -/
def requestedBelow (nfds : Int) (sets : FdSets) : List Nat := (List.range nfds.toNat).filter (requested sets)

theorem mem_requestedBelow :
    fd ∈ requestedBelow nfds sets ↔ (fd : Int) < nfds ∧ requested sets fd = true := by
  unfold requestedBelow
  rw [List.mem_filter, List.mem_range]
  apply and_congr_left'
  omega

theorem requested_of_isset (hset : fdIsset fd (sets k) = true) : requested sets fd = true := by
  unfold requested
  cases k <;> simp [hset]

theorem isSome_of_isset (hset : fdIsset fd (sets k) = true) : (sets k).isSome = true := by
  cases hk : sets k with
  | none =>
    rw [hk] at hset
    contradiction
  | some set => rfl

/-- What `select` returns behind `poll`, when the results for the entries are those for their descriptors. -/
theorem select_spec {ret : Int} {revents rv : Nat → UInt32} {calloc : Bool} (hret : 0 ≤ ret)
    (hcalloc : 0 ≤ (select nfds sets calloc ret revents).2)
    (hrv : ∀ i fd, (requestedBelow nfds sets)[i]? = some fd → revents i = rv fd)
    (hzero : ret = 0 → ∀ fd ∈ requestedBelow nfds sets, rv fd = 0) :
    (∀ k fd, fdIsset fd ((select nfds sets calloc ret revents).1 k) = true ↔
      ((sets k).isSome = true ∧ fd ∈ requestedBelow nfds sets ∧ rv fd &&& k.reports ≠ 0) ∨
        (nfds ≤ ((fd / 32 * 32 : Nat) : Int) ∧ fdIsset fd (sets k) = true)) ∧
    (select nfds sets calloc ret revents).2 = countedIn .read rv (sets .read) (requestedBelow nfds sets) +
      countedIn .write rv (sets .write) (requestedBelow nfds sets) +
      countedIn .except rv (sets .except) (requestedBelow nfds sets) := by
  have hmem : ¬ (pollset nfds sets ≠ [] ∧ (!calloc) = true) := by
    intro hno
    rw [select, if_pos hno] at hcalloc
    exact absurd hcalloc (show ¬ (0 : Int) ≤ -1 by decide)
  generalize hl : requestedBelow nfds sets = l at hrv hzero ⊢
  have hresult : select nfds sets calloc ret revents =
      l.foldl (fun r fd => reportAll fd (rv fd) r) (fun k => (sets k).map (fdszero · nfds), 0) := by
    have hpollset : pollset nfds sets = l.map (pollfd sets) := by
      rw [← hl]
      rfl
    rw [select, if_neg hmem]
    dsimp only
    by_cases hpos : 0 < ret
    · rw [if_pos hpos, hpollset, collect_eq]
      intro i fd hi
      rw [Nat.zero_add]
      exact hrv i fd hi
    · -- nothing is ready, and the loop would enter nothing
      have hnone : ret = 0 := by omega
      rw [if_neg hpos, hnone]
      exact (fold_zero (hzero hnone) _).symm
  rw [hresult]
  constructor
  · intro k fd
    rw [fold_set, Option.map_map]
    cases hset : sets k with
    | none => simp [fdIsset]
    | some set =>
      have hinsert := WordSets.mem_insertIf (s := fdszero set nfds) (m := fd) (l := l)
        (p := fun fd => decide (rv fd &&& k.reports ≠ 0)) (w := 32) (by decide)
      rw [mem_fdszero] at hinsert
      simp only [fdIsset, Option.map_some, Option.any_some, Option.isSome_some, true_and, Function.comp_apply]
      simp only [reported]
      simpa using hinsert
  · rw [fold_count]
    simp only [countedIn_isSome l (Option.isSome_map), Int.zero_add]

/-- What is counted for a set are the bits of the set that is returned. -/
theorem countedIn_eq_bits {rv : Nat → UInt32} {set : Option FdSet}
    (hset : ∀ fd, fdIsset fd set = true ↔
      ((sets k).isSome = true ∧ fd ∈ requestedBelow nfds sets ∧ rv fd &&& k.reports ≠ 0) ∨
        (nfds ≤ ((fd / 32 * 32 : Nat) : Int) ∧ fdIsset fd (sets k) = true)) :
    countedIn k rv (sets k) (requestedBelow nfds sets) = bits nfds set := by
  unfold countedIn bits requestedBelow
  split_ifs with hk
  · rw [List.countP_filter]
    apply List.countP_congr
    intro fd hfd
    have hbelow : (fd : Int) < nfds := by
      have := List.mem_range.mp hfd
      omega
    rw [Bool.and_eq_true, decide_eq_true_iff, hset, mem_requestedBelow]
    constructor
    · rintro ⟨hhit, hreq⟩
      exact .inl ⟨hk, ⟨hbelow, hreq⟩, hhit⟩
    · rintro (⟨-, ⟨-, hreq⟩, hhit⟩ | ⟨hbeyond, -⟩)
      · exact ⟨hhit, hreq⟩
      · omega
  · symm
    rw [List.countP_eq_zero]
    intro fd _ hfd
    rcases (hset fd).mp hfd with ⟨hsome, -⟩ | ⟨-, hin⟩
    · exact hk hsome
    · exact hk (isSome_of_isset hin)

/-- The sets and the result are right exactly if nothing is reported unasked, and no set has a descriptor in a word that
is not cleared. -/
theorem reportsAsked_iff {rv : Nat → UInt32} {out : FdSets × Int}
    (hset : ∀ k fd, fdIsset fd (out.1 k) = true ↔
      ((sets k).isSome = true ∧ fd ∈ requestedBelow nfds sets ∧ rv fd &&& k.reports ≠ 0) ∨
        (nfds ≤ ((fd / 32 * 32 : Nat) : Int) ∧ fdIsset fd (sets k) = true))
    (hcount : out.2 = countedIn .read rv (sets .read) (requestedBelow nfds sets) +
      countedIn .write rv (sets .write) (requestedBelow nfds sets) +
      countedIn .except rv (sets .except) (requestedBelow nfds sets))
    (hmask : ∀ fd ∈ requestedBelow nfds sets, doPollfd (pollfd sets fd) (answers fd) = .ok (rv fd)) :
    ReportsAsked nfds sets answers out ↔ NothingUnasked nfds sets answers ∧ WithinWords nfds sets := by
  constructor
  · rintro ⟨hout, -⟩
    constructor
    · intro fd hlt hreq k hk hnot hunasked
      have hfd : fd ∈ requestedBelow nfds sets := mem_requestedBelow.mpr ⟨hlt, hreq⟩
      have hin := ((hout k fd).mp ((hset k fd).mpr
        (.inl ⟨hk, hfd, (reported_iff (hmask fd hfd)).mpr (.inr hunasked)⟩))).2.1
      rw [hnot] at hin
      contradiction
    · intro k fd hfd
      by_contra hbeyond
      have hlt := ((hout k fd).mp ((hset k fd).mpr (.inr ⟨Int.not_lt.mp hbeyond, hfd⟩))).1
      omega
  · rintro ⟨hnone, hwords⟩
    have hout : ∀ k fd, fdIsset fd (out.1 k) = true ↔
        (fd : Int) < nfds ∧ fdIsset fd (sets k) = true ∧ has (answers fd) k.reports := by
      intro k fd
      rw [hset]
      constructor
      · rintro (⟨hk, hfd, hhit⟩ | ⟨hbeyond, hfd⟩)
        · obtain ⟨hlt, hreq⟩ := mem_requestedBelow.mp hfd
          rcases (reported_iff (hmask fd hfd)).mp hhit with hasked | hunasked
          · exact ⟨hlt, hasked⟩
          · cases hin : fdIsset fd (sets k) with
            | false => exact absurd hunasked (hnone fd hlt hreq k hk hin)
            | true =>
              exact ⟨hlt, rfl, has_reports hunasked⟩
        · exact absurd (hwords k fd hfd) (Int.not_lt.mpr hbeyond)
      · rintro ⟨hlt, hin, hhas⟩
        have hfd : fd ∈ requestedBelow nfds sets := mem_requestedBelow.mpr ⟨hlt, requested_of_isset hin⟩
        exact .inl ⟨isSome_of_isset hin, hfd, (reported_iff (hmask fd hfd)).mpr (.inl ⟨hin, hhas⟩)⟩
    refine ⟨hout, ?_⟩
    have hbits : ∀ k, countedIn k rv (sets k) (requestedBelow nfds sets) = bits nfds (out.1 k) :=
      fun k => countedIn_eq_bits (hset k)
    rw [hcount, hbits, hbits, hbits]

end answers

section select

variable {thread : τ} {nfds : Int} {sets : FdSets} {timeout : Option (Int × Int)} {calloc : Bool} {num : Int}
  {s : PollState τ κ} {h : History (PollState τ κ) (PollAction τ κ)}

/-- For all sets and all answers, when `select` returns 0 or more: each set has exactly the descriptors asked for whose
answer has a condition that the set reports, and the result is their number, if and only if no set gets a descriptor
unasked that is in another set only, and no set has a descriptor in a word that lies at or above `nfds`. -/
theorem select_asked (hrun : (polls κ thread (pollset nfds sets) (msec timeout)).Run h s)
    (hpc : s.pc = .returned num) (hret : 0 ≤ (select nfds sets calloc num s.revents).2) :
    ReportsAsked nfds sets (fun fd => answerTo (pollset nfds sets) fd h) (select nfds sets calloc num s.revents) ↔
      NothingUnasked nfds sets (fun fd => answerTo (pollset nfds sets) fd h) ∧ WithinWords nfds sets := by
  have hnum : 0 ≤ num := by
    by_contra hneg
    unfold select at hret
    split_ifs at hret with hno hpos
    · exact absurd hret (show ¬ (0 : Int) ≤ -1 by decide)
    · exact hneg (Int.le_of_lt hpos)
    · exact hneg hret
  have hscan := (found_run (pollset_descriptors nfds sets) hrun).of_returned hpc hnum
  have hentry : ∀ i fd, (requestedBelow nfds sets)[i]? = some fd → i < (pollset nfds sets).length ∧
      (pollset nfds sets)[i]? = some (pollfd sets fd) := by
    intro i fd hi
    have hget : (pollset nfds sets)[i]? = some (pollfd sets fd) := by
      show ((requestedBelow nfds sets).map (pollfd sets))[i]? = _
      rw [List.getElem?_map, hi]
      rfl
    exact ⟨(List.getElem?_eq_some_iff.mp hget).1, hget⟩
  -- the result for a descriptor, wherever it is in the list
  obtain ⟨rv, hrv⟩ : ∃ rv : Nat → UInt32, ∀ i fd, (requestedBelow nfds sets)[i]? = some fd → s.revents i = rv fd := by
    refine ⟨fun fd => s.revents ((requestedBelow nfds sets).idxOf fd), fun i fd hi => ?_⟩
    obtain ⟨hlt, hget⟩ := List.getElem?_eq_some_iff.mp hi
    have hnodup : (requestedBelow nfds sets).Nodup := List.nodup_range.filter _
    show s.revents i = s.revents ((requestedBelow nfds sets).idxOf fd)
    rw [← hget, hnodup.idxOf_getElem i hlt]
  have hmask : ∀ fd ∈ requestedBelow nfds sets,
      doPollfd (pollfd sets fd) (answerTo (pollset nfds sets) fd h) = .ok (rv fd) := by
    intro fd hfd
    obtain ⟨i, hi⟩ := List.getElem?_of_mem hfd
    obtain ⟨hlt, hget⟩ := hentry i fd hi
    rw [← hrv i fd hi]
    exact hscan.masks i _ hlt hget
  have hzero : num = 0 → ∀ fd ∈ requestedBelow nfds sets, rv fd = 0 := by
    intro hnone fd hfd
    obtain ⟨i, hi⟩ := List.getElem?_of_mem hfd
    obtain ⟨hlt, -⟩ := hentry i fd hi
    rw [← hrv i fd hi]
    exact hscan.zero (by rw [hnone]; rfl) i hlt hlt
  obtain ⟨hset, hcount⟩ := select_spec hnum hret hrv hzero
  exact reportsAsked_iff hset hcount hmask

/-- No descriptors, in no word. -/
def noFds : FdSet := fun _ => 0#32

/-- A call that does not wait. -/
def atOnce : Option (Int × Int) := some (0, 0)

def pollNow : PollState (Fin 2) Unit :=
  ⟨fun _ => ⟨false, []⟩, 0, 0, false, false, [], false, none, fun _ => 0, .loop true⟩

theorem init_pollNow (fds : List Pollfd) : (polls Unit (0 : Fin 2) fds (msec atOnce)).init pollNow := by
  refine ⟨fun _ e he => ?_, rfl, rfl, rfl, rfl, rfl, rfl, rfl⟩
  contradiction

/-- Descriptor 3 is asked for as a reader, and 33 as a reader and a writer. -/
def twoFds : FdSets
  | .read => some (WordSets.insert (WordSets.insert noFds 3) 33)
  | .write => some (WordSets.insert noFds 33)
  | .except => none

theorem withinWords_twoFds : WithinWords 40 twoFds := by
  have hmem : ∀ {fd : Nat} {set : FdSet}, WordSets.mem (WordSets.insert set 33) fd = true →
      fd = 33 ∨ WordSets.mem set fd = true := fun h => (WordSets.mem_insert (by decide)).mp h
  have hnone : ∀ {fd : Nat}, ¬ WordSets.mem noFds fd = true := by
    intro fd
    simp [WordSets.mem, noFds]
  intro k fd hfd
  cases k with
  | read =>
    rcases hmem hfd with rfl | hfd
    · decide
    · rcases (WordSets.mem_insert (by decide)).mp hfd with rfl | hfd
      · decide
      · exact absurd hfd hnone
  | write =>
    rcases hmem hfd with rfl | hfd
    · decide
    · exact absurd hfd hnone
  | except => contradiction

/-- Descriptor 3 has hung up, and 33 is ready for both. -/
theorem select_asked_two : ∃ (h : History (PollState (Fin 2) Unit) (PollAction (Fin 2) Unit)) (s : _),
    (polls Unit (0 : Fin 2) (pollset 40 twoFds) (msec atOnce)).Run h s ∧
    (select 40 twoFds true 2 s.revents).2 = 3 ∧
    ReportsAsked 40 twoFds (fun fd => answerTo (pollset 40 twoFds) fd h) (select 40 twoFds true 2 s.revents) := by
  obtain ⟨h, s, hrun, hpc, hcount, hasked⟩ := System.exists_run (init_pollNow (pollset 40 twoFds))
    [.goOn, .answer (.poll 8), .answer (.poll 3), .goOn, .goOn]
    (fun h s => s.pc = .returned 2 ∧ (select 40 twoFds true 2 s.revents).2 = 3 ∧
      NothingUnasked 40 twoFds (fun fd => answerTo (pollset 40 twoFds) fd h)) (by decide +kernel)
  refine ⟨h, s, hrun, hcount, (select_asked hrun hpc ?_).mpr ⟨hasked, withinWords_twoFds⟩⟩
  rw [hcount]
  decide

/-- Descriptor 3 is asked for as a writer only, and an empty set of readers is passed. -/
def writerOnly : FdSets
  | .read => some noFds
  | .write => some (WordSets.insert noFds 3)
  | .except => none

def readerForty : FdSets
  | .read => some (WordSets.insert noFds 40)
  | _ => none

/-- Descriptor 3 hangs up, and is returned as a reader. With `nfds` 1, descriptor 40 stays in the set, and the result is
0. -/
theorem select_unasked :
    (∃ (h : History (PollState (Fin 2) Unit) (PollAction (Fin 2) Unit)) (s : _),
      (polls Unit (0 : Fin 2) (pollset 4 writerOnly) (msec atOnce)).Run h s ∧ s.pc = .returned 1 ∧
      (select 4 writerOnly true 1 s.revents).2 = 1 ∧
      fdIsset 3 ((select 4 writerOnly true 1 s.revents).1 .read) = true ∧ fdIsset 3 (writerOnly .read) = false) ∧
    ∃ (h : History (PollState (Fin 2) Unit) (PollAction (Fin 2) Unit)) (s : _),
      (polls Unit (0 : Fin 2) (pollset 1 readerForty) (msec atOnce)).Run h s ∧ s.pc = .returned 0 ∧
      (select 1 readerForty true 0 s.revents).2 = 0 ∧
      fdIsset 40 ((select 1 readerForty true 0 s.revents).1 .read) = true := by
  constructor
  · exact System.exists_run (init_pollNow (pollset 4 writerOnly)) [.goOn, .answer (.poll 8), .goOn, .goOn] _
      (by decide +kernel)
  · exact System.exists_run (init_pollNow (pollset 1 readerForty)) [.goOn, .goOn, .goOn] _ (by decide +kernel)

end select

end ThyristorController.Selects
