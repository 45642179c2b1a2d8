import Mathlib.Data.List.Basic
import Mathlib.Data.List.DropRight
import Mathlib.Logic.Function.Basic
import Mathlib.Tactic.Common

/-!
# The contents of a ring buffer

A ring of `size` places, of which `n` are in use from place `out` on: `Ring.contents` is the list of what they hold.
A value is added at place `(out + n) % size`, and the first one is taken from place `out`. `Stored.overrun` says what is
left where more values are stored than there is room for.
-/

namespace Ring

variable {α : Type*}

/-- The values in the ring, oldest first. -/
def contents (pool : Nat → α) (size out n : Nat) : List α := (List.range n).map fun i => pool ((out + i) % size)

variable {pool : Nat → α} {size out n : Nat}

@[simp] theorem contents_zero : contents pool size out 0 = [] := rfl

@[simp] theorem length_contents : (contents pool size out n).length = n := by simp [contents]

theorem next_eq {i : Nat} (hi : i < size) : (if size ≤ i + 1 then 0 else i + 1) = (i + 1) % size := by
  split_ifs with h
  · rw [show i + 1 = size by omega, Nat.mod_self]
  · rw [Nat.mod_eq_of_lt (by omega)]

theorem place_ne {i : Nat} (hi : i < n) (hn : n < size) : (out + i) % size ≠ (out + n) % size := by
  intro he
  have hdvd : size ∣ (out + n) - (out + i) := Nat.dvd_of_mod_eq_zero (Nat.sub_mod_eq_zero_of_mod_eq he.symm)
  have hle := Nat.le_of_dvd (by omega) hdvd
  omega

theorem contents_push (hn : n < size) (x : α) :
    contents (Function.update pool ((out + n) % size) x) size out (n + 1) = contents pool size out n ++ [x] := by
  unfold contents
  rw [List.range_succ, List.map_append, List.map_singleton, Function.update_self]
  congr 1
  refine List.map_congr_left fun i hi => ?_
  exact Function.update_of_ne (place_ne (List.mem_range.mp hi) hn) _ _

theorem contents_pop (hout : out < size) :
    contents pool size out (n + 1) = pool out :: contents pool size ((out + 1) % size) n := by
  unfold contents
  rw [List.range_succ_eq_map, List.map_cons, Nat.add_zero, Nat.mod_eq_of_lt hout, List.map_map]
  refine congrArg (pool out :: ·) (List.map_congr_left fun i _ => ?_)
  rw [Function.comp_apply, Nat.mod_add_mod]
  congr 2
  omega

theorem contents_append {pool' : Nat → α} {l : List α}
    (hnew : ∀ i (hi : i < l.length), pool' ((out + n + i) % size) = l[i])
    (hold : ∀ i < n, pool' ((out + i) % size) = pool ((out + i) % size)) :
    contents pool' size out (n + l.length) = contents pool size out n ++ l := by
  refine List.ext_getElem (by simp) fun i hi hi' => ?_
  simp only [length_contents] at hi
  rcases Nat.lt_or_ge i n with hlt | hge
  · rw [List.getElem_append_left (by simpa using hlt)]
    simpa [contents] using hold i hlt
  · rw [List.getElem_append_right (by simpa using hge)]
    have h := hnew (i - n) (by omega)
    rw [show out + n + (i - n) = out + i by omega] at h
    simpa [contents] using h

theorem contents_drop {k : Nat} :
    contents pool size ((out + k) % size) (n - k) = (contents pool size out n).drop k := by
  refine List.ext_getElem (by simp) fun i hi hi' => ?_
  rw [List.getElem_drop]
  simp only [contents, List.getElem_map, List.getElem_range]
  rw [Nat.mod_add_mod, Nat.add_assoc]

theorem contents_take {k : Nat} (hk : k ≤ n) : (contents pool size out n).take k = contents pool size out k := by
  unfold contents
  rw [← List.map_take, List.take_range, Nat.min_eq_left hk]

theorem place_eq {i : Nat} (hout : out < size) (hi : i ≤ size) :
    (out + i) % size = if out + i < size then out + i else out + i - size := by
  split_ifs with h
  · exact Nat.mod_eq_of_lt h
  · rw [Nat.mod_eq_sub_mod (by omega), Nat.mod_eq_of_lt (by omega)]

/-- The values of `l` are stored from place `start` on, going round the end, and nothing else is. -/
structure Stored (pool pool' : Nat → α) (size start : Nat) (l : List α) : Prop where
  new : ∀ i (hi : i < l.length), pool' ((start + i) % size) = l[i]
  keep : ∀ x < size, (∀ i < l.length, x ≠ (start + i) % size) → pool' x = pool x

section stored

variable {pool' : Nat → α} {start : Nat} {l : List α}

theorem Stored.update (hstart : start < size) (x : α) : Stored pool (Function.update pool start x) size start [x] := by
  have hplace : (start + 0) % size = start := Nat.mod_eq_of_lt hstart
  refine ⟨fun i hi => ?_, fun y _ hne => ?_⟩
  · obtain rfl : i = 0 := Nat.lt_one_iff.mp hi
    rw [hplace]
    exact Function.update_self _ _ _
  · exact Function.update_of_ne (hplace ▸ hne 0 Nat.zero_lt_one) _ _

/-- The ring after the values of `l` have been stored from place `start` on. -/
def store (pool : Nat → α) (size start : Nat) (l : List α) : Nat → α := fun x =>
  (l[(x + (size - start)) % size]?).getD (pool x)

theorem stored_store (hstart : start < size) (hl : l.length ≤ size) :
    Stored pool (store pool size start l) size start l := by
  have hback (x : Nat) (hx : x < size) : (start + (x + (size - start)) % size) % size = x := by
    rw [Nat.add_mod_mod, show start + (x + (size - start)) = x + size by omega, Nat.add_mod_right, Nat.mod_eq_of_lt hx]
  refine ⟨fun i hi => ?_, fun x hx hne => ?_⟩
  · have hplace : ((start + i) % size + (size - start)) % size = i := by
      rw [Nat.mod_add_mod, show start + i + (size - start) = i + size by omega, Nat.add_mod_right,
        Nat.mod_eq_of_lt (by omega)]
    rw [store, hplace, List.getElem?_eq_getElem hi, Option.getD_some]
  · rw [store, List.getElem?_eq_none, Option.getD_none]
    by_contra hlt
    exact hne _ (Nat.lt_of_not_le hlt) (hback x hx).symm

theorem Stored.keep_place (h : Stored pool pool' size start l) (hstart : start = (out + n) % size) {i : Nat}
    (hi : i < n) (hlen : n + l.length ≤ i + size) : pool' ((out + i) % size) = pool ((out + i) % size) := by
  rcases Nat.eq_zero_or_pos l.length with h0 | hpos
  · obtain rfl := List.eq_nil_of_length_eq_zero h0
    rcases Nat.eq_zero_or_pos size with rfl | hsize
    · simp only [List.length_nil] at hlen
      omega
    · exact h.keep _ (Nat.mod_lt _ hsize) fun j hj => absurd hj (Nat.not_lt_zero _)
  · refine h.keep _ (Nat.mod_lt _ (by omega)) fun j hj he => ?_
    rw [hstart, Nat.mod_add_mod] at he
    have hdvd : size ∣ (out + n + j) - (out + i) := Nat.dvd_of_mod_eq_zero (Nat.sub_mod_eq_zero_of_mod_eq he.symm)
    have hle := Nat.le_of_dvd (by omega) hdvd
    omega

/-- The values are stored from the next place on, where there is room for them. -/
theorem Stored.append (h : Stored pool pool' size start l) (hstart : start = (out + n) % size)
    (hlen : n + l.length ≤ size) : contents pool' size out (n + l.length) = contents pool size out n ++ l := by
  refine contents_append (fun i hi => ?_) fun i hi => h.keep_place hstart hi (by omega)
  rw [← Nat.mod_add_mod, ← hstart]
  exact h.new i hi

/-- Where there is no room for them, they take the places of the oldest values. -/
theorem Stored.overrun (h : Stored pool pool' size start l) (hstart : start = (out + n) % size) (hn : n ≤ size)
    (hfull : size ≤ n + l.length) :
    contents pool' size ((start + l.length) % size) size = (contents pool size out n ++ l).rtake size := by
  have hsize : (contents pool size out n ++ l).length - size = n + l.length - size := by simp
  rw [List.rtake, hsize]
  refine List.ext_getElem (by simp; omega) fun i hi hi' => ?_
  simp only [length_contents] at hi
  have hplace : (start + l.length + i) % size = (out + (n + l.length - size + i)) % size := by
    rw [hstart, Nat.add_assoc, Nat.mod_add_mod, ← Nat.add_mod_right (out + _)]
    congr 1
    omega
  rw [List.getElem_drop]
  simp only [contents, List.getElem_map, List.getElem_range, Nat.mod_add_mod, hplace]
  rcases Nat.lt_or_ge (n + l.length - size + i) n with hlt | hge
  · rw [List.getElem_append_left (by simpa using hlt), List.getElem_map, List.getElem_range]
    exact h.keep_place hstart hlt (by omega)
  · rw [List.getElem_append_right (by simpa using hge)]
    have hnew := h.new (n + l.length - size + i - n) (by omega)
    rw [hstart, Nat.mod_add_mod, Nat.add_assoc, Nat.add_sub_cancel' hge] at hnew
    simpa using hnew

end stored

/-- The values of neighbouring places. -/
def segment (pool : Nat → α) (start n : Nat) : List α := (List.range n).map fun i => pool (start + i)

theorem contents_segment (h : out + n ≤ size) : contents pool size out n = segment pool out n :=
  List.map_congr_left fun i hi => by
    have := List.mem_range.mp hi
    rw [Nat.mod_eq_of_lt (by omega)]

theorem contents_wrap (hout : out < size) (hle : size - out ≤ n) (hn : n ≤ size) :
    contents pool size out n = segment pool out (size - out) ++ segment pool 0 (n - (size - out)) := by
  refine List.ext_getElem (by simp [segment]; omega) fun i hi hi' => ?_
  simp only [length_contents] at hi
  have hplace := place_eq hout (show i ≤ size by omega)
  rcases Nat.lt_or_ge i (size - out) with hlt | hge
  · rw [List.getElem_append_left (by simpa [segment] using hlt)]
    rw [if_pos (by omega)] at hplace
    simp [contents, segment, hplace]
  · rw [List.getElem_append_right (by simpa [segment] using hge)]
    rw [if_neg (by omega)] at hplace
    simp only [contents, segment, List.getElem_map, List.getElem_range, hplace, List.length_map, List.length_range]
    congr 1
    omega

end Ring
