import Mathlib.Data.List.TakeWhile
import ThyristorController.Kernel.Kservice

/-!
# The text on the console (`src/kservice.c`)

`rt_kprintf` formats into a static buffer of `RT_CONSOLEBUF_SIZE` characters and hands it to the console: to a device
with a length, without one to `rt_hw_console_output` as a string. `rt_vsnprintf` is told of one character less than the
buffer has, but the length is cut to that number, as if all of them were characters of the text.
-/

namespace ThyristorController.Kservice

open TextBuffer

/-! ## The output -/

/-- `rt_log_buf`: an object in the address space, with place for a character and its end. -/
structure LogBuf where
  addr : BitVec 32
  size : Nat
  two_le : 2 ≤ size
  room : addr.toNat + size < 2 ^ 32

/-- The `n` characters from an address on. -/
def charsAt (mem : BitVec 32 → UInt8) (a : BitVec 32) (n : Nat) : List UInt8 :=
  (List.range n).map fun i => mem (a + BitVec.ofNat 32 i)

/-- The string at an address, of which at most `n` characters are looked at. -/
def stringAt (mem : BitVec 32 → UInt8) (a : BitVec 32) : Nat → List UInt8
  | 0 => []
  | n + 1 => if mem a = 0 then [] else mem a :: stringAt mem (a + 1) n

/-- The length that is handed to the device. -/
def LogBuf.clip (b : LogBuf) (length : BitVec 32) : BitVec 32 :=
  if BitVec.ofNat 32 (b.size - 1) < length then BitVec.ofNat 32 (b.size - 1) else length

/-- `rt_kprintf`: the characters that the console gets, with or without a console device. -/
def rtKprintf (m : BitVec 32 → UInt8) (b : LogBuf) (device : Bool) (fmt : List UInt8) (args : List VaArg) :
    Option (List UInt8) :=
  (rtVsnprintf m b.addr (BitVec.ofNat 32 (b.size - 1)) fmt args).map fun (o, length) =>
    if device then charsAt o.mem b.addr (b.clip length).toNat else stringAt o.mem b.addr 0x100000000

/-- The console gets the text, cut to the characters for which the buffer has place in front of an end, and no null
character that is none of the text. -/
structure Faithful (b : LogBuf) (l out : List UInt8) : Prop where
  exact : out = l.take (b.size - 1)
  noNul : ∀ i : Nat, out[i]? = some 0 → l[i]? = some 0

/-! ## What the console gets -/

section output

variable {mem : BitVec 32 → UInt8} {a : BitVec 32} {t l : List UInt8} {n : Nat}

theorem charsAt_eq (ht : ∀ i (hi : i < t.length), mem (a + BitVec.ofNat 32 i) = t[i]) :
    charsAt mem a t.length = t := by
  apply List.ext_getElem
  · rw [charsAt, List.length_map, List.length_range]
  · intro i _ hi
    simp only [charsAt, List.getElem_map, List.getElem_range]
    exact ht i hi

theorem charsAt_succ : charsAt mem a (n + 1) = charsAt mem a n ++ [mem (a + BitVec.ofNat 32 n)] := by
  rw [charsAt, List.range_succ, List.map_append]
  rfl

theorem stringAt_eq (hn : t.length < n) (ht : ∀ i (hi : i < t.length), mem (a + BitVec.ofNat 32 i) = t[i])
    (hend : mem (a + BitVec.ofNat 32 t.length) = 0) : stringAt mem a n = cString t := by
  induction t generalizing a n with
  | nil =>
    obtain ⟨n, rfl⟩ := Nat.exists_eq_succ_of_ne_zero (Nat.ne_of_gt hn)
    rw [stringAt, if_pos (by simpa using hend)]
    rfl
  | cons c t ih =>
    obtain ⟨n, rfl⟩ := Nat.exists_eq_succ_of_ne_zero (Nat.ne_of_gt (Nat.zero_lt_of_lt hn))
    have hnext (i : Nat) : a + 1 + BitVec.ofNat 32 i = a + BitVec.ofNat 32 (i + 1) := by
      rw [BitVec.add_assoc, Nat.add_comm, BitVec.ofNat_add]
      rfl
    have hfirst : mem a = c := by simpa using ht 0 (Nat.zero_lt_succ _)
    have hrest : stringAt mem (a + 1) n = cString t := by
      refine ih (Nat.lt_of_succ_lt_succ hn) (fun i hi => ?_) ?_
      · rw [hnext, ht (i + 1) (Nat.succ_lt_succ hi), List.getElem_cons_succ]
      · rw [hnext]
        exact hend
    rw [stringAt, hfirst, hrest, cString, cString, List.takeWhile_cons]
    by_cases hc : c = 0 <;> simp [hc]

variable {b : LogBuf} {m : BitVec 32 → UInt8} {fmt : List UInt8} {args : List VaArg}

theorem logBuf_spec (m : BitVec 32 → UInt8) (b : LogBuf) (hl : text fmt args = some l)
    (hroom : b.addr.toNat + l.length + 1 < 2 ^ 32) :
    ∃ o, rtVsnprintf m b.addr (BitVec.ofNat 32 (b.size - 1)) fmt args = some (o, BitVec.ofNat 32 l.length) ∧
      (∀ i (hi : i < (l.take (b.size - 2)).length),
        o.mem (b.addr + BitVec.ofNat 32 i) = (l.take (b.size - 2))[i]) ∧
      o.mem (b.addr + BitVec.ofNat 32 (l.take (b.size - 2)).length) = 0 := by
  have htwo := b.two_le
  have hb := b.room
  have hsize : (BitVec.ofNat 32 (b.size - 1)).toNat = b.size - 1 := by
    rw [BitVec.toNat_ofNat, Nat.mod_eq_of_lt (by omega)]
  obtain ⟨o, heq, -, -, hchars, hend⟩ := rtVsnprintf_spec m b.addr (BitVec.ofNat 32 (b.size - 1)) hl hroom
  rw [hsize] at hchars hend
  refine ⟨o, heq, fun i hi => ?_, ?_⟩
  · rw [List.length_take] at hi
    rw [List.getElem_take]
    exact hchars i (by omega) (by omega)
  · have hlen : (l.take (b.size - 2)).length = min l.length (b.size - 1 - 1) := by
      rw [List.length_take]
      omega
    rw [hlen]
    exact hend (show 0 < (BitVec.ofNat 32 (b.size - 1)).toNat by omega)

theorem rtKprintf_device (m : BitVec 32 → UInt8) (b : LogBuf) (hl : text fmt args = some l)
    (hroom : b.addr.toNat + l.length + 1 < 2 ^ 32) :
    rtKprintf m b true fmt args = some (if l.length + 1 < b.size then l else l.take (b.size - 2) ++ [0]) := by
  have htwo := b.two_le
  have hb := b.room
  obtain ⟨o, heq, hchars, hend⟩ := logBuf_spec m b hl hroom
  have hclip : (b.clip (BitVec.ofNat 32 l.length)).toNat = min l.length (b.size - 1) := by
    have hsize : (BitVec.ofNat 32 (b.size - 1)).toNat = b.size - 1 := by
      rw [BitVec.toNat_ofNat, Nat.mod_eq_of_lt (by omega)]
    have hlen : (BitVec.ofNat 32 l.length).toNat = l.length := by
      rw [BitVec.toNat_ofNat, Nat.mod_eq_of_lt (by omega)]
    unfold LogBuf.clip
    by_cases hlong : BitVec.ofNat 32 (b.size - 1) < BitVec.ofNat 32 l.length
    · rw [if_pos hlong, hsize]
      rw [BitVec.lt_def] at hlong
      omega
    · rw [if_neg hlong, hlen]
      rw [BitVec.lt_def] at hlong
      omega
  rw [rtKprintf, heq, Option.map_some]
  dsimp only
  rw [if_pos rfl, hclip]
  refine congrArg some ?_
  by_cases hfits : l.length + 1 < b.size
  · have hall : l.take (b.size - 2) = l := List.take_of_length_le (by omega)
    rw [hall] at hchars
    rw [if_pos hfits, Nat.min_eq_left (by omega), charsAt_eq hchars]
  · have hkept : (l.take (b.size - 2)).length = b.size - 2 := by
      rw [List.length_take]
      omega
    have hplaces : b.size - 1 = (l.take (b.size - 2)).length + 1 := by omega
    rw [if_neg hfits, Nat.min_eq_right (by omega), hplaces, charsAt_succ, charsAt_eq hchars, hend]

theorem rtKprintf_string (m : BitVec 32 → UInt8) (b : LogBuf) (hl : text fmt args = some l)
    (hroom : b.addr.toNat + l.length + 1 < 2 ^ 32) :
    rtKprintf m b false fmt args = some (cString (l.take (b.size - 2))) := by
  obtain ⟨o, heq, hchars, hend⟩ := logBuf_spec m b hl hroom
  have hshort : (l.take (b.size - 2)).length < 0x100000000 := by
    rw [List.length_take]
    omega
  rw [rtKprintf, heq, Option.map_some]
  dsimp only
  rw [if_neg Bool.false_ne_true, stringAt_eq hshort hchars hend]

/-! ## When it is the text -/

/-- The text lies in the address space, with its end. -/
def Lies (b : LogBuf) (l : List UInt8) : Prop := b.addr.toNat + l.length + 1 < 2 ^ 32

/-- The text leaves two places of the buffer free. Without a device it has no null character either, and for a device
it may be longer if it has one just where the buffer ends with one. -/
def Intact (b : LogBuf) (device : Bool) (l : List UInt8) : Prop :=
  if device then l.length + 1 < b.size ∨ Lies b l ∧ l[b.size - 2]? = some 0 else l.length + 1 < b.size ∧ 0 ∉ l

theorem faithful_iff {out : List UInt8} : Faithful b l out ↔ out = l.take (b.size - 1) := by
  refine ⟨fun h => h.exact, ?_⟩
  rintro rfl
  refine ⟨rfl, fun i hi => ?_⟩
  rw [List.getElem?_take] at hi
  split at hi
  · exact hi
  · cases hi

theorem cString_eq_self : cString l = l ↔ 0 ∉ l := by
  rw [cString, List.takeWhile_eq_self_iff]
  simp only [ne_eq, decide_not, Bool.not_eq_true', decide_eq_false_iff_not]
  exact ⟨fun h hmem => h 0 hmem rfl, fun h c hc he => h (he ▸ hc)⟩

theorem Intact.lies {device : Bool} (h : Intact b device l) : Lies b l := by
  have hshort (hfits : l.length + 1 < b.size) : Lies b l := by
    have hb := b.room
    unfold Lies
    omega
  unfold Intact at h
  split at h
  · exact h.elim hshort fun h => h.1
  · exact hshort h.1

/-- A device gets the text exactly if there is place for it with two to spare, or the null character at the end is one
of the text. -/
theorem faithful_device (hl : text fmt args = some l) (hlies : Lies b l) :
    (∃ out, rtKprintf m b true fmt args = some out ∧ Faithful b l out) ↔ Intact b true l := by
  have htwo := b.two_le
  have hplace : b.size - 1 = b.size - 2 + 1 := by omega
  rw [rtKprintf_device m b hl hlies]
  simp only [Option.some.injEq, exists_eq_left', faithful_iff, Intact, if_true]
  by_cases hfits : l.length + 1 < b.size
  · rw [if_pos hfits, List.take_of_length_le (by omega)]
    exact iff_of_true rfl (.inl hfits)
  · rw [if_neg hfits, hplace, List.take_add_one, List.append_cancel_left_eq]
    have hlast : b.size - 2 < l.length := by omega
    rw [List.getElem?_eq_getElem hlast, Option.toList_some]
    simp [hfits, hlies, eq_comm]

theorem faithful_string (hl : text fmt args = some l) (hlies : Lies b l) :
    (∃ out, rtKprintf m b false fmt args = some out ∧ Faithful b l out) ↔ Intact b false l := by
  have htwo := b.two_le
  rw [rtKprintf_string m b hl hlies]
  simp only [Option.some.injEq, exists_eq_left', faithful_iff, Intact, Bool.false_eq_true, if_false]
  by_cases hfits : l.length + 1 < b.size
  · rw [List.take_of_length_le (by omega), List.take_of_length_le (by omega), cString_eq_self]
    exact (and_iff_right hfits).symm
  · refine iff_of_false (fun heq => ?_) fun h => hfits h.1
    have hlen := congrArg List.length heq
    have hle : (cString (l.take (b.size - 2))).length ≤ (l.take (b.size - 2)).length :=
      (List.takeWhile_sublist _).length_le
    rw [List.length_take] at hlen hle
    omega

/-- For every format and every argument list that matches it: if the text is intact, the console gets it as it should.
A text in the address space comes out as it should only then. -/
theorem kprintf_faithful_iff (m : BitVec 32 → UInt8) (b : LogBuf) (device : Bool) (hmatch : Matches fmt args) :
    ∃ l, text fmt args = some l ∧
      (Intact b device l → ∃ out, rtKprintf m b device fmt args = some out ∧ Faithful b l out) ∧
      (Lies b l → ((∃ out, rtKprintf m b device fmt args = some out ∧ Faithful b l out) ↔ Intact b device l)) := by
  obtain ⟨l, hl⟩ := text_of_matches hmatch
  have hiff (hlies : Lies b l) :
      (∃ out, rtKprintf m b device fmt args = some out ∧ Faithful b l out) ↔ Intact b device l := by
    cases device with
    | true => exact faithful_device hl hlies
    | false => exact faithful_string hl hlies
  exact ⟨l, hl, fun h => (hiff h.lies).mpr h, hiff⟩

end output

/-- A buffer as it is configured. -/
def logBuf : LogBuf := ⟨0x20000000, 512, by decide, by decide⟩

theorem kprintf_faithful_iff_run :
    ∃ out, rtKprintf (fun _ => 0) logBuf true ("n = %d".toList.map ch) [.int 7] = some out ∧
      Faithful logBuf ("n = 7".toList.map ch) out := by
  obtain ⟨l, hl, h, -⟩ := kprintf_faithful_iff (fun _ => 0) logBuf true
    (show Matches ("n = %d".toList.map ch) [.int 7] by decide +kernel)
  obtain rfl : "n = 7".toList.map ch = l :=
    Option.some.inj ((show text _ _ = some _ by decide +kernel).symm.trans hl)
  exact h (.inl (by decide))

/-- A text of 511 characters, as many as the buffer has place for: a device gets 510 of them and a null character. -/
theorem stray_nul : Matches ("%511d".toList.map ch) [.int 7] ∧
    ∃ l out, text ("%511d".toList.map ch) [.int 7] = some l ∧ l.length = 511 ∧ 0 ∉ l ∧
      rtKprintf (fun _ => 0) logBuf true ("%511d".toList.map ch) [.int 7] = some out ∧ out.length = 511 ∧
      out[510]? = some 0 ∧ ¬ Faithful logBuf l out := by
  have htext : text ("%511d".toList.map ch) [.int 7] = some (List.replicate 510 (ch ' ') ++ [ch '7']) := by
    decide +kernel
  have hout : rtKprintf (fun _ => 0) logBuf true ("%511d".toList.map ch) [.int 7] =
      some (List.replicate 510 (ch ' ') ++ [0]) :=
    (rtKprintf_device _ logBuf htext (by decide +kernel)).trans (by decide +kernel)
  refine ⟨by decide +kernel, _, _, htext, by decide +kernel, by decide +kernel, hout, by decide +kernel,
    by decide +kernel, fun h => ?_⟩
  exact absurd h.exact (by decide +kernel)

end ThyristorController.Kservice
