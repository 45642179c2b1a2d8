import Mathlib.Algebra.Ring.Int.Defs
import Mathlib.Algebra.Group.Nat.Defs
import Mathlib.Algebra.BigOperators.Group.List.Basic
import Mathlib.Tactic.Common
import ThyristorController.Lib.Ring
import ThyristorController.Lib.Run

/-!
# Reception by DMA (`bsp/stm32/libraries/HAL_Drivers/drv_usart.c`)

The DMA stores bytes in a circular buffer, and `dma_isr` and `uart_isr` report how many there are behind the place that
the last of them has seen. Neither of them takes into account that the DMA may have gone on from the start of the buffer
in the meantime, but for the case that `dma_isr` finds it exactly there. `lengths_right` says in which runs the lengths
are right.
-/

namespace ThyristorController.UsartDma

open Transition

/-! ## The interrupts -/

/-- `RT_SERIAL_EVENT_RX_DMADONE`. -/
def rtSerialEventRxDmadone : BitVec 32 := 3

/-- The length of such an event in `rt_hw_serial_isr`. -/
def eventLength (event : BitVec 32) : Int := ((event &&& ~~~0xff#32).sshiftRight 8).toInt

/-- The DMA channel and the UART. `stored` bytes have been stored so far, `served` before the last interrupt. `ht`, `tc`
and `idle` are pending interrupts; the line may become idle when there is a byte behind the last time (`busy`). -/
structure DmaRx where
  stored : Nat
  served : Nat
  lastIndex : BitVec 32
  events : List (BitVec 32)
  ht : Bool
  tc : Bool
  idle : Bool
  busy : Bool
  deriving DecidableEq

namespace DmaRx

/-- `__HAL_DMA_GET_COUNTER`. -/
def counter (bufsz : Nat) (s : DmaRx) : BitVec 32 := BitVec.ofNat 32 (bufsz - s.stored % bufsz)

/-- The call of `rt_hw_serial_isr`. -/
def report (s : DmaRx) (recvLen : BitVec 32) : DmaRx :=
  if recvLen ≠ 0 then { s with events := (rtSerialEventRxDmadone ||| recvLen <<< 8) :: s.events } else s

/-- `uart_isr` for an idle line. -/
def uartIsr (bufsz : Nat) (s : DmaRx) : DmaRx :=
  let recvTotalIndex := BitVec.ofNat 32 bufsz - s.counter bufsz
  let recvLen := recvTotalIndex - s.lastIndex
  { s with lastIndex := recvTotalIndex, served := s.stored }.report recvLen

/-- `dma_isr`. -/
def dmaIsr (bufsz : Nat) (s : DmaRx) : DmaRx :=
  let recvTotalIndex := BitVec.ofNat 32 bufsz - s.counter bufsz
  let recvLen := if recvTotalIndex = 0 then BitVec.ofNat 32 bufsz - s.lastIndex else recvTotalIndex - s.lastIndex
  { s with lastIndex := recvTotalIndex, served := s.stored }.report recvLen

/-- The DMA stores a byte; the half-transfer interrupt comes at the place `half`. -/
def store (bufsz half : Nat) (s : DmaRx) : DmaRx :=
  { s with
    stored := s.stored + 1
    ht := s.ht || (s.stored + 1) % bufsz = half
    tc := s.tc || (s.stored + 1) % bufsz = 0
    busy := true }

end DmaRx

inductive DmaAction where
  | store
  | idleLine
  | halfTransfer
  | transferComplete
  | lineIdle
  deriving DecidableEq

/-- Fewer than `bufsz` bytes come between two interrupts. -/
def dmaStep (bufsz half : Nat) (s : DmaRx) : DmaAction → Option DmaRx
  | .store => if s.stored + 1 < s.served + bufsz then some (s.store bufsz half) else none
  | .idleLine => if s.busy then some { s with idle := true, busy := false } else none
  | .halfTransfer => if s.ht then some { s.dmaIsr bufsz with ht := false } else none
  | .transferComplete => if s.tc then some { s.dmaIsr bufsz with tc := false } else none
  | .lineIdle => if s.idle then some { s.uartIsr bufsz with idle := false } else none

/-- Behind `stm32_dma_config`. -/
def DmaRx.start : DmaRx := ⟨0, 0, 0, [], false, false, false, false⟩

def dmaRx (bufsz half : Nat) : System DmaRx DmaAction where
  init s := s = .start
  step := dmaStep bufsz half

/-! ## The lengths -/

/-- The reported lengths. -/
def DmaRx.lengths (s : DmaRx) : List Int := s.events.map eventLength

/-- Every length is a number of bytes in the buffer, and their sum is the number of bytes that the DMA had stored before
the last interrupt. -/
def DmaRx.Balanced (bufsz : Nat) (s : DmaRx) : Prop :=
  (∀ n ∈ s.lengths, 1 ≤ n ∧ n ≤ bufsz) ∧ s.lengths.sum = s.served

/-- The place of the DMA is not in front of that of the last interrupt; where it is the start of the buffer, a half- or
full-transfer interrupt needs that the last one was not there, too. -/
def Proper (bufsz : Nat) (s : DmaRx) : DmaAction → Prop
  | .halfTransfer | .transferComplete =>
    if s.stored % bufsz = 0 then s.lastIndex ≠ 0 else s.lastIndex.toNat ≤ s.stored % bufsz
  | .lineIdle => s.lastIndex.toNat ≤ s.stored % bufsz
  | _ => True

/-- The index of the last interrupt. -/
structure Tracks (bufsz : Nat) (s : DmaRx) : Prop where
  index : s.lastIndex = BitVec.ofNat 32 (s.served % bufsz)
  le : s.served ≤ s.stored
  lt : s.stored < s.served + bufsz

section lemmas

variable {bufsz half a b : Nat} {s s' : DmaRx} {act : DmaAction} {x : BitVec 32}

theorem mask_event (x : BitVec 32) : (rtSerialEventRxDmadone ||| x <<< 8) &&& ~~~0xff#32 = x <<< 8 := by
  have hlow : ∀ i : Fin 32, i.val < 8 → (0xff#32)[i.val] = true := by decide
  have hhigh : ∀ i : Fin 32, 8 ≤ i.val → (0xff#32)[i.val] = false ∧ rtSerialEventRxDmadone[i.val] = false := by decide
  ext i hi
  rw [BitVec.getElem_and, BitVec.getElem_or, BitVec.getElem_not, BitVec.getElem_shiftLeft]
  rcases Nat.lt_or_ge i 8 with hlt | hge
  · rw [hlow ⟨i, hi⟩ hlt]
    simp [hlt]
  · obtain ⟨hmask, hevent⟩ := hhigh ⟨i, hi⟩ hge
    rw [hmask, hevent]
    simp

theorem eventLength_eq (hlo : -2 ^ 23 ≤ x.toInt) (hhi : x.toInt < 2 ^ 23) :
    eventLength (rtSerialEventRxDmadone ||| x <<< 8) = x.toInt := by
  have hshift : (x <<< 8).toInt = x.toInt * 256 := by
    rw [BitVec.toInt_shiftLeft, Nat.shiftLeft_eq]
    have hnat := BitVec.toInt_eq_toNat_cond x
    rw [Int.bmod_eq_iff (by decide)]
    refine ⟨by omega, by omega, ?_⟩
    split_ifs at hnat
    · exact ⟨0, by omega⟩
    · exact ⟨-256, by omega⟩
  rw [eventLength, mask_event, BitVec.toInt_sshiftRight, hshift, Int.shiftRight_eq_div_pow]
  omega

theorem toInt_sub (ha : a < 2 ^ 16) (hb : b < 2 ^ 16) :
    (BitVec.ofNat 32 a - BitVec.ofNat 32 b).toInt = (a : Int) - b := by
  have htoInt : ∀ n : Nat, n < 2 ^ 16 → (BitVec.ofNat 32 n).toInt = n := by
    intro n hn
    rw [BitVec.toInt_eq_toNat_of_lt, BitVec.toNat_ofNat, Nat.mod_eq_of_lt (by omega)]
    rw [BitVec.toNat_ofNat, Nat.mod_eq_of_lt (by omega)]
    omega
  rw [BitVec.toInt_sub, htoInt a ha, htoInt b hb]
  exact Int.bmod_eq_of_le_mul_two (by omega) (by omega)

theorem recvTotalIndex_eq (hpos : 0 < bufsz) (hmax : bufsz < 2 ^ 16) :
    BitVec.ofNat 32 bufsz - s.counter bufsz = BitVec.ofNat 32 (s.stored % bufsz) := by
  have hlt : s.stored % bufsz < bufsz := Nat.mod_lt _ hpos
  apply BitVec.eq_of_toInt_eq
  rw [DmaRx.counter, toInt_sub hmax (by omega)]
  have hzero := toInt_sub (show s.stored % bufsz < 2 ^ 16 by omega) (show 0 < 2 ^ 16 by omega)
  rw [BitVec.sub_zero] at hzero
  rw [hzero]
  omega

theorem ofNat_eq_zero (ha : a < 2 ^ 16) : BitVec.ofNat 32 a = 0 ↔ a = 0 := by
  constructor
  · intro h
    have hnat := congrArg BitVec.toNat h
    rw [BitVec.toNat_ofNat, Nat.mod_eq_of_lt (by omega)] at hnat
    exact hnat
  · rintro rfl
    rfl

theorem toNat_index (ht : Tracks bufsz s) (hpos : 0 < bufsz) (hmax : bufsz < 2 ^ 16) :
    s.lastIndex.toNat = s.served % bufsz := by
  have hlt : s.served % bufsz < bufsz := Nat.mod_lt _ hpos
  rw [ht.index, BitVec.toNat_ofNat, Nat.mod_eq_of_lt (by omega)]

theorem stored_mod (ht : Tracks bufsz s) (hpos : 0 < bufsz) :
    s.stored % bufsz = if s.served % bufsz + (s.stored - s.served) < bufsz then s.served % bufsz + (s.stored - s.served)
      else s.served % bufsz + (s.stored - s.served) - bufsz := by
  have hle := ht.le
  have hlt := ht.lt
  rw [← Ring.place_eq (Nat.mod_lt _ hpos) (by omega), Nat.mod_add_mod]
  congr 1
  omega

theorem report_balanced {index : BitVec 32} (hb : s.Balanced bufsz) (ht : Tracks bufsz s)
    (hlo : -2 ^ 23 ≤ x.toInt) (hhi : x.toInt < 2 ^ 23) :
    (DmaRx.report { s with lastIndex := index, served := s.stored } x).Balanced bufsz ↔
      x.toInt = (s.stored : Int) - s.served := by
  have hle := ht.le
  have hlt := ht.lt
  obtain ⟨hbounds, hsum⟩ := hb
  unfold DmaRx.report
  by_cases hx : x = 0
  · rw [if_neg (not_not.mpr hx), hx, show (0 : BitVec 32).toInt = 0 from rfl]
    constructor
    · rintro ⟨-, hsum'⟩
      have hsame : s.lengths.sum = s.stored := hsum'
      omega
    · intro h
      refine ⟨hbounds, ?_⟩
      show s.lengths.sum = s.stored
      omega
  · have hne : x.toInt ≠ 0 := fun h => hx (BitVec.eq_of_toInt_eq h)
    rw [if_pos hx]
    have hlengths : DmaRx.lengths { s with
        lastIndex := index, served := s.stored, events := (rtSerialEventRxDmadone ||| x <<< 8) :: s.events } =
        x.toInt :: s.lengths := by
      rw [DmaRx.lengths, List.map_cons, eventLength_eq hlo hhi]
      rfl
    unfold DmaRx.Balanced
    rw [hlengths, List.sum_cons]
    show _ ∧ _ = (s.stored : Int) ↔ _
    constructor
    · rintro ⟨-, hsum'⟩
      omega
    · intro h
      refine ⟨fun n hn => ?_, by omega⟩
      rcases List.mem_cons.mp hn with rfl | hn
      · omega
      · exact hbounds n hn

/-- A report from one place of the buffer to a later one is right if the DMA has not come around. -/
theorem report_ahead {index : BitVec 32} (hb : s.Balanced bufsz) (ht : Tracks bufsz s) (hpos : 0 < bufsz)
    (hmax : bufsz < 2 ^ 16) :
    (DmaRx.report { s with lastIndex := index, served := s.stored }
      (BitVec.ofNat 32 (s.stored % bufsz) - BitVec.ofNat 32 (s.served % bufsz))).Balanced bufsz ↔
        s.served % bufsz ≤ s.stored % bufsz := by
  have hserved : s.served % bufsz < bufsz := Nat.mod_lt _ hpos
  have hstored : s.stored % bufsz < bufsz := Nat.mod_lt _ hpos
  have hplace := stored_mod ht hpos
  have hle := ht.le
  have hlt := ht.lt
  have hlen := toInt_sub (show s.stored % bufsz < 2 ^ 16 by omega) (show s.served % bufsz < 2 ^ 16 by omega)
  rw [report_balanced hb ht (by omega) (by omega), hlen]
  split_ifs at hplace
  · omega
  · omega

theorem uartIsr_balanced (hb : s.Balanced bufsz) (ht : Tracks bufsz s) (hpos : 0 < bufsz) (hmax : bufsz < 2 ^ 16) :
    (s.uartIsr bufsz).Balanced bufsz ↔ s.lastIndex.toNat ≤ s.stored % bufsz := by
  unfold DmaRx.uartIsr
  dsimp only
  rw [toNat_index ht hpos hmax, recvTotalIndex_eq hpos hmax, ht.index]
  exact report_ahead hb ht hpos hmax

theorem dmaIsr_balanced (hb : s.Balanced bufsz) (ht : Tracks bufsz s) (hpos : 0 < bufsz) (hmax : bufsz < 2 ^ 16) :
    (s.dmaIsr bufsz).Balanced bufsz ↔
      if s.stored % bufsz = 0 then s.lastIndex ≠ 0 else s.lastIndex.toNat ≤ s.stored % bufsz := by
  have hserved : s.served % bufsz < bufsz := Nat.mod_lt _ hpos
  have hstored : s.stored % bufsz < bufsz := Nat.mod_lt _ hpos
  unfold DmaRx.dmaIsr
  dsimp only
  rw [toNat_index ht hpos hmax, recvTotalIndex_eq hpos hmax, ht.index]
  by_cases hzero : s.stored % bufsz = 0
  · -- The DMA is at the start of the buffer: all places behind the last one have been filled.
    rw [if_pos hzero, if_pos ((ofNat_eq_zero (by omega)).mpr hzero), ne_eq, ofNat_eq_zero (by omega)]
    have hplace := stored_mod ht hpos
    have hle := ht.le
    have hlt := ht.lt
    have hlen := toInt_sub hmax (show s.served % bufsz < 2 ^ 16 by omega)
    rw [report_balanced hb ht (by omega) (by omega), hlen]
    split_ifs at hplace
    · omega
    · omega
  · rw [if_neg hzero, if_neg fun hn => hzero ((ofNat_eq_zero (by omega)).mp hn)]
    exact report_ahead hb ht hpos hmax

/-! ### Runs -/

theorem report_tracks {recvLen : BitVec 32} (hpos : 0 < bufsz) (hmax : bufsz < 2 ^ 16) :
    Tracks bufsz (DmaRx.report { s with
      lastIndex := BitVec.ofNat 32 bufsz - s.counter bufsz, served := s.stored } recvLen) := by
  unfold DmaRx.report
  split_ifs
  · exact ⟨recvTotalIndex_eq hpos hmax, Nat.le_refl _, Nat.lt_add_of_pos_right hpos⟩
  · exact ⟨recvTotalIndex_eq hpos hmax, Nat.le_refl _, Nat.lt_add_of_pos_right hpos⟩

theorem step_tracks (ht : Tracks bufsz s) (hpos : 0 < bufsz) (hmax : bufsz < 2 ^ 16)
    (hs : dmaStep bufsz half s act = some s') : Tracks bufsz s' := by
  cases act with
  | store =>
    obtain ⟨hlt, hs⟩ := Option.ite_none_right_eq_some.mp hs
    obtain rfl := Option.some.inj hs
    exact ⟨ht.index, Nat.le_succ_of_le ht.le, hlt⟩
  | idleLine =>
    obtain ⟨-, hs⟩ := Option.ite_none_right_eq_some.mp hs
    obtain rfl := Option.some.inj hs
    exact ⟨ht.index, ht.le, ht.lt⟩
  | halfTransfer | transferComplete =>
    obtain ⟨-, hs⟩ := Option.ite_none_right_eq_some.mp hs
    obtain rfl := Option.some.inj hs
    have htracks : Tracks bufsz (s.dmaIsr bufsz) := report_tracks hpos hmax
    exact ⟨htracks.index, htracks.le, htracks.lt⟩
  | lineIdle =>
    obtain ⟨-, hs⟩ := Option.ite_none_right_eq_some.mp hs
    obtain rfl := Option.some.inj hs
    have htracks : Tracks bufsz (s.uartIsr bufsz) := report_tracks hpos hmax
    exact ⟨htracks.index, htracks.le, htracks.lt⟩

theorem tracks_run {h : History DmaRx DmaAction} (hpos : 0 < bufsz) (hmax : bufsz < 2 ^ 16)
    (hrun : (dmaRx bufsz half).Run h s) : Tracks bufsz s := by
  refine hrun.always (I := fun _ s => Tracks bufsz s) ?_ fun _ _ _ _ _ ht hs => step_tracks ht hpos hmax hs
  rintro s rfl
  refine ⟨?_, Nat.le_refl _, ?_⟩
  · show 0#32 = BitVec.ofNat 32 (0 % bufsz)
    rw [Nat.zero_mod]
  · show 0 < 0 + bufsz
    omega

theorem step_balanced (hb : s.Balanced bufsz) (ht : Tracks bufsz s) (hpos : 0 < bufsz) (hmax : bufsz < 2 ^ 16)
    (hs : dmaStep bufsz half s act = some s') : s'.Balanced bufsz ↔ Proper bufsz s act := by
  cases act with
  | store | idleLine =>
    obtain ⟨-, hs⟩ := Option.ite_none_right_eq_some.mp hs
    obtain rfl := Option.some.inj hs
    exact iff_of_true hb trivial
  | halfTransfer | transferComplete =>
    obtain ⟨-, hs⟩ := Option.ite_none_right_eq_some.mp hs
    obtain rfl := Option.some.inj hs
    exact dmaIsr_balanced hb ht hpos hmax
  | lineIdle =>
    obtain ⟨-, hs⟩ := Option.ite_none_right_eq_some.mp hs
    obtain rfl := Option.some.inj hs
    exact uartIsr_balanced hb ht hpos hmax

instance (s : DmaRx) : Decidable (s.Balanced bufsz) := by
  unfold DmaRx.Balanced
  infer_instance

instance (s : DmaRx) (act : DmaAction) : Decidable (Proper bufsz s act) := by
  cases act
  all_goals
    unfold Proper
    infer_instance

/-- In a buffer of 4 bytes: the line is idle at the end of the buffer, and the interrupt comes before the one for the
full transfer; the half- and the full-transfer interrupt both come at the end of the buffer; and the full-transfer
interrupt comes when the DMA has gone on from the start. -/
theorem lengths_wrong :
    (∃ h s, (dmaRx 4 2).Run h s ∧ ¬ s.Balanced 4 ∧ s.lengths = [-3, 3]) ∧
    (∃ h s, (dmaRx 4 2).Run h s ∧ ¬ s.Balanced 4 ∧ s.lengths = [4, 3, 1] ∧ s.stored = 4) ∧
    ∃ h s, (dmaRx 4 2).Run h s ∧ ¬ s.Balanced 4 ∧ s.lengths = [-2, 3] := by
  refine ⟨?_, ?_, ?_⟩
  · exact System.exists_run rfl [.store, .store, .store, .halfTransfer, .store, .idleLine, .lineIdle] _
      (by decide +kernel)
  · exact System.exists_run rfl [.store, .idleLine, .lineIdle, .store, .store, .store, .halfTransfer,
      .transferComplete] _ (by decide +kernel)
  · exact System.exists_run rfl [.store, .store, .store, .halfTransfer, .store, .store, .transferComplete] _
      (by decide +kernel)

/-- The account is right in every state of a run exactly if every interrupt finds the DMA not in front of the place of
the last one, or, for a half or full transfer, at the start of the buffer when the last one was elsewhere. -/
theorem lengths_right {h : History DmaRx DmaAction} (hpos : 0 < bufsz) (hmax : bufsz < 2 ^ 16)
    (hrun : (dmaRx bufsz half).Run h s) :
    (Throughout (fun _ s _ => s.Balanced bufsz) h ∧ s.Balanced bufsz) ↔
      Throughout (fun _ s act => Proper bufsz s act) h := by
  refine hrun.throughout_iff ?_ fun h s act s' hr hb hs => step_balanced hb (tracks_run hpos hmax hr) hpos hmax hs
  rintro s rfl
  exact ⟨fun n hn => by contradiction, rfl⟩

/-- Interrupts in time, through the end of a buffer of 4 bytes. -/
theorem lengths_right_run : ∃ h s, (dmaRx 4 2).Run h s ∧ s.stored = 6 ∧ s.Balanced 4 := by
  obtain ⟨h, s, hrun, hP, hstored⟩ := System.exists_run (S := dmaRx 4 2) rfl
    [.store, .idleLine, .lineIdle, .store, .halfTransfer, .store, .store, .transferComplete, .store, .store,
      .halfTransfer] (fun h s => Throughout (fun _ s act => Proper 4 s act) h ∧ s.stored = 6) (by decide +kernel)
  exact ⟨h, s, hrun, hstored, ((lengths_right (by decide) (by decide) hrun).mpr hP).2⟩

end lemmas

end ThyristorController.UsartDma
