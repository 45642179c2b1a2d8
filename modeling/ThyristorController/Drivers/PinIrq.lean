import Mathlib.Logic.Function.Basic
import ThyristorController.Lib.Run
import ThyristorController.Kernel.Scheduler

/-!
# Interrupt lines of the pins (`bsp/stm32/libraries/HAL_Drivers/drv_gpio.c`)

The pins with the same number in all ports share an interrupt line, and with it an entry of `pin_irq_hdr_tab` and a bit
of `pin_irq_enable_mask`. `stm32_pin_attach_irq` compares its pin with the one of the entry; `stm32_pin_dettach_irq` and
`stm32_pin_irq_enable` do not, so that they act on the entry of whichever pin has it (`lines_owned`).
-/

namespace ThyristorController.PinIrq

open Transition

/-! ## Pins and lines -/

/-- `PIN_PORT`. -/
def pinPort (pin : Int) : Nat := (pin / 16 % 16).toNat

/-- `PIN_NO`. -/
def pinNo (pin : Int) : Nat := (pin % 16).toNat

/-- `PIN_STPIN`. -/
def pinStpin (pin : Int) : BitVec 32 := 1#32 <<< pinNo pin

/-- `PIN_STPORT_MAX` of a chip whose last port is `GPIOI`. -/
def pinStportMax : Nat := 9

/-- `-1` is `none`. -/
def bit2bitno (bit : BitVec 32) : Option Nat := (List.range 32).find? fun i => 1#32 <<< i = bit

/-- The index of a pin into `pin_irq_map` and `pin_irq_hdr_tab`. -/
def irqIndex (pin : Int) : Option (Fin 16) := do
  let i ← bit2bitno (pinStpin pin)
  if h : i < 16 then some ⟨i, h⟩ else none

inductive IrqNo where
  | exti0 | exti1 | exti2 | exti3 | exti4 | exti9_5 | exti15_10
deriving DecidableEq

/-- `struct pin_irq_map`. -/
structure PinIrqMap where
  pinbit : BitVec 32
  irqno : IrqNo

def pinIrqMap (line : Fin 16) : PinIrqMap where
  pinbit := 1#32 <<< line.val
  irqno :=
    match line.val with
    | 0 => .exti0
    | 1 => .exti1
    | 2 => .exti2
    | 3 => .exti3
    | 4 => .exti4
    | n + 5 => if n < 5 then .exti9_5 else .exti15_10

/-- A value stored in an `rt_int16_t`. -/
def toInt16 (n : Int) : Int := n.bmod 65536

/-! ## The table -/

/-- `RT_ENOSYS`, which the source returns with either sign. -/
def rtEnosys : Int := 6

/-- `RT_EBUSY`. -/
def rtEbusy : Int := 7

theorem enosys_ne : -rtEnosys ≠ rtEok := by decide

theorem ebusy_ne : rtEbusy ≠ rtEok := by decide

variable {H A : Type}

/-- `struct rt_pin_irq_hdr`. -/
structure RtPinIrqHdr (H A : Type) where
  pin : Int
  mode : Nat
  hdr : Option H
  args : Option A
deriving DecidableEq

/-- `pin_irq_hdr_tab` and `pin_irq_enable_mask`. -/
structure PinIrqs (H A : Type) where
  tab : Fin 16 → RtPinIrqHdr H A
  enableMask : BitVec 32

def noIrq : RtPinIrqHdr H A := ⟨-1, 0, none, none⟩

/-- What `HAL_GPIO_Init` is told of an interrupt pin. -/
inductive GpioIt where
  | risingPulldown | fallingPullup | risingFallingNopull
deriving DecidableEq

/-- The calls of the `HAL`; `init` is absent where no case of the `switch` sets it. -/
inductive HalCall where
  | gpioInit (pin : Int) (init : Option GpioIt)
  | gpioDeInit (pin : Int)
  | nvicSetPriority (irqno : IrqNo)
  | nvicEnableIrq (irqno : IrqNo)
  | nvicDisableIrq (irqno : IrqNo)

/-- `stm32_pin_attach_irq`. -/
def stm32PinAttachIrq [DecidableEq H] [DecidableEq A] (s : PinIrqs H A) (pin : Int) (mode : Nat) (hdr : Option H)
    (args : Option A) : PinIrqs H A × Int :=
  if pinStportMax ≤ pinPort pin then (s, -rtEnosys)
  else
    match irqIndex pin with
    | none => (s, rtEnosys)
    | some irqindex =>
      let entry := s.tab irqindex
      if entry.pin = pin ∧ entry.hdr = hdr ∧ entry.mode = mode ∧ entry.args = args then (s, rtEok)
      else if entry.pin ≠ -1 then (s, rtEbusy)
      else ({ s with tab := Function.update s.tab irqindex ⟨toInt16 pin, mode % 65536, hdr, args⟩ }, rtEok)

/-- `stm32_pin_dettach_irq`. -/
def stm32PinDettachIrq (s : PinIrqs H A) (pin : Int) : PinIrqs H A × Int :=
  if pinStportMax ≤ pinPort pin then (s, -rtEnosys)
  else
    match irqIndex pin with
    | none => (s, rtEnosys)
    | some irqindex =>
      if (s.tab irqindex).pin = -1 then (s, rtEok)
      else ({ s with tab := Function.update s.tab irqindex noIrq }, rtEok)

/-- The `switch` over the mode of the entry. -/
def gpioIt : Nat → Option GpioIt
  | 0 => some .risingPulldown
  | 1 => some .fallingPullup
  | 2 => some .risingFallingNopull
  | _ => none

/-- The interrupt is turned off with the last line that has it. -/
def nvicDisable (irqmap : PinIrqMap) (enableMask : BitVec 32) : List HalCall :=
  if 0x20 ≤ irqmap.pinbit ∧ irqmap.pinbit ≤ 0x200 then
    if enableMask &&& 0x3E0 = 0 then [.nvicDisableIrq irqmap.irqno] else []
  else if 0x400 ≤ irqmap.pinbit ∧ irqmap.pinbit ≤ 0x8000 then
    if enableMask &&& 0xFC00 = 0 then [.nvicDisableIrq irqmap.irqno] else []
  else [.nvicDisableIrq irqmap.irqno]

/-- `stm32_pin_irq_enable`: `enabled` is `PIN_IRQ_DISABLE` (0), `PIN_IRQ_ENABLE` (1), or neither. -/
def stm32PinIrqEnable (s : PinIrqs H A) (pin : Int) (enabled : Nat) : PinIrqs H A × Int × List HalCall :=
  if pinStportMax ≤ pinPort pin then (s, -rtEnosys, [])
  else if enabled = 1 then
    match irqIndex pin with
    | none => (s, rtEnosys, [])
    | some irqindex =>
      if (s.tab irqindex).pin = -1 then (s, rtEnosys, [])
      else
        let irqmap := pinIrqMap irqindex
        ({ s with enableMask := s.enableMask ||| irqmap.pinbit }, rtEok,
          [.gpioInit pin (gpioIt (s.tab irqindex).mode), .nvicSetPriority irqmap.irqno, .nvicEnableIrq irqmap.irqno])
  else if enabled = 0 then
    match irqIndex pin with
    | none => (s, rtEnosys, [])
    | some irqindex =>
      let irqmap := pinIrqMap irqindex
      let enableMask := s.enableMask &&& ~~~irqmap.pinbit
      ({ s with enableMask := enableMask }, rtEok, .gpioDeInit pin :: nvicDisable irqmap enableMask)
  else (s, -rtEnosys, [])

/-- `pin_irq_hdr`: the handler that is run, and its argument. -/
def pinIrqHdr (s : PinIrqs H A) (irqno : Fin 16) : Option (H × Option A) :=
  (s.tab irqno).hdr.map fun hdr => (hdr, (s.tab irqno).args)

/-! ## Calls and edges -/

inductive IrqAction (H A : Type) where
  | attach (pin : Int) (mode : Nat) (hdr : Option H) (args : Option A)
  | dettach (pin : Int)
  | enable (pin : Int) (enabled : Nat)
  | edge (line : Fin 16)
deriving DecidableEq

/-- The pin that an operation names. -/
def IrqAction.pin : IrqAction H A → Option Int
  | .attach pin _ _ _ | .dettach pin | .enable pin _ => some pin
  | .edge _ => none

variable [DecidableEq H] [DecidableEq A]

/-- The state and the error code behind an operation; an edge, of which `HAL_GPIO_EXTI_Callback` tells `pin_irq_hdr`,
changes neither. -/
def call (s : PinIrqs H A) : IrqAction H A → PinIrqs H A × Int
  | .attach pin mode hdr args => stm32PinAttachIrq s pin mode hdr args
  | .dettach pin => stm32PinDettachIrq s pin
  | .enable pin enabled => ((stm32PinIrqEnable s pin enabled).1, (stm32PinIrqEnable s pin enabled).2.1)
  | .edge _ => (s, rtEok)

def irqLines (H A : Type) [DecidableEq H] [DecidableEq A] : System (PinIrqs H A) (IrqAction H A) where
  init s := s = ⟨fun _ => noIrq, 0⟩
  step s a := some (call s a).1

variable {s s' : PinIrqs H A} {a : IrqAction H A} {h : History (PinIrqs H A) (IrqAction H A)} {pin : Int} {mode : Nat}
  {hdr : Option H} {args : Option A}

/-! ## Owners -/

/-- The line of a pin. -/
def lineOf (pin : Int) : Fin 16 := Fin.ofNat 16 (pinNo pin)

/-- The line of the pin has an owner, and this is another pin. -/
def Foreign (s : PinIrqs H A) (pin : Int) : Prop := (s.tab (lineOf pin)).pin ≠ -1 ∧ (s.tab (lineOf pin)).pin ≠ pin

instance (s : PinIrqs H A) (pin : Int) : Decidable (Foreign s pin) := inferInstanceAs (Decidable (_ ∧ _))

/-- An operation on a pin that is not the owner of its line returns an error, and leaves the owner alone. -/
def Respects (s : PinIrqs H A) (a : IrqAction H A) : Prop :=
  ∀ pin ∈ a.pin, Foreign s pin → (call s a).2 ≠ rtEok ∧ (call s a).1.tab (lineOf pin) = s.tab (lineOf pin) ∧
    (call s a).1.enableMask.getLsbD (lineOf pin).val = s.enableMask.getLsbD (lineOf pin).val

/-- A call that detaches, enables or disables names the owner of the line, if there is one. Calls that are refused for
their port or their flag may name any pin. -/
def Proper (s : PinIrqs H A) : IrqAction H A → Prop
  | .dettach pin => Foreign s pin → pinStportMax ≤ pinPort pin
  | .enable pin enabled => Foreign s pin → pinStportMax ≤ pinPort pin ∨ 1 < enabled
  | .attach _ _ _ _ | .edge _ => True

/-- The pin, as the table has it, gets the line for a handler, or has it already. -/
def Attaches (pin : Int) (hdr : Option H) (args : Option A) (s : PinIrqs H A) : IrqAction H A → Prop
  | .attach p mode hdr' args' =>
    (toInt16 p = pin ∧ hdr' = hdr ∧ args' = args) ∧ (stm32PinAttachIrq s p mode hdr' args').2 = rtEok
  | .dettach _ | .enable _ _ | .edge _ => False

def Detaches (pin : Int) (_ : PinIrqs H A) (a : IrqAction H A) : Prop := a = .dettach pin

/-- An edge runs the handler of a pin that has been attached, and not detached since. -/
def RunsOwner (h : History (PinIrqs H A) (IrqAction H A)) (s : PinIrqs H A) (a : IrqAction H A) : Prop :=
  ∀ pin hdr args, a = .edge (lineOf pin) → Since (Attaches pin hdr args) (Detaches pin) h →
    pinIrqHdr s (lineOf pin) = hdr.map fun hdr => (hdr, args)

/-! ## The operations by line -/

theorem bit2bitno_shift : ∀ i : Fin 32, bit2bitno (1#32 <<< i.val) = some i.val := by decide

theorem irqIndex_eq (pin : Int) : irqIndex pin = some (lineOf pin) := by
  have hno : pinNo pin < 16 := by
    unfold pinNo
    omega
  have hbit : bit2bitno (pinStpin pin) = some (pinNo pin) := bit2bitno_shift ⟨pinNo pin, by omega⟩
  simp only [irqIndex, hbit, Option.bind_eq_bind, Option.bind_some, dif_pos hno]
  congr 1
  exact Fin.ext (Nat.mod_eq_of_lt hno).symm

theorem stm32PinAttachIrq_eq (s : PinIrqs H A) (pin : Int) (mode : Nat) (hdr : Option H) (args : Option A) :
    stm32PinAttachIrq s pin mode hdr args =
      if pinStportMax ≤ pinPort pin then (s, -rtEnosys)
      else if s.tab (lineOf pin) = ⟨pin, mode, hdr, args⟩ then (s, rtEok)
      else if (s.tab (lineOf pin)).pin ≠ -1 then (s, rtEbusy)
      else ({ s with tab := Function.update s.tab (lineOf pin) ⟨toInt16 pin, mode % 65536, hdr, args⟩ }, rtEok) := by
  have hentry : ∀ e : RtPinIrqHdr H A, (e.pin = pin ∧ e.hdr = hdr ∧ e.mode = mode ∧ e.args = args) ↔
      e = ⟨pin, mode, hdr, args⟩ := by
    rintro ⟨p, m, f, x⟩
    simp only [RtPinIrqHdr.mk.injEq]
    tauto
  simp only [stm32PinAttachIrq, irqIndex_eq, hentry]

omit [DecidableEq H] [DecidableEq A] in
theorem stm32PinDettachIrq_eq (s : PinIrqs H A) (pin : Int) :
    stm32PinDettachIrq s pin =
      if pinStportMax ≤ pinPort pin then (s, -rtEnosys)
      else if (s.tab (lineOf pin)).pin = -1 then (s, rtEok)
      else ({ s with tab := Function.update s.tab (lineOf pin) noIrq }, rtEok) := by
  simp only [stm32PinDettachIrq, irqIndex_eq]

omit [DecidableEq H] [DecidableEq A] in
/-- Enabling and disabling leave the table alone, and fail only for the port, the flag or a free line. -/
theorem stm32PinIrqEnable_spec (s : PinIrqs H A) (pin : Int) (enabled : Nat) :
    (stm32PinIrqEnable s pin enabled).1.tab = s.tab ∧
      ((stm32PinIrqEnable s pin enabled).2.1 ≠ rtEok → (stm32PinIrqEnable s pin enabled).1 = s) ∧
      ((s.tab (lineOf pin)).pin ≠ -1 → ((stm32PinIrqEnable s pin enabled).2.1 ≠ rtEok ↔
        pinStportMax ≤ pinPort pin ∨ 1 < enabled)) := by
  simp only [stm32PinIrqEnable, irqIndex_eq]
  split_ifs with hport hone hfree hzero
  · exact ⟨rfl, fun _ => rfl, fun _ => iff_of_true enosys_ne (.inl hport)⟩
  · exact ⟨rfl, fun _ => rfl, fun h => absurd hfree h⟩
  · exact ⟨rfl, fun h => absurd rfl h, fun _ => iff_of_false (fun h => h rfl) (by omega)⟩
  · exact ⟨rfl, fun h => absurd rfl h, fun _ => iff_of_false (fun h => h rfl) (by omega)⟩
  · exact ⟨rfl, fun _ => rfl, fun _ => iff_of_true enosys_ne (.inr (by omega))⟩

theorem call_error (herr : (call s a).2 ≠ rtEok) : (call s a).1 = s := by
  cases a with
  | attach pin mode hdr args =>
    simp only [call, stm32PinAttachIrq_eq] at herr ⊢
    split_ifs at herr ⊢ <;> first | rfl | exact absurd rfl herr
  | dettach pin =>
    simp only [call, stm32PinDettachIrq_eq] at herr ⊢
    split_ifs at herr ⊢ <;> first | rfl | exact absurd rfl herr
  | enable pin enabled => exact (stm32PinIrqEnable_spec s pin enabled).2.1 herr
  | edge line => rfl

/-- What an operation can do to an entry: nothing, fill a free one, or free one that is in use. -/
theorem call_tab (s : PinIrqs H A) (a : IrqAction H A) (line : Fin 16) :
    (call s a).1.tab line = s.tab line ∨
      (∃ pin mode hdr args, a = .attach pin mode hdr args ∧ line = lineOf pin ∧ (s.tab line).pin = -1 ∧
        (call s a).1.tab line = ⟨toInt16 pin, mode % 65536, hdr, args⟩) ∨
      ∃ pin, a = .dettach pin ∧ line = lineOf pin ∧ (¬ pinStportMax ≤ pinPort pin ∧ (s.tab line).pin ≠ -1) ∧
        (call s a).1.tab line = noIrq := by
  cases a with
  | attach pin mode hdr args =>
    simp only [call, stm32PinAttachIrq_eq]
    split_ifs with hport hsame hbusy
    · exact .inl rfl
    · exact .inl rfl
    · exact .inl rfl
    · rcases eq_or_ne line (lineOf pin) with rfl | hne
      · exact .inr (.inl ⟨pin, mode, hdr, args, rfl, rfl, not_not.mp hbusy, Function.update_self ..⟩)
      · exact .inl (Function.update_of_ne hne ..)
  | dettach pin =>
    simp only [call, stm32PinDettachIrq_eq]
    split_ifs with hport hfree
    · exact .inl rfl
    · exact .inl rfl
    · rcases eq_or_ne line (lineOf pin) with rfl | hne
      · exact .inr (.inr ⟨pin, rfl, rfl, ⟨hport, hfree⟩, Function.update_self ..⟩)
      · exact .inl (Function.update_of_ne hne ..)
  | enable pin enabled => exact .inl (congrFun (stm32PinIrqEnable_spec s pin enabled).1 line)
  | edge line' => exact .inl rfl

theorem call_foreign (hpin : pin ∈ a.pin) (hforeign : Foreign s pin) : (call s a).2 ≠ rtEok ↔ Proper s a := by
  cases a with
  | attach p mode hdr args =>
    obtain rfl : p = pin := Option.some.inj hpin
    refine iff_of_true ?_ trivial
    simp only [call, stm32PinAttachIrq_eq]
    split_ifs with hport hsame
    · exact enosys_ne
    · exact absurd (congrArg RtPinIrqHdr.pin hsame) hforeign.2
    · exact ebusy_ne
    · exact absurd hforeign.1 ‹_›
  | dettach p =>
    obtain rfl : p = pin := Option.some.inj hpin
    simp only [call, stm32PinDettachIrq_eq, Proper]
    split_ifs with hport hfree
    · exact iff_of_true enosys_ne fun _ => hport
    · exact absurd hfree hforeign.1
    · exact iff_of_false (fun h => h rfl) fun h => hport (h hforeign)
  | enable p enabled =>
    obtain rfl : p = pin := Option.some.inj hpin
    have hspec := (stm32PinIrqEnable_spec s p enabled).2.2 hforeign.1
    exact hspec.trans ⟨fun h _ => h, fun h => h hforeign⟩
  | edge line => cases hpin

theorem respects_iff : Respects s a ↔ Proper s a := by
  constructor
  · intro hrespects
    by_cases hforeign : ∃ pin ∈ a.pin, Foreign s pin
    · obtain ⟨pin, hpin, hf⟩ := hforeign
      exact (call_foreign hpin hf).mp (hrespects pin hpin hf).1
    · cases a with
      | attach p mode hdr args => trivial
      | dettach p => exact fun hf => absurd ⟨p, rfl, hf⟩ hforeign
      | enable p enabled => exact fun hf => absurd ⟨p, rfl, hf⟩ hforeign
      | edge line => trivial
  · intro hproper pin hpin hforeign
    have herr := (call_foreign hpin hforeign).mpr hproper
    rw [call_error herr]
    exact ⟨herr, rfl, rfl⟩

/-! ## Runs -/

/-- An entry holds the pin in 16 bits. -/
def TabOk (s : PinIrqs H A) : Prop := ∀ line, toInt16 (s.tab line).pin = (s.tab line).pin

/-- The pin has the line, for this handler. -/
structure Owns (s : PinIrqs H A) (pin : Int) (hdr : Option H) (args : Option A) : Prop where
  valid : pin ≠ -1
  owner : (s.tab (lineOf pin)).pin = pin
  hdr : (s.tab (lineOf pin)).hdr = hdr
  args : (s.tab (lineOf pin)).args = args

theorem toInt16_lineOf (pin : Int) : lineOf (toInt16 pin) = lineOf pin := by
  have hmod : toInt16 pin % 16 = pin % 16 := by
    rw [toInt16, Int.bmod_def]
    split_ifs <;> omega
  unfold lineOf pinNo
  rw [hmod]

theorem toInt16_ne {pin : Int} (hport : ¬ pinStportMax ≤ pinPort pin) : toInt16 pin ≠ -1 := by
  unfold pinStportMax pinPort at hport
  rw [toInt16, Int.bmod_def]
  split_ifs <;> omega

theorem toInt16_toInt16 (pin : Int) : toInt16 (toInt16 pin) = toInt16 pin := Int.bmod_bmod

theorem tabOk_step (hok : TabOk s) : TabOk (call s a).1 := by
  intro line
  obtain hsame | ⟨pin, mode, hdr, args, -, -, -, htab⟩ | ⟨pin, -, -, -, htab⟩ := call_tab s a line
  · rw [hsame]
    exact hok line
  · rw [htab]
    exact toInt16_toInt16 pin
  · rw [htab]
    rfl

theorem owns_attach (hok : TabOk s) (hattaches : Attaches pin hdr args s a) : Owns (call s a).1 pin hdr args := by
  cases a with
  | attach p mode hdr' args' =>
    obtain ⟨⟨rfl, rfl, rfl⟩, herr⟩ := hattaches
    simp only [call, stm32PinAttachIrq_eq] at herr ⊢
    split_ifs at herr ⊢ with hport hsame hbusy
    · exact absurd herr enosys_ne
    · have hpin : toInt16 p = p := by
        have hentry := hok (lineOf p)
        rw [hsame] at hentry
        exact hentry
      exact ⟨toInt16_ne hport, by rw [toInt16_lineOf, hsame, hpin], by rw [toInt16_lineOf, hsame],
        by rw [toInt16_lineOf, hsame]⟩
    · exact absurd herr ebusy_ne
    · constructor
      · exact toInt16_ne hport
      all_goals simp only [toInt16_lineOf, Function.update_self]
  | dettach p => cases hattaches
  | enable p enabled => cases hattaches
  | edge line => cases hattaches

theorem tab_frame (hproper : Proper s a) (howns : Owns s pin hdr args) (hkeep : ¬ Detaches pin s a) :
    (call s a).1.tab (lineOf pin) = s.tab (lineOf pin) := by
  obtain hsame | ⟨p, _, _, _, -, -, hfree, -⟩ | ⟨p, rfl, hline, ⟨hport, hused⟩, -⟩ := call_tab s a (lineOf pin)
  · exact hsame
  · exact absurd (howns.owner.symm.trans hfree) howns.valid
  · -- the call would have to name the owner
    have hother : (s.tab (lineOf p)).pin ≠ p := by
      rw [← hline, howns.owner]
      rintro rfl
      exact hkeep rfl
    exact absurd (hproper ⟨hline ▸ hused, hother⟩) hport

/-- A pin that has been attached and not detached since has its line. -/
def Owned (h : History (PinIrqs H A) (IrqAction H A)) (s : PinIrqs H A) : Prop :=
  ∀ pin hdr args, Since (Attaches pin hdr args) (Detaches pin) h → Owns s pin hdr args

theorem owned_step (hok : TabOk s) (hi : Owned h s) (hproper : Proper s a) : Owned ((s, a) :: h) (call s a).1 := by
  rintro pin hdr args (hattaches | ⟨hkeep, hsince⟩)
  · exact owns_attach hok hattaches
  · have howns := hi pin hdr args hsince
    have hframe := tab_frame hproper howns hkeep
    exact ⟨howns.valid, by rw [hframe, howns.owner], by rw [hframe, howns.hdr], by rw [hframe, howns.args]⟩

theorem owned (hrun : (irqLines H A).Run h s) (hproper : Throughout (fun _ s a => Proper s a) h) :
    TabOk s ∧ Owned h s := by
  refine hrun.invariant (I := fun h s => TabOk s ∧ Owned h s) (G := fun _ s a => Proper s a) ?_ ?_ hproper
  · rintro s rfl
    exact ⟨fun _ => rfl, fun _ _ _ hsince => absurd hsince not_since_nil⟩
  · rintro h s a s' - ⟨hok, hi⟩ hp hstep
    obtain rfl := Option.some.inj hstep
    exact ⟨tabOk_step hok, owned_step hok hi hp⟩

/-- The operations respect the owners of the lines exactly if each call that detaches, enables or disables names the
owner of its line. Then each edge runs the handler of the pin that has the line. -/
theorem lines_owned (hrun : (irqLines H A).Run h s) :
    (Throughout (fun _ s a => Respects s a) h ↔ Throughout (fun _ s a => Proper s a) h) ∧
      (Throughout (fun _ s a => Proper s a) h → Throughout RunsOwner h) := by
  refine ⟨⟨.mono fun _ _ _ => respects_iff.mp, .mono fun _ _ _ => respects_iff.mpr⟩, fun hproper => ?_⟩
  refine hrun.throughout (I := Owned) (G := fun _ s a => Proper s a) (fun h s hr hp => (owned hr hp).2) ?_ hproper
  intro h s a s' _ hi _ _ pin hdr args _ hsince
  obtain ⟨-, -, hhdr, hargs⟩ := hi pin hdr args hsince
  rw [pinIrqHdr, hhdr, hargs]

instance (s : PinIrqs H A) (a : IrqAction H A) : Decidable (Respects s a) :=
  inferInstanceAs (Decidable (∀ pin ∈ a.pin, Foreign s pin → (call s a).2 ≠ rtEok ∧ _ = _ ∧ _ = _))

instance (s : PinIrqs H A) : (a : IrqAction H A) → Decidable (Proper s a)
  | .dettach pin => inferInstanceAs (Decidable (Foreign s pin → pinStportMax ≤ pinPort pin))
  | .enable pin enabled => inferInstanceAs (Decidable (Foreign s pin → pinStportMax ≤ pinPort pin ∨ 1 < enabled))
  | .attach _ _ _ _ | .edge _ => inferInstanceAs (Decidable True)

instance (pin : Int) (hdr : Option H) (args : Option A) (s : PinIrqs H A) :
    (a : IrqAction H A) → Decidable (Attaches pin hdr args s a)
  | .attach _ _ _ _ => inferInstanceAs (Decidable (_ ∧ _))
  | .dettach _ | .enable _ _ | .edge _ => inferInstanceAs (Decidable False)

instance (pin : Int) (s : PinIrqs H A) (a : IrqAction H A) : Decidable (Detaches pin s a) :=
  inferInstanceAs (Decidable (a = .dettach pin))

/-- PE3 has line 3, and PB3 is refused. -/
theorem lines_owned_run : ∃ h s, (irqLines Nat Nat).Run h s ∧ Throughout RunsOwner h ∧
    Since (Attaches 67 (some 1) none) (Detaches 67) h := by
  obtain ⟨h, s, hrun, hproper, hsince⟩ := (irqLines Nat Nat).exists_run rfl
    [.attach 67 0 (some 1) none, .enable 67 1, .attach 19 0 (some 2) none, .edge (lineOf 67)]
    (fun h _ => Throughout (fun _ s a => Proper s a) h ∧ Since (Attaches 67 (some 1) none) (Detaches 67) h)
    (by decide +kernel)
  exact ⟨h, s, hrun, (lines_owned hrun).2 hproper, hsince⟩

/-- PB3 detaches PE3. -/
theorem other_pin_detaches : ∃ h s, (irqLines Nat Nat).Run h s ∧ ¬ Throughout (fun _ s a => Respects s a) h ∧
    Since (Attaches 67 (some 1) none) (Detaches 67) h ∧ pinIrqHdr s (lineOf 67) = none :=
  (irqLines Nat Nat).exists_run rfl [.attach 67 0 (some 1) none, .enable 67 1, .dettach 19]
    (fun h s => ¬ Throughout (fun _ s a => Respects s a) h ∧
      Since (Attaches 67 (some 1) none) (Detaches 67) h ∧ pinIrqHdr s (lineOf 67) = none) (by decide +kernel)

end ThyristorController.PinIrq
