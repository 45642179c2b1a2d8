import Mathlib.Tactic.Common
import ThyristorController.Lib.Run

/-!
# Opening and closing a device (`src/src/device.c`)

`rt_device_open` and `rt_device_close` as the steps of a device whose driver answers as it likes. An open counts when
the driver returns `RT_EOK` or `-RT_ENOSYS`, and then sets the open flag. A close takes the reference away before it
asks the driver, and clears the flag only when the driver agrees.
-/

namespace ThyristorController.Device

open Transition

/-! ## The device -/

/-- `rt_err_t`. -/
abbrev Err := Int

/-- `RT_EOK`. -/
def rtEok : Err := 0

/-- `RT_ERROR`. -/
def rtError : Err := 1

/-- `RT_ENOSYS`. -/
def rtEnosys : Err := 6

/-- `RT_EBUSY`. -/
def rtEbusy : Err := 7

/-- `RT_DEVICE_FLAG_STANDALONE`. -/
def flagStandalone : BitVec 16 := 0x008

/-- `RT_DEVICE_FLAG_ACTIVATED`. -/
def flagActivated : BitVec 16 := 0x010

/-- `RT_DEVICE_OFLAG_CLOSE`. -/
def oflagClose : BitVec 16 := 0x000

/-- `RT_DEVICE_OFLAG_OPEN`. -/
def oflagOpen : BitVec 16 := 0x008

/-- `RT_DEVICE_OFLAG_MASK`. -/
def oflagMask : BitVec 16 := 0xf0f

/-- What the two functions read of `struct rt_device`. Of the driver's operations, whether they are not `RT_NULL`. -/
structure RtDevice where
  flag : BitVec 16
  openFlag : BitVec 16
  refCount : BitVec 8
  hasInit : Bool
  hasOpen : Bool
  hasClose : Bool
  deriving DecidableEq

namespace RtDevice

def rtDeviceRegister (dev : RtDevice) (flags : BitVec 16) : RtDevice :=
  { dev with flag := flags, refCount := 0, openFlag := 0 }

def activated (dev : RtDevice) : Prop := dev.flag &&& flagActivated ≠ 0

def standalone (dev : RtDevice) : Prop := dev.flag &&& flagStandalone ≠ 0

/-- The open flag is set. -/
def isOpen (dev : RtDevice) : Prop := dev.openFlag &&& oflagOpen ≠ 0

instance (dev : RtDevice) : Decidable dev.activated := inferInstanceAs (Decidable (_ ≠ _))

instance (dev : RtDevice) : Decidable dev.standalone := inferInstanceAs (Decidable (_ ≠ _))

instance (dev : RtDevice) : Decidable dev.isOpen := inferInstanceAs (Decidable (_ ≠ _))

/-- The results of a driver with which the two functions go on. -/
def accepted (result : Err) : Prop := result = rtEok ∨ result = -rtEnosys

instance (result : Err) : Decidable (accepted result) := inferInstanceAs (Decidable (_ ∨ _))

/-- The first part of `rt_device_open`, with the answer of `device_init`. -/
def activate (dev : RtDevice) (init : Err) : RtDevice × Err :=
  if dev.activated then (dev, rtEok)
  else
    let result := if dev.hasInit then init else rtEok
    if result = rtEok then ({ dev with flag := dev.flag ||| flagActivated }, rtEok) else (dev, result)

/-- The call of `device_open`, with its answer and the open flags that the driver leaves. -/
def deviceOpen (dev : RtDevice) (oflag : BitVec 16) (answer : Err) (left : BitVec 16) : RtDevice × Err :=
  if dev.hasOpen then
    -- the drivers write the flags behind their last failing exit
    (if accepted answer then { dev with openFlag := left } else dev, answer)
  else ({ dev with openFlag := oflag &&& oflagMask }, rtEok)

/-- The last part of `rt_device_open`. The assertion stops the system when the count wraps. -/
def countOpen (dev : RtDevice) (result : Err) : Option (RtDevice × Err) :=
  if accepted result then
    let dev := { dev with openFlag := dev.openFlag ||| oflagOpen, refCount := dev.refCount + 1 }
    if dev.refCount ≠ 0 then some (dev, result) else none
  else some (dev, result)

def rtDeviceOpen (dev : RtDevice) (oflag : BitVec 16) (init answer : Err) (left : BitVec 16) :
    Option (RtDevice × Err) :=
  let (dev, result) := dev.activate init
  if result ≠ rtEok then some (dev, result)
  else if dev.standalone ∧ dev.isOpen then some (dev, -rtEbusy)
  else
    let (dev, result) := dev.deviceOpen oflag answer left
    dev.countOpen result

/-- `rt_device_close`, with the answer of `device_close`. -/
def rtDeviceClose (dev : RtDevice) (answer : Err) : RtDevice × Err :=
  if dev.refCount = 0 then (dev, -rtError)
  else
    let dev := { dev with refCount := dev.refCount - 1 }
    if dev.refCount ≠ 0 then (dev, rtEok)
    else
      let result := if dev.hasClose then answer else rtEok
      (if accepted result then { dev with openFlag := oflagClose } else dev, result)

end RtDevice

/-! ## The calls -/

/-- A call, with the answers of the driver. -/
inductive Call where
  | opening (oflag : BitVec 16) (init answer : Err) (left : BitVec 16)
  | closing (answer : Err)

/-- What a call does, and what it returns. -/
def Call.run (dev : RtDevice) : Call → Option (RtDevice × Err)
  | .opening oflag init answer left => dev.rtDeviceOpen oflag init answer left
  | .closing answer => some (dev.rtDeviceClose answer)

/-- What is a success to a caller: `RT_EOK`, and with `enosys` also `-RT_ENOSYS`, which some callers take for an open
device and others for an error. -/
def Success (enosys : Bool) (result : Err) : Prop := result = rtEok ∨ enosys = true ∧ result = -rtEnosys

instance (enosys : Bool) (result : Err) : Decidable (Success enosys result) := inferInstanceAs (Decidable (_ ∨ _))

/-- A call returns with success. -/
def Call.succeeds (enosys : Bool) (dev : RtDevice) (c : Call) : Prop := ∃ r ∈ c.run dev, Success enosys r.2

instance (enosys : Bool) (dev : RtDevice) (c : Call) : Decidable (c.succeeds enosys dev) :=
  inferInstanceAs (Decidable (∃ r ∈ c.run dev, Success enosys r.2))

def Call.isOpen : Call → Prop
  | .opening .. => True
  | .closing _ => False

instance : (c : Call) → Decidable c.isOpen
  | .opening .. => .isTrue trivial
  | .closing _ => .isFalse id

/-- A device, from its registration on. -/
def devices : System RtDevice Call where
  init dev := ∃ dev₀ flags, dev = RtDevice.rtDeviceRegister dev₀ flags
  step dev c := (c.run dev).map Prod.fst

def opens (enosys : Bool) (h : History RtDevice Call) : Nat :=
  count (fun dev c => c.isOpen ∧ c.succeeds enosys dev) h

def closes (enosys : Bool) (h : History RtDevice Call) : Nat :=
  count (fun dev c => ¬ c.isOpen ∧ c.succeeds enosys dev) h

/-- The references are the successful opens without the successful closes, the flag is set as long as there is one, and
some call can succeed. -/
structure Balanced (enosys : Bool) (h : History RtDevice Call) (dev : RtDevice) : Prop where
  count : dev.refCount.toNat + closes enosys h = opens enosys h
  flag : dev.isOpen ↔ 0 < dev.refCount.toNat
  usable : ∃ c : Call, c.succeeds enosys dev

/-- A call that returns an error leaves the references and the open flags. -/
def ErrorKeeps (enosys : Bool) (dev : RtDevice) (c : Call) : Prop :=
  ∀ dev' result, c.run dev = some (dev', result) → ¬ Success enosys result →
    dev'.refCount = dev.refCount ∧ dev'.openFlag = dev.openFlag

namespace RtDevice

/-- The driver's `device_init` is called in an open. -/
def asksInit (dev : RtDevice) : Prop := ¬ dev.activated ∧ dev.hasInit = true

/-- The driver's `device_open` is called in an open. -/
def asksOpen (dev : RtDevice) (init : Err) : Prop :=
  (dev.asksInit → init = rtEok) ∧ ¬ (dev.standalone ∧ dev.isOpen) ∧ dev.hasOpen = true

/-- The driver's `device_close` is called in a close. -/
def asksClose (dev : RtDevice) : Prop := dev.refCount = 1 ∧ dev.hasClose = true

instance (dev : RtDevice) : Decidable dev.asksInit := inferInstanceAs (Decidable (_ ∧ _))

instance (dev : RtDevice) (init : Err) : Decidable (dev.asksOpen init) := inferInstanceAs (Decidable (_ ∧ _))

instance (dev : RtDevice) : Decidable dev.asksClose := inferInstanceAs (Decidable (_ ∧ _))

end RtDevice

/-- The driver does not refuse the last close. It does not answer with `-RT_ENOSYS` to an open, when that is an error,
nor to an initialisation, when that is a success. -/
def Agrees (enosys : Bool) (dev : RtDevice) : Call → Prop
  | .opening _ init answer _ =>
    (enosys = true → dev.asksInit → init ≠ -rtEnosys) ∧ (enosys = false → dev.asksOpen init → answer ≠ -rtEnosys)
  | .closing answer => dev.asksClose → Success enosys answer

instance (enosys : Bool) (dev : RtDevice) : (c : Call) → Decidable (Agrees enosys dev c)
  | .opening _ _ _ _ => inferInstanceAs (Decidable (_ ∧ _))
  | .closing _ => inferInstanceAs (Decidable (_ → _))

/-! ## What a call does -/

section calls

variable {dev dev' : RtDevice} {oflag left : BitVec 16} {init answer result : Err}

namespace RtDevice

theorem isOpen_or (flags : BitVec 16) : (flags ||| oflagOpen) &&& oflagOpen ≠ 0 := by
  have habsorb : (flags ||| oflagOpen) &&& oflagOpen = oflagOpen := by
    ext i hi
    rw [BitVec.getElem_and, BitVec.getElem_or]
    cases flags[i] <;> cases oflagOpen[i] <;> rfl
  rw [habsorb]
  decide

theorem standalone_or (flags : BitVec 16) :
    (flags ||| flagActivated) &&& flagStandalone = flags &&& flagStandalone := by
  have hdisjoint : ∀ i (hi : i < 16), (flagActivated[i] && flagStandalone[i]) = false := by decide
  ext i hi
  rw [BitVec.getElem_and, BitVec.getElem_or, BitVec.getElem_and, Bool.and_or_distrib_right, hdisjoint i hi,
    Bool.or_false]

theorem activate_keeps (dev : RtDevice) (init : Err) : (dev.activate init).1.refCount = dev.refCount ∧
    (dev.activate init).1.openFlag = dev.openFlag ∧ (dev.activate init).1.hasOpen = dev.hasOpen ∧
    ((dev.activate init).1.standalone ↔ dev.standalone) := by
  unfold activate
  by_cases hact : dev.activated
  · rw [if_pos hact]
    exact ⟨rfl, rfl, rfl, Iff.rfl⟩
  · rw [if_neg hact]
    dsimp only
    by_cases hinit : (if dev.hasInit then init else rtEok) = rtEok
    · rw [if_pos hinit]
      refine ⟨rfl, rfl, rfl, ?_⟩
      rw [standalone, standalone, standalone_or]
    · rw [if_neg hinit]
      exact ⟨rfl, rfl, rfl, Iff.rfl⟩

theorem countOpen_cases (h : dev.countOpen answer = some (dev', result)) :
    result = answer ∧ (accepted answer ∧ dev'.isOpen ∧ dev'.refCount.toNat = dev.refCount.toNat + 1 ∨
      ¬ accepted answer ∧ dev' = dev) := by
  unfold countOpen at h
  split at h
  · rename_i hacc
    dsimp only at h
    obtain ⟨hwrap, h⟩ := Option.ite_none_right_eq_some.mp h
    obtain ⟨rfl, rfl⟩ := Prod.mk.inj (Option.some.inj h)
    refine ⟨rfl, .inl ⟨hacc, isOpen_or _, ?_⟩⟩
    change (dev.refCount + 1).toNat = dev.refCount.toNat + 1
    bv_omega
  · rename_i hacc
    obtain ⟨rfl, rfl⟩ := Prod.mk.inj (Option.some.inj h)
    exact ⟨rfl, .inr ⟨hacc, rfl⟩⟩

theorem deviceOpen_count : (dev.deviceOpen oflag answer left).1.refCount = dev.refCount := by
  unfold deviceOpen
  split
  · dsimp only
    split <;> rfl
  · rfl

theorem activate_result : (dev.activate init).2 = if dev.asksInit then init else rtEok := by
  unfold activate
  by_cases hact : dev.activated
  · have hask : ¬ dev.asksInit := fun h => h.1 hact
    rw [if_pos hact, if_neg hask]
  · rw [if_neg hact]
    dsimp only
    by_cases hhas : dev.hasInit = true
    · have hask : dev.asksInit := ⟨hact, hhas⟩
      rw [if_pos hhas, if_pos hask]
      by_cases hok : init = rtEok
      · rw [if_pos hok, hok]
      · rw [if_neg hok]
    · have hask : ¬ dev.asksInit := fun h => hhas h.2
      rw [if_neg hhas, if_pos rfl, if_neg hask]

/-- An open fails in the initialisation or behind it, and leaves the count and the flags, or it is counted and sets the
flag. -/
theorem rtDeviceOpen_cases (h : dev.rtDeviceOpen oflag init answer left = some (dev', result)) :
    (dev.asksInit ∧ init ≠ rtEok ∧ result = init ∧ dev'.refCount = dev.refCount ∧ dev'.openFlag = dev.openFlag) ∨
    (dev.asksInit → init = rtEok) ∧
      ((¬ accepted result ∧ (dev.asksOpen init → result = answer) ∧ dev'.refCount = dev.refCount ∧
        dev'.openFlag = dev.openFlag) ∨
      (result = rtEok ∨ dev.asksOpen init ∧ result = -rtEnosys) ∧ (dev.asksOpen init → result = answer) ∧
        dev'.refCount.toNat = dev.refCount.toNat + 1 ∧ dev'.isOpen) := by
  obtain ⟨hcount, hflag, hhas, hstand⟩ := activate_keeps dev init
  unfold rtDeviceOpen at h
  dsimp only at h
  split at h
  · rename_i hinit
    obtain ⟨rfl, rfl⟩ := Prod.mk.inj (Option.some.inj h)
    rw [activate_result] at hinit ⊢
    by_cases hask : dev.asksInit
    · rw [if_pos hask] at hinit ⊢
      exact .inl ⟨hask, hinit, rfl, hcount, hflag⟩
    · rw [if_neg hask] at hinit
      exact absurd rfl hinit
  rename_i hinit
  have hready : dev.asksInit → init = rtEok := by
    intro hask
    rwa [activate_result, if_pos hask, not_not] at hinit
  refine .inr ⟨hready, ?_⟩
  split at h
  · rename_i hbusy
    obtain ⟨rfl, rfl⟩ := Prod.mk.inj (Option.some.inj h)
    rw [hstand, isOpen, hflag] at hbusy
    exact .inl ⟨by decide, fun hask => absurd hbusy hask.2.1, hcount, hflag⟩
  rename_i hbusy
  rw [hstand, isOpen, hflag] at hbusy
  obtain ⟨hresult, hcases⟩ := countOpen_cases h
  rw [deviceOpen_count, hcount] at hcases
  by_cases hopen : (dev.activate init).1.hasOpen = true
  · have hask : dev.asksOpen init := ⟨hready, hbusy, hhas ▸ hopen⟩
    have hanswer : ((dev.activate init).1.deviceOpen oflag answer left).2 = answer := by
      rw [deviceOpen, if_pos hopen]
    rw [hanswer] at hresult hcases
    subst hresult
    obtain ⟨hacc, hset, hone⟩ | ⟨hacc, rfl⟩ := hcases
    · exact .inr ⟨hacc.imp id fun hsys => ⟨hask, hsys⟩, fun _ => rfl, hone, hset⟩
    · refine .inl ⟨hacc, fun _ => rfl, ?_, ?_⟩
      · rw [deviceOpen_count, hcount]
      · rw [deviceOpen, if_pos hopen, if_neg hacc, hflag]
  · have hanswer : ((dev.activate init).1.deviceOpen oflag answer left).2 = rtEok := by
      rw [deviceOpen, if_neg hopen]
    rw [hanswer] at hresult hcases
    obtain ⟨-, hset, hone⟩ | ⟨hacc, -⟩ := hcases
    · exact .inr ⟨.inl hresult, fun hask => absurd (hhas ▸ hask.2.2) hopen, hone, hset⟩
    · exact absurd (.inl rfl) hacc

theorem rtDeviceOpen_closed (hopen : ¬ dev.isOpen) (hzero : dev.refCount = 0) :
    ∃ dev', dev.rtDeviceOpen oflag rtEok rtEok left = some (dev', rtEok) := by
  obtain ⟨hcount, hflag, -, -⟩ := activate_keeps dev rtEok
  have hinit : (dev.activate rtEok).2 = rtEok := by
    rw [activate, ite_self, if_pos rfl]
    split <;> rfl
  have hbusy : ¬ ((dev.activate rtEok).1.standalone ∧ (dev.activate rtEok).1.isOpen) := by
    rintro ⟨-, h⟩
    rw [isOpen, hflag] at h
    exact hopen h
  have hanswer : ((dev.activate rtEok).1.deviceOpen oflag rtEok left).2 = rtEok := by
    rw [deviceOpen]
    split <;> rfl
  rw [rtDeviceOpen]
  dsimp only
  rw [if_neg (not_not.mpr hinit), if_neg hbusy, hanswer, countOpen, if_pos (.inl rfl)]
  dsimp only
  rw [deviceOpen_count, hcount, hzero, if_pos (by decide)]
  exact ⟨_, rfl⟩

/-- A close finds no reference, takes one of several away, or takes the last one and asks the driver. -/
theorem rtDeviceClose_cases (h : dev.rtDeviceClose answer = (dev', result)) :
    (dev.refCount = 0 ∧ ¬ accepted result ∧ dev' = dev) ∨
    (1 < dev.refCount.toNat ∧ result = rtEok ∧ dev'.openFlag = dev.openFlag ∧
      dev.refCount.toNat = dev'.refCount.toNat + 1) ∨
    (dev.refCount = 1 ∧ result = (if dev.hasClose then answer else rtEok) ∧ dev'.refCount = 0 ∧
      (accepted result → ¬ dev'.isOpen)) := by
  unfold rtDeviceClose at h
  split at h
  · rename_i hzero
    obtain ⟨rfl, rfl⟩ := Prod.mk.inj h
    exact .inl ⟨hzero, by decide, rfl⟩
  rename_i hzero
  dsimp only at h
  split at h
  · rename_i hmore
    obtain ⟨rfl, rfl⟩ := Prod.mk.inj h
    refine .inr (.inl ⟨?_, rfl, rfl, ?_⟩)
    · bv_omega
    · change dev.refCount.toNat = (dev.refCount - 1).toNat + 1
      bv_omega
  · rename_i hlast
    obtain ⟨rfl, hresult⟩ := Prod.mk.inj h
    refine .inr (.inr ⟨?_, hresult.symm, ?_, ?_⟩)
    · bv_omega
    · rw [apply_ite RtDevice.refCount, ite_self]
      exact not_not.mp hlast
    · intro hacc
      rw [hresult, if_pos hacc]
      exact not_not.mpr (show oflagClose &&& oflagOpen = 0 by decide)

end RtDevice

end calls

/-! ## One step -/

section steps

variable {enosys : Bool} {dev dev' : RtDevice} {c : Call} {h : History RtDevice Call} {result : Err}

theorem Success.accepted (hok : Success enosys result) : RtDevice.accepted result := hok.imp id fun h => h.2

theorem succeeds_iff (hs : c.run dev = some (dev', result)) : c.succeeds enosys dev ↔ Success enosys result := by
  rw [Call.succeeds, hs]
  simp

theorem opens_cons (hs : c.run dev = some (dev', result)) :
    opens enosys ((dev, c) :: h) = opens enosys h + if c.isOpen ∧ Success enosys result then 1 else 0 := by
  rw [opens, count_cons]
  simp only [succeeds_iff hs]
  rfl

theorem closes_cons (hs : c.run dev = some (dev', result)) :
    closes enosys ((dev, c) :: h) = closes enosys h + if ¬ c.isOpen ∧ Success enosys result then 1 else 0 := by
  rw [closes, count_cons]
  simp only [succeeds_iff hs]
  rfl

theorem errorKeeps_iff (hs : c.run dev = some (dev', result)) : ErrorKeeps enosys dev c ↔
    (¬ Success enosys result → dev'.refCount = dev.refCount ∧ dev'.openFlag = dev.openFlag) := by
  refine ⟨fun hkeeps => hkeeps dev' result hs, fun hkeeps d r hdr => ?_⟩
  obtain ⟨rfl, rfl⟩ := Prod.mk.inj (Option.some.inj (hs.symm.trans hdr))
  exact hkeeps

/-- As long as the flag tells whether there are references, one of the two functions can succeed. -/
theorem exists_succeeds (hflag : dev.isOpen ↔ 0 < dev.refCount.toNat) : ∃ c : Call, c.succeeds enosys dev := by
  by_cases hopen : dev.isOpen
  · refine ⟨.closing rtEok, ?_⟩
    have hpos := hflag.mp hopen
    obtain ⟨⟨dev', result⟩, hclose⟩ : ∃ r, dev.rtDeviceClose rtEok = r := ⟨_, rfl⟩
    have hs : Call.run dev (.closing rtEok) = some (dev', result) := congrArg some hclose
    refine (succeeds_iff hs).mpr (.inl ?_)
    obtain ⟨hzero, -⟩ | ⟨-, hok, -⟩ | ⟨-, hok, -⟩ := RtDevice.rtDeviceClose_cases hclose
    · rw [hzero] at hpos
      exact absurd hpos (by decide)
    · exact hok
    · rw [hok, ite_self]
  · refine ⟨.opening 0 rtEok rtEok 0, ?_⟩
    have hzero : dev.refCount = 0 := by
      have hnone := mt hflag.mpr hopen
      bv_omega
    obtain ⟨dev', hs⟩ : ∃ dev', Call.run dev (.opening 0 rtEok rtEok 0) = some (dev', rtEok) :=
      RtDevice.rtDeviceOpen_closed hopen hzero
    exact (succeeds_iff hs).mpr (.inl rfl)

theorem balanced_success (hb : Balanced enosys h dev) (hs : c.run dev = some (dev', result))
    (hok : Success enosys result)
    (hcount : dev'.refCount.toNat + (if c.isOpen then 0 else 1) = dev.refCount.toNat + if c.isOpen then 1 else 0)
    (hflag : dev'.isOpen ↔ 0 < dev'.refCount.toNat) :
    ErrorKeeps enosys dev c ∧ Balanced enosys ((dev, c) :: h) dev' := by
  refine ⟨(errorKeeps_iff hs).mpr fun hfail => absurd hok hfail, ?_, hflag, exists_succeeds hflag⟩
  have hbefore := hb.count
  rw [opens_cons hs, closes_cons hs]
  by_cases hopen : c.isOpen
  · simp only [hopen, if_true] at hcount
    simp only [hopen, hok, not_true, true_and, false_and, if_true, if_false]
    omega
  · simp only [hopen, if_false] at hcount
    simp only [hopen, hok, not_false_iff, true_and, false_and, if_true, if_false]
    omega

theorem balanced_error (hb : Balanced enosys h dev) (hs : c.run dev = some (dev', result))
    (hfail : ¬ Success enosys result) (hcount : dev'.refCount = dev.refCount) (hflag : dev'.openFlag = dev.openFlag) :
    ErrorKeeps enosys dev c ∧ Balanced enosys ((dev, c) :: h) dev' := by
  have hopen : dev'.isOpen ↔ 0 < dev'.refCount.toNat := by
    rw [hcount, ← hb.flag, RtDevice.isOpen, hflag, RtDevice.isOpen]
  refine ⟨(errorKeeps_iff hs).mpr fun _ => ⟨hcount, hflag⟩, ?_, hopen, exists_succeeds hopen⟩
  rw [opens_cons hs, closes_cons hs, if_neg fun hc => hfail hc.2, if_neg fun hc => hfail hc.2, hcount]
  exact hb.count

variable {oflag left : BitVec 16} {init answer : Err}

theorem open_step (hb : Balanced enosys h dev)
    (hs : Call.run dev (.opening oflag init answer left) = some (dev', result)) :
    (ErrorKeeps enosys dev (.opening oflag init answer left) ∧
      Balanced enosys ((dev, .opening oflag init answer left) :: h) dev') ↔
        Agrees enosys dev (.opening oflag init answer left) := by
  obtain ⟨hask, hinit, rfl, hcount, hflag⟩ | ⟨hready, hcases⟩ := RtDevice.rtDeviceOpen_cases hs
  · by_cases hok : Success enosys result
    · -- the initialisation fails with what the caller takes for a success
      obtain ⟨hlenient, hsys⟩ := hok.resolve_left hinit
      refine iff_of_false (fun hgood => ?_) fun hagrees => hagrees.1 hlenient hask hsys
      have hbefore := hb.count
      have hafter := hgood.2.count
      rw [opens_cons hs, closes_cons hs, if_neg fun hc => hc.1 trivial, if_pos ⟨trivial, hok⟩, hcount] at hafter
      omega
    · refine iff_of_true (balanced_error hb hs hok hcount hflag) ⟨fun hlenient _ hsys => ?_, fun _ hasked => ?_⟩
      · exact hok (.inr ⟨hlenient, hsys⟩)
      · exact absurd (hasked.1 hask) hinit
  have hinit : enosys = true → dev.asksInit → init ≠ -rtEnosys := by
    intro _ hask hsys
    rw [hready hask] at hsys
    exact absurd hsys (by decide)
  obtain ⟨hrefused, hanswer, hcount, hflag⟩ | ⟨hresult, hanswer, hone, hset⟩ := hcases
  · refine iff_of_true (balanced_error hb hs (fun hok => hrefused hok.accepted) hcount hflag) ⟨hinit, ?_⟩
    intro _ hask hsys
    rw [hanswer hask, hsys] at hrefused
    exact hrefused (.inr rfl)
  · by_cases hok : Success enosys result
    · refine iff_of_true (balanced_success hb hs hok hone (iff_of_true hset (by omega))) ⟨hinit, ?_⟩
      rintro rfl hask hsys
      rw [hanswer hask, hsys] at hok
      exact absurd hok (by decide)
    · -- the open is counted, and the caller takes it for a failure
      obtain rfl | ⟨hask, hsys⟩ := hresult
      · exact absurd (.inl rfl) hok
      · refine iff_of_false (fun hgood => ?_) fun hagrees => hagrees.2 ?_ hask (hanswer hask ▸ hsys)
        · have hsame := ((errorKeeps_iff hs).mp hgood.1 hok).1
          rw [hsame] at hone
          omega
        · exact eq_false_of_ne_true fun hlenient => hok (.inr ⟨hlenient, hsys⟩)

theorem close_step (hb : Balanced enosys h dev) (hs : Call.run dev (.closing answer) = some (dev', result)) :
    (ErrorKeeps enosys dev (.closing answer) ∧ Balanced enosys ((dev, .closing answer) :: h) dev') ↔
      Agrees enosys dev (.closing answer) := by
  obtain ⟨hzero, hrefused, rfl⟩ | ⟨hmore, rfl, hflag, hless⟩ | ⟨hone, hresult, hnone, hclear⟩ :=
    RtDevice.rtDeviceClose_cases (Option.some.inj hs)
  · refine iff_of_true (balanced_error hb hs (fun hok => hrefused hok.accepted) rfl rfl) fun hask => ?_
    rw [hask.1] at hzero
    exact absurd hzero (by decide)
  · have hopen : dev'.isOpen ↔ 0 < dev'.refCount.toNat := by
      rw [RtDevice.isOpen, hflag]
      exact iff_of_true (hb.flag.mpr (by omega)) (by omega)
    refine iff_of_true (balanced_success hb hs (.inl rfl) hless.symm hopen) fun hask => ?_
    rw [hask.1] at hmore
    exact absurd hmore (by decide)
  · have hagrees : Agrees enosys dev (.closing answer) ↔ Success enosys result := by
      rw [hresult]
      by_cases hhas : dev.hasClose = true
      · rw [if_pos hhas]
        exact ⟨fun hagrees => hagrees ⟨hone, hhas⟩, fun hok _ => hok⟩
      · rw [if_neg hhas]
        exact iff_of_true (fun hask => absurd hask.2 hhas) (.inl rfl)
    rw [hagrees]
    constructor
    · intro hgood
      by_contra hfail
      have hsame := ((errorKeeps_iff hs).mp hgood.1 hfail).1
      rw [hnone, hone] at hsame
      exact absurd hsame (by decide)
    · intro hok
      refine balanced_success hb hs hok ?_ (iff_of_false (hclear hok.accepted) ?_)
      · rw [hnone, hone]
        rfl
      · rw [hnone]
        decide

end steps

/-! ## The runs -/

section runs

variable {enosys : Bool} {h : History RtDevice Call} {dev : RtDevice}

theorem balanced_register (dev₀ : RtDevice) (flags : BitVec 16) :
    Balanced enosys [] (dev₀.rtDeviceRegister flags) := by
  have hflag : (dev₀.rtDeviceRegister flags).isOpen ↔ 0 < (dev₀.rtDeviceRegister flags).refCount.toNat :=
    iff_of_false (not_not.mpr (show (0 : BitVec 16) &&& oflagOpen = 0 by decide)) (Nat.lt_irrefl 0)
  exact ⟨rfl, hflag, exists_succeeds hflag⟩

/-- Throughout a run the references are balanced and no call that returns an error changes them, if and only if the
driver agrees to every call: it does not refuse the last close, and answers neither an open nor an initialisation with
an `-RT_ENOSYS` that the caller misunderstands. -/
theorem balanced_iff (hrun : devices.Run h dev) :
    (Throughout (fun h dev c => Balanced enosys h dev ∧ ErrorKeeps enosys dev c) h ∧ Balanced enosys h dev) ↔
      Throughout (fun _ dev c => Agrees enosys dev c) h := by
  refine hrun.throughout_and_iff ?_ fun h dev c dev' hb hs => ?_
  · rintro dev ⟨dev₀, flags, rfl⟩
    exact balanced_register dev₀ flags
  · obtain ⟨⟨dev', result⟩, hrun, rfl⟩ := Option.map_eq_some_iff.mp hs
    cases c with
    | opening oflag init answer left => exact open_step hb hrun
    | closing answer => exact close_step hb hrun

/-- A standalone device whose driver has all three operations. -/
def registered : RtDevice := RtDevice.rtDeviceRegister ⟨0, 0, 0, true, true, true⟩ flagStandalone

/-- The device is opened, refused a second time, closed, closed once more in vain, and opened again. The driver does
not open it at first. -/
theorem balanced_iff_run : ∃ h dev, devices.Run h dev ∧ h.length = 6 ∧
    Throughout (fun h dev c => Balanced false h dev ∧ ErrorKeeps false dev c) h := by
  obtain ⟨h, dev, hrun, hlen, hagrees⟩ := System.exists_run (S := devices) (s := registered) ⟨_, _, rfl⟩
    [.opening 3 0 (-1) 0, .opening 3 0 0 3, .opening 3 0 0 3, .closing 0, .closing 0, .opening 3 0 0 3]
    (fun h _ => h.length = 6 ∧ Throughout (fun _ dev c => Agrees false dev c) h) (by decide +kernel)
  exact ⟨h, dev, hrun, hlen, ((balanced_iff hrun).mpr hagrees).1⟩

end runs

/-! ## The last close is refused -/

theorem not_succeeds {enosys : Bool} {dev : RtDevice} (hact : dev.activated) (halone : dev.standalone)
    (hopen : dev.isOpen) (hcount : dev.refCount = 0) (c : Call) : ¬ c.succeeds enosys dev := by
  cases c with
  | opening oflag init answer left =>
    have hs : Call.run dev (.opening oflag init answer left) = some (dev, -rtEbusy) := by
      rw [Call.run, RtDevice.rtDeviceOpen, RtDevice.activate, if_pos hact]
      dsimp only
      rw [if_neg (not_not.mpr rfl), if_pos ⟨halone, hopen⟩]
    rw [succeeds_iff hs]
    revert enosys
    decide
  | closing answer =>
    have hs : Call.run dev (.closing answer) = some (dev, -rtError) := by
      rw [Call.run, RtDevice.rtDeviceClose, if_pos hcount]
    rw [succeeds_iff hs]
    revert enosys
    decide

/-- The driver refuses to close the device: it has no reference and its flag set, the open is never matched by a close,
and no call succeeds any more. The driver answers an open with `-RT_ENOSYS`: the caller gets an error, and the device a
reference. -/
theorem balance_lost :
    (∃ h dev, devices.Run h dev ∧ dev.refCount = 0 ∧ dev.isOpen ∧
      ∀ enosys, opens enosys h = 1 ∧ closes enosys h = 0 ∧ ¬ Balanced enosys h dev ∧
        ∀ c : Call, ¬ c.succeeds enosys dev) ∧
    ∃ h dev, devices.Run h dev ∧ dev.refCount = 1 ∧ opens false h = 0 := by
  constructor
  · obtain ⟨h, dev, hrun, hact, halone, hopen, hcount, hcalls⟩ := System.exists_run (S := devices) (s := registered)
      ⟨_, _, rfl⟩ [.opening 3 0 0 3, .closing (-rtError)]
      (fun h dev => dev.activated ∧ dev.standalone ∧ dev.isOpen ∧ dev.refCount = 0 ∧
        ∀ enosys, opens enosys h = 1 ∧ closes enosys h = 0) (by decide +kernel)
    refine ⟨h, dev, hrun, hcount, hopen, fun enosys => ?_⟩
    obtain ⟨hopens, hcloses⟩ := hcalls enosys
    refine ⟨hopens, hcloses, fun hb => ?_, not_succeeds hact halone hopen hcount⟩
    have hbalance := hb.count
    rw [hopens, hcloses, hcount] at hbalance
    exact absurd hbalance (by decide)
  · exact System.exists_run (S := devices) (s := registered) ⟨_, _, rfl⟩ [.opening 3 0 (-rtEnosys) 3] _
      (by decide +kernel)

end ThyristorController.Device
