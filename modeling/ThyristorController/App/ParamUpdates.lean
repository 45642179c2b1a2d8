import ThyristorController.Lib.Run
import ThyristorController.App.ParamFile

/-!
# `para_write` of the host against `para_read` of the controller (`applications/main.c`)

`serial_thread_entry` stores pairs of the host with `para_write` while `gpio_entry` may be inside
`para_read`. Each `open`, `read`, `write`, `close` and `dfs_mkfs` is one step; nothing locks the file. The
stored-values branch of `para_read` only reads, its other two branches write the values in use back, or
format the flash.

`last_pair_is_stored` says when the last pair of the host stays on the flash. `pair_of_the_host_overwritten`
is a run in which `para_read` has seen an empty file before the host's pair was stored, and puts the default
values over it.
-/

namespace ThyristorController.ParamFile

open Transition

/-! ## The system -/

/-- A pair that the host has sent. -/
abbrev Pair := UInt16 × UInt16

/-- What is left to do of a `para_write`. -/
inductive WriteCall where
  | write (fd : DfsFd) (params : List UInt8)
  | close (fd : DfsFd)
deriving DecidableEq

/-- What is left to do of a `para_read`; `rewrite` is before the `open` of its `para_write`. -/
inductive ReadCall where
  | read (fd : DfsFd)
  | close (fd : DfsFd) (params : List UInt8)
  | mkfs
  | rewrite
  | rewriting (call : WriteCall)
deriving DecidableEq

/-- The volume, the values in use, the two calls in progress, and the pair of the serial thread's last
`para_write` that has returned. -/
structure ParamState where
  vol : ElmVolume
  voltageSet : Int
  currentSet : Int
  serial : Option (WriteCall × Pair)
  gpio : Option ReadCall
  last : Option Pair

/-- Whose file operation is next, with its outcome. -/
inductive ParamAction where
  | serialOpen (granted : Bool) (pair : Pair)
  | serial
  | gpioOpen (granted : Bool)
  | gpio (granted mkfsOk : Bool)

/-- The `open` of `para_write`. -/
def paraWriteOpen (vol : ElmVolume) (granted : Bool) (voltageSetObay currentSetObay : Int) :
    ElmVolume × Option WriteCall :=
  match posixOpen vol granted oWronly with
  | .ok (vol, fd) => (vol, some (.write fd (paraBytes voltageSetObay currentSetObay)))
  | .error _ => (vol, none)

/-- The next operation of a `para_write`. -/
def WriteCall.next (vol : ElmVolume) : WriteCall → ElmVolume × Option WriteCall
  | .write fd params => (vol, some (.close (posixWrite vol fd params)))
  | .close fd => (posixClose vol fd, none)

/-- The next operation of a `para_read`. -/
def ReadCall.next (s : ParamState) (granted mkfsOk : Bool) : ReadCall → ParamState
  | .read fd =>
    { s with gpio := some (.close (posixRead s.vol fd 5).2 (posixRead s.vol fd 5).1) }
  | .close fd params =>
    if AnyParam params then
      { s with
        vol := posixClose s.vol fd
        voltageSet := loadedVoltage params
        currentSet := loadedCurrent params
        gpio := none }
    else { s with vol := posixClose s.vol fd, gpio := some .rewrite }
  | .mkfs => { s with vol := dfsElmMkfs s.vol mkfsOk, gpio := some .rewrite }
  | .rewrite =>
    let (vol, call) := paraWriteOpen s.vol granted s.voltageSet s.currentSet
    { s with vol := vol, gpio := call.map .rewriting }
  | .rewriting call =>
    let (vol, call) := call.next s.vol
    { s with vol := vol, gpio := call.map .rewriting }

def paramStep (s : ParamState) : ParamAction → Option ParamState
  | .serialOpen granted pair =>
    match s.serial with
    | some _ => none
    | none =>
      match paraWriteOpen s.vol granted pair.1.toNat pair.2.toNat with
      | (vol, some call) => some { s with vol := vol, serial := some (call, pair) }
      | (vol, none) => some { s with vol := vol, last := some pair }
  | .serial =>
    match s.serial with
    | none => none
    | some (call, pair) =>
      match call.next s.vol with
      | (vol, some call) => some { s with vol := vol, serial := some (call, pair) }
      | (vol, none) => some { s with vol := vol, serial := none, last := some pair }
  | .gpioOpen granted =>
    match s.gpio with
    | some _ => none
    | none =>
      match posixOpen s.vol granted (oWronly ||| oCreat) with
      | .ok (vol, fd) => some { s with vol := vol, gpio := some (.read fd) }
      | .error _ => some { s with gpio := some .mkfs }
  | .gpio granted mkfsOk => s.gpio.map (ReadCall.next s granted mkfsOk)

/-- Both threads over any flash contents, with any values in use. -/
def paramFile : System ParamState ParamAction where
  init s := s.serial = none ∧ s.gpio = none ∧ s.last = none
  step := paramStep

/-- The operations of a `para_read` with no others between them. -/
def finishRead (o : Outcomes) : Nat → ParamState → ParamState
  | 0, s => s
  | n + 1, s =>
    match s.gpio with
    | none => s
    | some call => finishRead o n (call.next s o.rewriteGranted o.mkfsOk)

theorem finishRead_done (o : Outcomes) (n : Nat) {s : ParamState} (hs : s.gpio = none) :
    finishRead o n s = s := by
  cases n with
  | zero => rfl
  | succ n => simp [finishRead, hs]

theorem finishRead_rewrite (o : Outcomes) (n : Nat) {s : ParamState} (hs : s.gpio = some .rewrite) :
    finishRead o (n + 3) s =
      { s with vol := paraWrite s.vol o.rewriteGranted s.voltageSet s.currentSet, gpio := none } := by
  cases hopen : posixOpen s.vol o.rewriteGranted oWronly with
  | error e => simp [finishRead, hs, ReadCall.next, paraWriteOpen, paraWrite, hopen]
  | ok r =>
    simp [finishRead, hs, ReadCall.next, paraWriteOpen, WriteCall.next, paraWrite, hopen, finishRead_done]

theorem paraRead_uninterrupted (o : Outcomes) (s : ParamState) (hs : s.gpio = none) :
    (paramStep s (.gpioOpen o.openGranted)).map (finishRead o 5) =
      let r := paraRead s.vol o s.voltageSet s.currentSet
      some { s with vol := r.1, voltageSet := r.2.1, currentSet := r.2.2, gpio := none } := by
  cases hopen : posixOpen s.vol o.openGranted (oWronly ||| oCreat) with
  | error e =>
    have hstep : paramStep s (.gpioOpen o.openGranted) = some { s with gpio := some .mkfs } := by
      simp only [paramStep, hs, hopen]
    rw [hstep, Option.map_some, paraRead, hopen]
    show some (finishRead o 4 { s with vol := dfsElmMkfs s.vol o.mkfsOk, gpio := some .rewrite }) = _
    rw [finishRead_rewrite o 1 rfl]
  | ok r =>
    obtain ⟨vol, fd⟩ := r
    have hstep : paramStep s (.gpioOpen o.openGranted) =
        some { s with vol := vol, gpio := some (.read fd) } := by
      simp only [paramStep, hs, hopen]
    rw [hstep, Option.map_some, paraRead_opened hopen]
    dsimp only
    show some (finishRead o 3 (ReadCall.next { s with vol := vol, gpio := _ } _ _
      (.close (posixRead vol fd 5).2 (posixRead vol fd 5).1))) = _
    unfold ReadCall.next
    dsimp only
    split_ifs with hany
    · rfl
    · rw [finishRead_rewrite o 0 rfl]

/-! ## The condition -/

/-- The four bytes at the start of the file, decoded. -/
def decodePair : List UInt8 → Option (Nat × Nat)
  | b0 :: b1 :: b2 :: b3 :: _ => some (256 * b0.toNat + b1.toNat, 256 * b2.toNat + b3.toNat)
  | _ => none

/-- The file holds the pair. -/
def Stored (vol : ElmVolume) (pair : Pair) : Prop :=
  vol.params.bind decodePair = some (pair.1.toNat, pair.2.toNat)

instance (vol : ElmVolume) (pair : Pair) : Decidable (Stored vol pair) := inferInstanceAs (Decidable (_ = _))

/-- A `para_write` of the serial thread has returned, and none is in progress. -/
def Settled (s : ParamState) : Prop := s.last ≠ none ∧ s.serial = none

/-- The serial thread is about to close the file. -/
def Closing : Option (WriteCall × Pair) → Prop
  | some (.close _, _) => True
  | _ => False

/-- `para_read` is in a branch that changes the file: its open failed or created the file, or it has read
no nonzero byte. -/
def Rewrites : Option ReadCall → Prop
  | none => False
  | some (.read fd) => fd.data.flag &&& faModified ≠ 0
  | some (.close fd params) => fd.data.flag &&& faModified ≠ 0 ∨ ¬ AnyParam params
  | some _ => True

/-- If `para_read` is about to read, it will find a nonzero byte. -/
def FindsParam (s : ParamState) : Prop :=
  match s.gpio with
  | some (.read fd) => AnyParam (posixRead s.vol fd 5).1
  | _ => True

/-- Where a step must not go: the host's `para_write` finds no file or no descriptor, or closes the file
while `para_read` is in a branch that changes it; `para_read` enters such a branch while a pair of the host
is stored; the flash is formatted during the host's `para_write`. -/
def Undisturbed (s : ParamState) : ParamAction → Prop
  | .serialOpen granted _ => granted = true ∧ s.vol.mounted = true ∧ s.vol.params ≠ none
  | .serial => Closing s.serial → ¬ Rewrites s.gpio
  | .gpioOpen granted => Settled s → granted = true
  | .gpio _ mkfsOk => (Settled s → FindsParam s) ∧ (s.gpio = some .mkfs → mkfsOk = true → s.serial = none)

section decidable

variable (s : ParamState)

instance : Decidable (Settled s) := inferInstanceAs (Decidable (_ ∧ _))

instance : (call : Option (WriteCall × Pair)) → Decidable (Closing call)
  | some (.close _, _) => isTrue trivial
  | some (.write _ _, _) => isFalse id
  | none => isFalse id

instance : (call : Option ReadCall) → Decidable (Rewrites call)
  | none => isFalse id
  | some (.read _) => inferInstanceAs (Decidable (_ ≠ _))
  | some (.close _ _) => inferInstanceAs (Decidable (_ ∨ _))
  | some .mkfs => isTrue trivial
  | some .rewrite => isTrue trivial
  | some (.rewriting _) => isTrue trivial

instance : Decidable (FindsParam s) :=
  match hs : s.gpio with
  | some (.read fd) => decidable_of_iff (AnyParam (posixRead s.vol fd 5).1) (by simp [FindsParam, hs])
  | none | some (.close _ _) | some .mkfs | some .rewrite | some (.rewriting _) =>
    isTrue (by simp [FindsParam, hs])

instance : (a : ParamAction) → Decidable (Undisturbed s a)
  | .serialOpen _ _ => inferInstanceAs (Decidable (_ ∧ _))
  | .serial => inferInstanceAs (Decidable (_ → _))
  | .gpioOpen _ => inferInstanceAs (Decidable (_ → _))
  | .gpio _ _ => inferInstanceAs (Decidable (_ ∧ _))

end decidable

/-! ## One step -/

theorem decodePair_paraBytes (pair : Pair) (rest : List UInt8) :
    decodePair (paraBytes pair.1.toNat pair.2.toNat ++ rest) = some (pair.1.toNat, pair.2.toNat) := by
  have hv := ofInt_toNat (v := pair.1.toNat) (by omega) (by have := pair.1.toNat_lt; omega)
  have hc := ofInt_toNat (v := pair.2.toNat) (by omega) (by have := pair.2.toNat_lt; omega)
  simp only [paraBytes, List.cons_append, decodePair, high_toNat, low_toNat, Option.some.injEq, Prod.mk.injEq]
  omega

theorem paraWriteOpen_vol (vol : ElmVolume) (granted : Bool) (v c : Int) :
    (paraWriteOpen vol granted v c).1 = vol := by
  by_cases h : granted = false ∨ vol.mounted = false ∨ vol.params = none
  · obtain ⟨e, he⟩ := posixOpen_refused h
    rw [paraWriteOpen, he]
  · have hg : granted = true := by simp at h; exact h.1
    have hm : vol.mounted = true := by simp at h; exact h.2.1
    obtain ⟨bytes, hp⟩ := Option.ne_none_iff_exists'.mp fun hp => h (.inr (.inr hp))
    rw [paraWriteOpen, hg, posixOpen_wronly hm hp]

/-- The descriptor with which `para_write` is about to write. -/
structure Writable (vol : ElmVolume) (fd : DfsFd) : Prop where
  id : fd.data.id = vol.id
  flag : fd.data.flag &&& faWrite ≠ 0
  fptr : fd.data.fptr = 0
  buf : fd.data.buf = none

/-- On the volume mounted as `id`, closing the descriptor stores the pair, whatever the file holds then. -/
def Closes (id : Nat) (fd : DfsFd) (pair : Pair) : Prop :=
  ∃ bytes, decodePair bytes = some (pair.1.toNat, pair.2.toNat) ∧
    ∀ vol : ElmVolume, vol.id = id → posixClose vol fd = { vol with params := some bytes }

theorem Writable.closes {vol : ElmVolume} {fd : DfsFd} (h : Writable vol fd) (pair : Pair) :
    Closes vol.id (posixWrite vol fd (paraBytes pair.1.toNat pair.2.toNat)) pair := by
  refine ⟨_, ?_, fun vol' hid => posixClose_posixWrite h.id h.flag h.fptr h.buf _ hid⟩
  have hlen : (paraBytes pair.1.toNat pair.2.toNat).length = 4 := rfl
  rw [List.take_append, List.take_of_length_le (by omega)]
  exact decodePair_paraBytes pair _

theorem serialOpen_opens {vol : ElmVolume} (hm : vol.mounted = true) (hp : vol.params ≠ none) (v c : Int) :
    ∃ fd, paraWriteOpen vol true v c = (vol, some (.write fd (paraBytes v c))) ∧ Writable vol fd := by
  obtain ⟨bytes, hp⟩ := Option.ne_none_iff_exists'.mp hp
  refine ⟨_, by rw [paraWriteOpen, posixOpen_wronly hm hp], ?_⟩
  exact { id := rfl, flag := (by decide : (0x03 : UInt8) &&& faWrite ≠ 0), fptr := rfl, buf := rfl }

section gpio

variable (s : ParamState) (granted mkfsOk : Bool) (call : ReadCall)

theorem readCall_frame :
    (call.next s granted mkfsOk).serial = s.serial ∧ (call.next s granted mkfsOk).last = s.last := by
  cases call with
  | close fd params =>
    unfold ReadCall.next
    dsimp only
    split_ifs <;> exact ⟨rfl, rfl⟩
  | read | mkfs | rewrite | rewriting => exact ⟨rfl, rfl⟩

theorem readCall_vol (hcall : call = .mkfs → mkfsOk = false) :
    (call.next s granted mkfsOk).vol.mounted = s.vol.mounted ∧
      (call.next s granted mkfsOk).vol.id = s.vol.id ∧
      (s.vol.params ≠ none → (call.next s granted mkfsOk).vol.params ≠ none) := by
  cases call with
  | read fd => exact ⟨rfl, rfl, id⟩
  | close fd params =>
    unfold ReadCall.next
    dsimp only
    split_ifs <;> exact posixClose_frame s.vol fd
  | mkfs =>
    rw [hcall rfl]
    exact ⟨rfl, rfl, id⟩
  | rewrite =>
    show (paraWriteOpen _ _ _ _).1.mounted = _ ∧ (paraWriteOpen _ _ _ _).1.id = _ ∧
      (_ → (paraWriteOpen _ _ _ _).1.params ≠ none)
    rw [paraWriteOpen_vol]
    exact ⟨rfl, rfl, id⟩
  | rewriting call =>
    cases call with
    | write fd params => exact ⟨rfl, rfl, id⟩
    | close fd => exact posixClose_frame s.vol fd

theorem readCall_loads (hkeep : ¬ Rewrites (some call))
    (hread : ∀ fd, call = .read fd → AnyParam (posixRead s.vol fd 5).1) :
    (call.next s granted mkfsOk).vol = s.vol ∧ ¬ Rewrites (call.next s granted mkfsOk).gpio := by
  cases call with
  | read fd =>
    refine ⟨rfl, fun h => ?_⟩
    rcases h with h | h
    · rw [(posixRead_frame s.vol fd 5).2.1] at h
      exact hkeep h
    · exact h (hread fd rfl)
  | close fd params =>
    simp only [Rewrites, not_or, not_not] at hkeep
    unfold ReadCall.next
    dsimp only
    rw [if_pos hkeep.2, posixClose_unmodified _ hkeep.1]
    exact ⟨rfl, id⟩
  | mkfs | rewrite | rewriting => exact absurd trivial hkeep

end gpio

/-! ## Runs -/

/-- What holds in a run without the steps that `Undisturbed` excludes. -/
structure ParamInv (s : ParamState) : Prop where
  write : ∀ fd params pair, s.serial = some (.write fd params, pair) →
    params = paraBytes pair.1.toNat pair.2.toNat ∧ Writable s.vol fd
  close : ∀ fd pair, s.serial = some (.close fd, pair) → Closes s.vol.id fd pair
  file : s.serial ≠ none ∨ s.last ≠ none → s.vol.mounted = true ∧ s.vol.params ≠ none
  settled : Settled s → (∀ pair, s.last = some pair → Stored s.vol pair) ∧ ¬ Rewrites s.gpio

variable {s s' : ParamState}

theorem inv_serialOpen {granted : Bool} {pair : Pair} (hg : Undisturbed s (.serialOpen granted pair))
    (hs : paramStep s (.serialOpen granted pair) = some s') : ParamInv s' := by
  obtain ⟨rfl, hm, hp⟩ := hg
  obtain ⟨fd, hopen, hfd⟩ := serialOpen_opens hm hp pair.1.toNat pair.2.toNat
  simp only [paramStep] at hs
  split at hs
  · cases hs
  · rw [hopen] at hs
    obtain rfl := Option.some.inj hs
    exact
      { write := fun fd' params pair' h => by
          simp only [Option.some.injEq, Prod.mk.injEq, WriteCall.write.injEq] at h
          obtain ⟨⟨rfl, rfl⟩, rfl⟩ := h
          exact ⟨rfl, hfd⟩
        close := by simp
        file := fun _ => ⟨hm, hp⟩
        settled := fun h => absurd h.2 (by simp) }

theorem inv_serial (hi : ParamInv s) (hg : Undisturbed s .serial) (hs : paramStep s .serial = some s') :
    ParamInv s' := by
  simp only [paramStep] at hs
  split at hs
  · cases hs
  · next call pair hserial =>
    obtain ⟨hm, hp⟩ := hi.file (.inl (by simp [hserial]))
    cases call with
    | write fd params =>
      obtain ⟨rfl, hfd⟩ := hi.write fd params pair hserial
      obtain rfl := Option.some.inj hs
      exact
        { write := by simp
          close := fun fd' pair' h => by
            simp only [Option.some.injEq, Prod.mk.injEq, WriteCall.close.injEq] at h
            obtain ⟨rfl, rfl⟩ := h
            exact hfd.closes pair
          file := fun _ => ⟨hm, hp⟩
          settled := fun h => absurd h.2 (by simp) }
    | close fd =>
      obtain ⟨bytes, hbytes, hclose⟩ := hi.close fd pair hserial
      have hvol := hclose s.vol rfl
      simp only [WriteCall.next, hvol] at hs
      obtain rfl := Option.some.inj hs
      exact
        { write := by simp
          close := by simp
          file := fun _ => ⟨hm, by simp⟩
          settled := fun _ => ⟨fun pair' h => by
            obtain rfl := Option.some.inj h
            exact hbytes, hg (by rw [hserial]; trivial)⟩ }

/-- A step of `para_read` keeps the invariant if it does not format during a call of the host, and, while a
pair of the host is stored, stays in the branch that loads it. -/
theorem inv_gpio (hi : ParamInv s) (hserial : s'.serial = s.serial) (hlast : s'.last = s.last)
    (hvol : s.serial ≠ none → s'.vol.mounted = s.vol.mounted ∧ s'.vol.id = s.vol.id ∧
      (s.vol.params ≠ none → s'.vol.params ≠ none))
    (hsettled : Settled s → s'.vol = s.vol ∧ ¬ Rewrites s'.gpio) : ParamInv s' where
  write fd params pair h := by
    rw [hserial] at h
    obtain ⟨hparams, hfd⟩ := hi.write fd params pair h
    exact ⟨hparams, { hfd with id := hfd.id.trans (hvol (by simp [h])).2.1.symm }⟩
  close fd pair h := by
    rw [hserial] at h
    rw [(hvol (by simp [h])).2.1]
    exact hi.close fd pair h
  file h := by
    rw [hserial, hlast] at h
    by_cases hn : s.serial = none
    · rw [(hsettled ⟨h.resolve_left (not_not.mpr hn), hn⟩).1]
      exact hi.file h
    · obtain ⟨hm, -, hp⟩ := hvol hn
      exact ⟨hm.trans (hi.file h).1, hp (hi.file h).2⟩
  settled h := by
    rw [Settled, hserial, hlast] at h
    obtain ⟨hv, hr⟩ := hsettled h
    rw [hv, hlast]
    exact ⟨(hi.settled h).1, hr⟩

theorem inv_gpioOpen {granted : Bool} (hi : ParamInv s) (hg : Undisturbed s (.gpioOpen granted))
    (hs : paramStep s (.gpioOpen granted) = some s') : ParamInv s' := by
  simp only [paramStep] at hs
  split at hs
  · cases hs
  · split at hs
    · next vol fd hopen =>
      obtain rfl := Option.some.inj hs
      refine inv_gpio hi rfl rfl (fun _ => ?_) (fun h => ?_)
      · obtain ⟨hm, hid, hp⟩ := posixOpen_frame hopen
        exact ⟨hm, hid, fun _ => hp⟩
      · obtain ⟨hm, hp⟩ := hi.file (.inr h.1)
        obtain ⟨bytes, hp⟩ := Option.ne_none_iff_exists'.mp hp
        rw [hg h, posixOpen_creat hm hp] at hopen
        obtain ⟨rfl, rfl⟩ := Prod.mk.inj (Except.ok.inj hopen)
        exact ⟨rfl, not_not.mpr (by decide : (0x13 : UInt8) &&& faModified = 0)⟩
    · next e hopen =>
      obtain rfl := Option.some.inj hs
      refine inv_gpio hi rfl rfl (fun _ => ⟨rfl, rfl, id⟩) (fun h => ?_)
      obtain ⟨hm, hp⟩ := hi.file (.inr h.1)
      obtain ⟨bytes, hp⟩ := Option.ne_none_iff_exists'.mp hp
      rw [hg h, posixOpen_creat hm hp] at hopen
      cases hopen

theorem inv_gpioNext {granted mkfsOk : Bool} (hi : ParamInv s) (hg : Undisturbed s (.gpio granted mkfsOk))
    (hs : paramStep s (.gpio granted mkfsOk) = some s') : ParamInv s' := by
  obtain ⟨call, hgpio, rfl⟩ := Option.map_eq_some_iff.mp hs
  obtain ⟨hserial, hlast⟩ := readCall_frame s granted mkfsOk call
  refine inv_gpio hi hserial hlast (fun hn => ?_) (fun h => ?_)
  · refine readCall_vol s granted mkfsOk call fun hcall => ?_
    exact Bool.eq_false_iff.mpr fun hok => hn (hg.2 (by rw [hgpio, hcall]) hok)
  · have hkeep := (hi.settled h).2
    rw [hgpio] at hkeep
    refine readCall_loads s granted mkfsOk call hkeep fun fd hcall => ?_
    have hfinds := hg.1 h
    rwa [FindsParam, hgpio, hcall] at hfinds

theorem paramInv {h : History ParamState ParamAction} (hrun : paramFile.Run h s)
    (hg : Throughout (fun _ => Undisturbed) h) : ParamInv s := by
  refine hrun.invariant (I := fun _ s => ParamInv s) ?_ ?_ hg
  · rintro s ⟨hserial, -, hlast⟩
    exact
      { write := by simp [hserial]
        close := by simp [hserial]
        file := by simp [hserial, hlast]
        settled := by simp [Settled, hlast] }
  · intro h s a s' _ hi hg hs
    cases a with
    | serialOpen granted pair => exact inv_serialOpen hg hs
    | serial => exact inv_serial hi hg hs
    | gpioOpen granted => exact inv_gpioOpen hi hg hs
    | gpio granted mkfsOk => exact inv_gpioNext hi hg hs

/-- In a run without the excluded steps, whenever the serial thread is outside `para_write` the file holds
the pair of its last call. -/
theorem last_pair_is_stored {h : History ParamState ParamAction} (hrun : paramFile.Run h s)
    (hg : Throughout (fun _ => Undisturbed) h) (hserial : s.serial = none) {pair : Pair}
    (hlast : s.last = some pair) : Stored s.vol pair :=
  ((paramInv hrun hg).settled ⟨by simp [hlast], hserial⟩).1 pair hlast

/-- The controller after start-up, with the file as given. -/
def paramStart (bytes : List UInt8) : ParamState where
  vol := { mounted := true, params := some bytes, id := 1 }
  voltageSet := voltageSetInit
  currentSet := currentSetInit
  serial := none
  gpio := none
  last := none

/-- The host's pair is stored while `para_read` is loading an older one. -/
theorem last_pair_is_stored_run :
    ∃ h s, paramFile.Run h s ∧ Throughout (fun _ => Undisturbed) h ∧ s.last = some (300, 700) ∧
      Stored s.vol (300, 700) := by
  obtain ⟨h, s, hrun, hg, hserial, hlast⟩ := System.exists_run (S := paramFile)
    (s := paramStart [1, 2, 3, 4]) ⟨rfl, rfl, rfl⟩
    [.gpioOpen true, .serialOpen true (300, 700), .gpio true true, .serial, .serial, .gpio true true]
    (fun h s => Throughout (fun _ => Undisturbed) h ∧ s.serial = none ∧ s.last = some (300, 700))
    (by decide +kernel)
  exact ⟨h, s, hrun, hg, hlast, last_pair_is_stored hrun hg hserial hlast⟩

/-- `para_read` has read zeros; the host's pair is stored; `para_read` puts the default values over it. -/
theorem pair_of_the_host_overwritten :
    ∃ h s, paramFile.Run h s ∧ s.serial = none ∧ s.last = some (300, 700) ∧
      s.vol.params.bind decodePair = some (500, 1500) ∧ ¬ Stored s.vol (300, 700) :=
  System.exists_run (S := paramFile) (s := paramStart [0, 0, 0, 0]) ⟨rfl, rfl, rfl⟩
    [.gpioOpen true, .gpio true true, .serialOpen true (300, 700), .serial, .serial, .gpio true true,
      .gpio true true, .gpio true true, .gpio true true]
    (fun _ s => s.serial = none ∧ s.last = some (300, 700) ∧
      s.vol.params.bind decodePair = some (500, 1500) ∧ ¬ Stored s.vol (300, 700))
    (by decide +kernel)

end ThyristorController.ParamFile
