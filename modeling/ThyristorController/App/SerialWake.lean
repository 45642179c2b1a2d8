import ThyristorController.Lib.Run
import ThyristorController.Drivers.SerialRx
import ThyristorController.App.Controller

/-!
# Waking `serial_thread_entry` (`applications/uart_sample.c`)

The receive interrupt stores bytes, computes the length for its callback, and calls `uart_input`, which
releases `rx_sem`; `serial_thread_entry` reads a byte, and waits on `rx_sem` when there is none. Every
critical section is one step, so an interrupt may come between the thread's read and its
`rt_sem_take`. `uart_sample` opens the device before it installs the callback, and starts the thread last.

`fifo_empty_when_blocked`: a thread that is blocked with no interrupt in progress leaves no byte behind.
The reason is a law about the time between the thread's failed read and its wake-up: outside an interrupt,
a byte in the FIFO has a token in `rx_sem`.
-/

namespace ThyristorController

open Transition

/-! ## The system -/

/-- Where the receive interrupt is: `indicate` is before its callback. -/
inductive RxIsr where
  | idle | store | indicate
deriving DecidableEq

/-- The next statement of `uart_sample` (`setIndicate`, `startup`), and then of the thread it starts;
`blocked` is inside `rt_sem_take`, `handle` is the rest of the loop's body after a byte has been read. -/
inductive RxPc where
  | setIndicate | startup | read | take | blocked
  | handle (ch : UInt8)
deriving DecidableEq

structure RxState (bufsz : Nat) where
  fifo : RxFifo bufsz
  rxSem : RtSemaphore Thread
  rxIndicate : Bool
  isr : RxIsr
  pc : RxPc

/-- `enter` starts the interrupt; `byte` is a byte that `getc` returns to it; `endOfBytes` is the end of
its loop. -/
inductive RxAction where
  | enter
  | byte (ch : UInt8)
  | endOfBytes
  | indicate
  | thread

variable {bufsz : Nat}

/-- `uart_input`. -/
def uartInput (s : RxState bufsz) : RxState bufsz :=
  match rtSemRelease s.rxSem with
  | (sem, .resumed _) => { s with rxSem := sem, pc := .read }
  | (sem, _) => { s with rxSem := sem }

/-- One statement of `uart_sample` or `serial_thread_entry`. -/
def rxThread (hsz : 2 ≤ bufsz) (s : RxState bufsz) : Option (RxState bufsz) :=
  match s.pc with
  | .setIndicate => some { s with rxIndicate := true, pc := .startup }
  | .startup => some { s with pc := .read }
  | .read =>
    match s.fifo.take hsz with
    | some (ch, fifo) => some { s with fifo := fifo, pc := .handle ch }
    | none => some { s with pc := .take }
  | .take =>
    match rtSemTake s.rxSem .serial with
    | (sem, true) => some { s with rxSem := sem, pc := .read }
    | (sem, false) => some { s with rxSem := sem, pc := .blocked }
  | .blocked => none
  | .handle _ => some { s with pc := .read }

def rxStep (hsz : 2 ≤ bufsz) (s : RxState bufsz) : RxAction → Option (RxState bufsz)
  | .enter => if s.isr = .idle then some { s with isr := .store } else none
  | .byte ch => if s.isr = .store then some { s with fifo := s.fifo.store hsz ch } else none
  | .endOfBytes =>
    if s.isr = .store then
      some { s with isr := if s.rxIndicate = true ∧ s.fifo.rxLength ≠ 0 then .indicate else .idle }
    else none
  | .indicate => if s.isr = .indicate then some (uartInput { s with isr := .idle }) else none
  | .thread => rxThread hsz s

/-- The device has been opened, and `rx_sem` initialised. -/
def rxInit (hsz : 2 ≤ bufsz) : RxState bufsz where
  fifo := .init hsz
  rxSem := rtSemInit 0 (Nat.zero_le _)
  rxIndicate := false
  isr := .idle
  pc := .setIndicate

def serialRx (bufsz : Nat) (hsz : 2 ≤ bufsz) : System (RxState bufsz) RxAction where
  init s := s = rxInit hsz
  step := rxStep hsz

/-! ## The wake-up law -/

/-- The thread has found the FIFO empty, and has not read it since. -/
def Waiting (pc : RxPc) : Prop := pc = .take ∨ pc = .blocked

structure RxInv (s : RxState bufsz) : Prop where
  suspended : s.rxSem.suspendThread = if s.pc = .blocked then [.serial] else []
  indicated : s.pc ≠ .setIndicate → s.rxIndicate = true
  law : Waiting s.pc → s.isr = .idle → ¬ s.fifo.IsEmpty → 0 < s.rxSem.value

variable {hsz : 2 ≤ bufsz} {s s' : RxState bufsz}

theorem inv_uartInput (hi : RxInv s) : RxInv (uartInput { s with isr := .idle }) := by
  have hsusp := hi.suspended
  by_cases hb : s.pc = .blocked
  · rw [if_pos hb] at hsusp
    obtain ⟨sem, hr, -, hl⟩ := rtSemRelease_resumes s.rxSem hsusp
    have heq : uartInput { s with isr := .idle } = { s with isr := .idle, rxSem := sem, pc := .read } := by
      simp only [uartInput, hr]
    rw [heq]
    exact
      { suspended := by simp [hl]
        indicated := fun _ => hi.indicated (by simp [hb])
        law := fun h => absurd h (by simp [Waiting]) }
  · rw [if_neg hb] at hsusp
    obtain ⟨sem, r, hr, hkind, hl, hv⟩ := rtSemRelease_not_waiting s.rxSem hsusp
    have heq : uartInput { s with isr := .idle } = { s with isr := .idle, rxSem := sem } := by
      rcases hkind with rfl | rfl <;> simp only [uartInput, hr]
    rw [heq]
    exact
      { suspended := by simp [hl, hb]
        indicated := hi.indicated
        law := fun _ _ _ => hv }

theorem inv_rxThread (hi : RxInv s) (hs : rxThread hsz s = some s') : RxInv s' := by
  have hsusp := hi.suspended
  unfold rxThread at hs
  split at hs
  · next hpc =>
    obtain rfl := Option.some.inj hs
    exact { suspended := by simpa [hpc] using hsusp, indicated := fun _ => rfl, law := by simp [Waiting] }
  · next hpc =>
    obtain rfl := Option.some.inj hs
    exact
      { suspended := by simpa [hpc] using hsusp
        indicated := fun _ => hi.indicated (by simp [hpc])
        law := by simp [Waiting] }
  · next hpc =>
    split at hs
    · obtain rfl := Option.some.inj hs
      exact
        { suspended := by simpa [hpc] using hsusp
          indicated := fun _ => hi.indicated (by simp [hpc])
          law := by simp [Waiting] }
    · next hnone =>
      obtain rfl := Option.some.inj hs
      exact
        { suspended := by simpa [hpc] using hsusp
          indicated := fun _ => hi.indicated (by simp [hpc])
          law := fun _ _ hne => absurd ((s.fifo.take_eq_none hsz).mp hnone) hne }
  · next hpc =>
    rw [hpc, if_neg (by simp)] at hsusp
    by_cases hv : 0 < s.rxSem.value
    · obtain ⟨hr, -, hl⟩ := rtSemTake_pos s.rxSem .serial hv
      rw [← Prod.eta (rtSemTake s.rxSem .serial), hr] at hs
      obtain rfl := Option.some.inj hs
      exact
        { suspended := by simp [hl, hsusp]
          indicated := fun _ => hi.indicated (by simp [hpc])
          law := by simp [Waiting] }
    · have hv : s.rxSem.value = 0 := by omega
      obtain ⟨hr, -, hl⟩ := rtSemTake_zero s.rxSem .serial hv
      rw [← Prod.eta (rtSemTake s.rxSem .serial), hr] at hs
      obtain rfl := Option.some.inj hs
      exact
        { suspended := by simp [hl, hsusp]
          indicated := fun _ => hi.indicated (by simp [hpc])
          law := fun _ hidle hne => absurd (hi.law (.inl hpc) hidle hne) (by omega) }
  · cases hs
  · next hpc =>
    obtain rfl := Option.some.inj hs
    exact
      { suspended := by simpa [hpc] using hsusp
        indicated := fun _ => hi.indicated (by simp [hpc])
        law := by simp [Waiting] }

theorem rxInv {h : History (RxState bufsz) RxAction} (hrun : (serialRx bufsz hsz).Run h s) : RxInv s := by
  refine hrun.always (I := fun _ s => RxInv s) ?_ ?_
  · rintro s rfl
    exact { suspended := rfl, indicated := by simp [rxInit], law := by simp [rxInit, Waiting] }
  · intro h s a s' _ hi hs
    cases a with
    | thread => exact inv_rxThread hi hs
    | enter =>
      obtain ⟨-, hs⟩ := Option.ite_none_right_eq_some.mp hs
      obtain rfl := Option.some.inj hs
      exact { hi with law := by simp }
    | byte ch =>
      obtain ⟨hisr, hs⟩ := Option.ite_none_right_eq_some.mp hs
      obtain rfl := Option.some.inj hs
      exact { hi with law := by simp [hisr] }
    | endOfBytes =>
      obtain ⟨-, hs⟩ := Option.ite_none_right_eq_some.mp hs
      obtain rfl := Option.some.inj hs
      refine { hi with law := fun hw hidle hne => ?_ }
      -- the callback is installed before the thread runs, so it is left out only for an empty FIFO
      have hind : s.rxIndicate = true := hi.indicated fun h => by
        rcases hw with hw | hw <;> exact absurd (hw.symm.trans h) (by simp)
      rw [if_pos ⟨hind, fun h0 => hne (s.fifo.rxLength_eq_zero.mp h0)⟩] at hidle
      cases hidle
    | indicate =>
      obtain ⟨-, hs⟩ := Option.ite_none_right_eq_some.mp hs
      obtain rfl := Option.some.inj hs
      exact inv_uartInput hi

/-- A thread that is blocked on `rx_sem`, with no interrupt in progress, has left no byte in the FIFO. -/
theorem fifo_empty_when_blocked {h : History (RxState bufsz) RxAction} (hrun : (serialRx bufsz hsz).Run h s)
    (hblocked : s.pc = .blocked) (hidle : s.isr = .idle) : s.rxSem.value = 0 ∧ s.fifo.IsEmpty := by
  have hi := rxInv hrun
  have hsusp := hi.suspended
  rw [if_pos hblocked] at hsusp
  have hv : s.rxSem.value = 0 := s.rxSem.value_eq_zero (by simp [hsusp])
  refine ⟨hv, ?_⟩
  by_contra hne
  exact absurd (hi.law (.inr hblocked) hidle hne) (by omega)

/-- Two bytes and the interrupt's callback come between the thread's read and its `rt_sem_take`. -/
theorem fifo_empty_when_blocked_run :
    ∃ h s, (serialRx rtSerialRbBufsz (by decide)).Run h s ∧ s.pc = .blocked ∧
      s.rxSem.value = 0 ∧ s.fifo.IsEmpty := by
  obtain ⟨h, s, hrun, hpc, hisr⟩ := System.exists_run (S := serialRx rtSerialRbBufsz (by decide)) rfl
    [.thread, .thread, .thread, .enter, .byte 1, .byte 2, .endOfBytes, .indicate, .thread, .thread, .thread,
      .thread, .thread, .thread, .thread]
    (fun _ s => s.pc = .blocked ∧ s.isr = .idle) (by decide +kernel)
  obtain ⟨hv, he⟩ := fifo_empty_when_blocked hrun hpc hisr
  exact ⟨h, s, hrun, hpc, hv, he⟩

end ThyristorController
