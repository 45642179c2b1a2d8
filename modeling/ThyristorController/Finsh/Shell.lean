import ThyristorController.Finsh.Complete
import ThyristorController.Kernel.Kprintf
import ThyristorController.Lib.Run

/-!
# The shell's line (`components/finsh/shell.c`, `msh.c`)

`finsh_thread_entry` takes one byte after the other from the console: an escape sequence moves the cursor or fetches a
line of the history, a tab completes the name of a command or of a file, the end of the line hands it to `msh_exec`.
One turn of its loop is one step. What the console shows is what `rt_kprintf` was given.

The sizes are those of `rtconfig.h`. Every access to the line is checked against its `FINSH_CMD_SIZE + 1` characters:
a turn that leaves them has no result. The prompt has no `%` in it, and `msh_exec` is the text that the command prints.
-/

namespace ThyristorController.Shell

open LineEdit Transition
open Kservice (ch)

/-- `FINSH_CMD_SIZE`, `FINSH_HISTORY_LINES` and `RT_CONSOLEBUF_SIZE`; the positions are of type `rt_uint16_t`. -/
structure Sizes where
  cmdSize : Nat
  historyLines : Nat
  consoleBufSize : Nat
  cmdSize_pos : 0 < cmdSize
  cmdSize_lt : cmdSize < 65536
  historyLines_pos : 0 < historyLines
  historyLines_lt : historyLines < 65536

/-- `enum input_stat`. -/
inductive InputStat
  | waitNormal
  | waitSpecKey
  | waitFuncKey
  deriving DecidableEq

/-- `struct finsh_shell`, with what was printed and the calls of `msh_exec`, the first one first. -/
structure FinshShell where
  stat : InputStat
  echoMode : Bool
  currentHistory : Nat
  historyCount : Nat
  cmdHistory : List (List UInt8)
  line : List UInt8
  linePosition : Nat
  lineCurpos : Nat
  console : List UInt8
  executed : List (List UInt8 × Nat)

/-- A byte from the console, and what the calls answer that its turn makes: `finsh_get_prompt`, the command, and the
file system. -/
structure Input where
  ch : UInt8
  prompt : List UInt8
  printed : List UInt8
  files : Files

/-! ## The output -/

/-- What `rt_kprintf` hands to the console device. -/
def shown (z : Sizes) (text : List UInt8) : List UInt8 :=
  if text.length + 1 < z.consoleBufSize then text else text.take (z.consoleBufSize - 2) ++ [0]

/-- `shown` is what `rt_kprintf` makes of the text of its format, with a buffer of that size. -/
theorem rtKprintf_shown {z : Sizes} {b : Kservice.LogBuf} (m : BitVec 32 → UInt8) {fmt text : List UInt8}
    {args : List Kservice.VaArg} (hb : b.size = z.consoleBufSize) (ht : Kservice.text fmt args = some text)
    (hroom : b.addr.toNat + text.length + 1 < 2 ^ 32) :
    Kservice.rtKprintf m b true fmt args = some (shown z text) := by
  rw [Kservice.rtKprintf_device m b ht hroom, shown, hb]

namespace FinshShell

def kprintf (z : Sizes) (text : List UInt8) (s : FinshShell) : FinshShell :=
  { s with console := s.console ++ shown z text }

/-- `rt_kprintf("\b")`, so many times. -/
def backspaces (z : Sizes) : Nat → FinshShell → FinshShell
  | 0, s => s
  | n + 1, s => backspaces z n (s.kprintf z [0x08])

/-- Each text with a `rt_kprintf` of its own. -/
def kprintfs (z : Sizes) (texts : List (List UInt8)) (s : FinshShell) : FinshShell :=
  texts.foldl (fun s text => s.kprintf z text) s

end FinshShell

/-! ## The keys -/

namespace FinshShell

variable (z : Sizes) (table : List FinshSyscall)

/-- The line that is stored in the history: `line_position` characters of a cleared row. -/
def historyRow (s : FinshShell) : Option (List UInt8) :=
  if s.linePosition ≤ z.cmdSize then
    some (s.line.take s.linePosition ++ List.replicate (z.cmdSize - s.linePosition) 0)
  else none

/-- "push history": a full one is moved, and the same line as the last one is not stored. -/
def storeHistory (s : FinshShell) : Option FinshShell :=
  if z.historyLines ≤ s.historyCount then
    if s.cmdHistory[z.historyLines - 1]? ≠ some (s.line.take z.cmdSize) then
      (s.historyRow z).map fun row =>
        { s with cmdHistory := s.cmdHistory.tail ++ [row], historyCount := z.historyLines }
    else some s
  else if s.historyCount = 0 ∨ s.cmdHistory[s.historyCount - 1]? ≠ some (s.line.take z.cmdSize) then
    (s.historyRow z).map fun row =>
      { s with cmdHistory := s.cmdHistory.set s.historyCount row, historyCount := (s.historyCount + 1) % 65536 }
  else some s

/-- `shell_push_history`. -/
def shellPushHistory (s : FinshShell) : Option FinshShell :=
  (if s.linePosition ≠ 0 then s.storeHistory z else some s).map fun s => { s with currentHistory := s.historyCount }

/-- The row of the history becomes the line, and `shell_handle_history` shows it. -/
def shellHandleHistory (i : Input) (s : FinshShell) : Option FinshShell := do
  let row ← s.cmdHistory[s.currentHistory]?
  let line ← write s.line 0 row
  let text ← upTo 0 line 0
  let s := { s with line := line, lineCurpos := text.length, linePosition := text.length }
  some ((s.kprintf z [0x1b, ch '[', ch '2', ch 'K', 0x0d]).kprintf z (i.prompt ++ text))

def upKey (i : Input) (s : FinshShell) : Option FinshShell :=
  if 0 < s.currentHistory then shellHandleHistory z i { s with currentHistory := s.currentHistory - 1 } else some s

def downKey (i : Input) (s : FinshShell) : Option FinshShell :=
  if s.currentHistory + 1 < s.historyCount then shellHandleHistory z i { s with currentHistory := s.currentHistory + 1 }
  else if s.historyCount ≠ 0 then shellHandleHistory z i { s with currentHistory := s.historyCount - 1 }
  else some s

def leftKey (s : FinshShell) : FinshShell :=
  if s.lineCurpos ≠ 0 then { s.kprintf z [0x08] with lineCurpos := s.lineCurpos - 1 } else s

def rightKey (s : FinshShell) : Option FinshShell :=
  if s.lineCurpos < s.linePosition then do
    let c ← s.line[s.lineCurpos]?
    some { s.kprintf z [c] with lineCurpos := s.lineCurpos + 1 }
  else some s

def tabKey (i : Input) (s : FinshShell) : Option FinshShell := do
  let s := (s.backspaces z s.lineCurpos).kprintf z [0x0a]
  let (line, texts) ← mshAutoComplete table i.files s.line
  let text ← upTo 0 line 0
  let s := ((s.kprintfs z texts).kprintf z (i.prompt ++ text))
  some { s with line := line, lineCurpos := text.length, linePosition := text.length }

/-- The rubbed out character has others behind it. -/
def rubOutMiddle (s : FinshShell) : Option FinshShell := do
  let line ← move s.line s.lineCurpos (s.lineCurpos + 1) (s.linePosition - s.lineCurpos)
  let line ← store line s.linePosition 0
  let text ← upTo 0 line s.lineCurpos
  let s := { s with line := line }.kprintf z ([0x08] ++ text ++ [ch ' ', ch ' ', 0x08])
  some (s.backspaces z (s.linePosition + 1 - s.lineCurpos))

def rubOutEnd (s : FinshShell) : Option FinshShell := do
  let line ← store s.line s.linePosition 0
  some ({ s with line := line }.kprintf z [0x08, ch ' ', 0x08])

def backspaceKey (s : FinshShell) : Option FinshShell :=
  if s.lineCurpos = 0 then some s
  else
    let s := { s with linePosition := (s.linePosition + 65535) % 65536, lineCurpos := s.lineCurpos - 1 }
    if s.lineCurpos < s.linePosition then s.rubOutMiddle z else s.rubOutEnd z

def enterKey (i : Input) (s : FinshShell) : Option FinshShell := do
  let s ← s.shellPushHistory z
  let s := if s.echoMode then s.kprintf z [0x0a] else s
  let s := { s with executed := s.executed ++ [(s.line, s.linePosition)], console := s.console ++ i.printed }
  some { s.kprintf z i.prompt with line := List.replicate (z.cmdSize + 1) 0, lineCurpos := 0, linePosition := 0 }

/-- "it's a large line, discard it". -/
def discardLarge (s : FinshShell) : FinshShell :=
  if z.cmdSize ≤ s.linePosition then { s with linePosition := 0 } else s

/-- A character in front of others. -/
def insertMiddle (c : UInt8) (s : FinshShell) : Option FinshShell := do
  let line ← move s.line (s.lineCurpos + 1) s.lineCurpos (s.linePosition - s.lineCurpos)
  let line ← store line s.lineCurpos c
  let s := { s with line := line }
  let s ← if s.echoMode then (upTo 0 line s.lineCurpos).map fun text => s.kprintf z text else some s
  some (s.backspaces z (s.linePosition - s.lineCurpos))

def insertEnd (c : UInt8) (s : FinshShell) : Option FinshShell := do
  let line ← store s.line s.linePosition c
  let s := { s with line := line }
  some (if s.echoMode then s.kprintf z [c] else s)

/-- Both positions behind the character; "clear command line". -/
def advance (s : FinshShell) : FinshShell :=
  let s := { s with linePosition := (s.linePosition + 1) % 65536, lineCurpos := (s.lineCurpos + 1) % 65536 }
  if z.cmdSize ≤ s.linePosition then { s with linePosition := 0, lineCurpos := 0 } else s

/-- "normal character". -/
def normalKey (c : UInt8) (s : FinshShell) : Option FinshShell :=
  let s := s.discardLarge z
  (if s.lineCurpos < s.linePosition then s.insertMiddle z c else s.insertEnd z c).map fun s => s.advance z

/-- The part of the loop behind the control keys. -/
def plainKey (i : Input) (s : FinshShell) : Option FinshShell :=
  if i.ch = 0 ∨ i.ch = 0xff then some s
  else if i.ch = 0x09 then s.tabKey z table i
  else if i.ch = 0x7f ∨ i.ch = 0x08 then s.backspaceKey z
  else if i.ch = 0x0d ∨ i.ch = 0x0a then s.enterKey z i
  else s.normalKey z i.ch

/-- One turn of the loop of `finsh_thread_entry`. -/
def turn (s : FinshShell) (i : Input) : Option FinshShell :=
  if i.ch = 0x1b then some { s with stat := .waitSpecKey }
  else
    match s.stat with
    | .waitSpecKey =>
      if i.ch = 0x5b then some { s with stat := .waitFuncKey } else plainKey z table i { s with stat := .waitNormal }
    | .waitFuncKey =>
      let s := { s with stat := .waitNormal }
      if i.ch = 0x41 then s.upKey z i
      else if i.ch = 0x42 then s.downKey z i
      else if i.ch = 0x44 then some (s.leftKey z)
      else if i.ch = 0x43 then s.rightKey z
      else s.plainKey z table i
    | .waitNormal => s.plainKey z table i

/-- The shell when it has printed its first prompt. -/
def start (echoMode : Bool) (prompt : List UInt8) : FinshShell :=
  FinshShell.kprintf z prompt
    { stat := .waitNormal, echoMode := echoMode, currentHistory := 0, historyCount := 0,
      cmdHistory := List.replicate z.historyLines (List.replicate z.cmdSize 0),
      line := List.replicate (z.cmdSize + 1) 0, linePosition := 0, lineCurpos := 0, console := [], executed := [] }

end FinshShell

/-- The shell under any bytes. -/
def shell (z : Sizes) (table : List FinshSyscall) (echoMode : Bool) (prompt : List UInt8) :
    System FinshShell Input where
  init s := s = FinshShell.start z echoMode prompt
  step s i := s.turn z table i

end ThyristorController.Shell
