import Mathlib.Data.List.FinRange
import MiniOS.Lib.LineBuffer
import MiniOS.Lib.Machine
import MiniOS.Memory.Strings
import MiniOS.Keyboard.Readline
import MiniOS.Shell.Commands

/-!
# The shell's line editor (`shell_readline` in `kernel/shell.c`)

The line is edited in place in `buf` and echoed key by key; the echo reads the
cursor back from the terminal, so the terminal is part of the state.  The
`int` variables are integers: that none of them leaves 0 .. 255 is
`Edits.bounds`.

The keys to come are a list, as in `keyboard_readline`; waiting for a key
beyond its end is `none`, as is a tab that the terminal does not come back
from.
-/

namespace MiniOS

open Lib

def inputMax : Nat := 256
def historyMax : Nat := 10

/-- `shell_history` and `history_count`. -/
structure ShellHistory where
  shellHistory : Fin historyMax → Chars inputMax
  historyCount : Nat
  count_le : historyCount ≤ historyMax

/-- `shell_history[i]`; there is nothing to read outside of the array. -/
def ShellHistory.row (h : ShellHistory) (i : Int) : Option (Chars inputMax) :=
  if hi : 0 ≤ i ∧ i.toNat < historyMax then some (h.shellHistory ⟨i.toNat, hi.2⟩) else none

/-- The variables of `shell_readline`, with the terminal it writes to. -/
structure LineEdit (n : Nat) where
  buf : Chars n
  lineLen : Int
  cursorPos : Int
  historyIdx : Int
  term : Terminal

variable {n : Nat}

/-! ## Echo -/

/-- `terminal_putchar(buf[i])` for `k` indices from `i` upwards. -/
def echoChars (fuel : Nat) (buf : Chars n) (i : Nat) : Nat → Terminal → Option Terminal
  | 0, t => some t
  | k + 1, t => do
    let t ← terminalPutchar fuel t (buf.get i)
    echoChars fuel buf (i + 1) k t

/-- `for (int i = 0; i < line_len; i++) terminal_putchar(' ');` -/
def echoBlanks (fuel : Nat) : Nat → Terminal → Option Terminal
  | 0, t => some t
  | k + 1, t => do
    let t ← terminalPutchar fuel t (ch ' ')
    echoBlanks fuel k t

/-- `if (c_col > 0) c_col--; else if (r > 0) { r--; c_col = 79; }` -/
def cellBefore : Nat × Nat → Nat × Nat
  | (r, col) => if col > 0 then (r, col - 1) else if r > 0 then (r - 1, 79) else (r, col)

/-- `if (c_col < 79) c_col++; else { r++; c_col = 0; }` -/
def cellAfter : Nat × Nat → Nat × Nat
  | (r, col) => if col < 79 then (r, col + 1) else (r + 1, 0)

/-- The cell after an inserted character, held on the last row. -/
def cellTyped : Nat × Nat → Nat × Nat
  | (r, col) =>
    let (col, r) := if col + 1 ≥ 80 then (0, r + 1) else (col + 1, r)
    (if r ≥ 24 then 23 else r, col)

def Terminal.cell (t : Terminal) : Nat × Nat := (t.termRow, t.termCol)

/-- `terminal_setcursor(r, c)`. -/
def setCell (t : Terminal) (cell : Nat × Nat) : Terminal := terminalSetcursor t cell.1 cell.2

/-! ## Keys -/

/-- Backspace. -/
def lineBackspace (fuel : Nat) (e : LineEdit n) : Option (LineEdit n) :=
  if e.cursorPos > 0 then do
    let cursorPos := e.cursorPos - 1
    let lineLen := e.lineLen - 1
    let buf ← e.buf.shiftDown cursorPos.toNat (lineLen - cursorPos).toNat
    let buf ← buf.put lineLen.toNat 0
    let t ← terminalPutchar fuel e.term 8
    let save := t.cell
    let t ← echoChars fuel buf cursorPos.toNat (lineLen - cursorPos).toNat t
    let t ← terminalPutchar fuel t (ch ' ')
    some { e with buf, lineLen, cursorPos, term := setCell t save }
  else some e

def lineLeft (e : LineEdit n) : LineEdit n :=
  if e.cursorPos > 0 then
    { e with cursorPos := e.cursorPos - 1, term := setCell e.term (cellBefore e.term.cell) }
  else e

def lineRight (e : LineEdit n) : LineEdit n :=
  if e.cursorPos < e.lineLen then
    { e with cursorPos := e.cursorPos + 1, term := setCell e.term (cellAfter e.term.cell) }
  else e

/-- A printable character. -/
def linePrintable (fuel len : Nat) (c : UInt8) (e : LineEdit n) : Option (LineEdit n) :=
  if e.lineLen < i32 len - 1 then do
    let buf ← e.buf.shiftUp e.lineLen.toNat (e.lineLen - e.cursorPos).toNat
    let buf ← buf.put e.cursorPos.toNat c
    let lineLen := e.lineLen + 1
    let buf ← buf.put lineLen.toNat 0
    let save := e.term.cell
    let t ← echoChars fuel buf e.cursorPos.toNat (lineLen - e.cursorPos).toNat e.term
    some { e with buf, lineLen, cursorPos := e.cursorPos + 1, term := setCell t (cellTyped save) }
  else some e

/-- `load_history`: the line is wiped from the screen and replaced. -/
def loadHistory (fuel : Nat) (h : ShellHistory) (len : Nat) (e : LineEdit n) :
    Option (LineEdit n) := do
  let start := cellBefore^[e.cursorPos.toNat] e.term.cell
  let t ← echoBlanks fuel e.lineLen.toNat (setCell e.term start)
  let t := setCell t start
  if e.historyIdx = h.historyCount then do
    let buf ← e.buf.put 0 0
    some { e with buf, lineLen := 0, cursorPos := 0, term := t }
  else do
    let row ← h.row e.historyIdx
    let buf ← strncpy e.buf 0 row.bytes (u32 (len + 2 ^ 32 - 1))
    let buf ← buf.put (u32 (len + 2 ^ 32 - 1)) 0
    let lineLen := strlen buf.bytes
    let t ← terminalWritestring fuel t buf.bytes
    some { e with buf, lineLen, cursorPos := lineLen, term := t }

def lineUp (fuel : Nat) (h : ShellHistory) (len : Nat) (e : LineEdit n) : Option (LineEdit n) :=
  if e.historyIdx > 0 then loadHistory fuel h len { e with historyIdx := e.historyIdx - 1 }
  else some e

def lineDown (fuel : Nat) (h : ShellHistory) (len : Nat) (e : LineEdit n) : Option (LineEdit n) :=
  if e.historyIdx < h.historyCount then
    loadHistory fuel h len { e with historyIdx := e.historyIdx + 1 }
  else some e

/-- One round of the loop for a key other than Enter. -/
def shellKey (fuel : Nat) (h : ShellHistory) (len : Nat) (e : LineEdit n) (c : UInt8) :
    Option (LineEdit n) :=
  if c = 8 ∨ c = 127 then lineBackspace fuel e
  else if c = keyLeftArrow then some (lineLeft e)
  else if c = keyRightArrow then some (lineRight e)
  else if c = keyUpArrow then lineUp fuel h len e
  else if c = keyDownArrow then lineDown fuel h len e
  else if 32 ≤ c ∧ c < 127 then linePrintable fuel len c e
  else some e

def IsEnter (c : UInt8) : Prop := c = ch '\n' ∨ c = ch '\r'

instance (c : UInt8) : Decidable (IsEnter c) := inferInstanceAs (Decidable (_ ∨ _))

/-- What `shell_readline` leaves: the buffer, the terminal and the keys not read. -/
structure LineRead (n : Nat) where
  buf : Chars n
  term : Terminal
  keys : List UInt8

/-- Enter: the rest of the line is echoed and the line is done. -/
def lineEnter (fuel : Nat) (e : LineEdit n) (keys : List UInt8) : Option (LineRead n) := do
  let t ← echoChars fuel e.buf e.cursorPos.toNat (e.lineLen - e.cursorPos).toNat e.term
  let t ← terminalPutchar fuel t (ch '\n')
  let buf ← e.buf.put e.lineLen.toNat 0
  some ⟨buf, t, keys⟩

/-- The loop of `shell_readline`. -/
def shellReadlineLoop (fuel : Nat) (h : ShellHistory) (len : Nat) (e : LineEdit n) :
    List UInt8 → Option (LineRead n)
  | [] => none
  | c :: keys =>
    if IsEnter c then lineEnter fuel e keys
    else do
      let e ← shellKey fuel h len e c
      shellReadlineLoop fuel h len e keys

/-- The variables before the first key. -/
def lineStart (h : ShellHistory) (buf : Chars n) (t : Terminal) : Option (LineEdit n) := do
  let buf ← buf.put 0 0
  some ⟨buf, 0, 0, h.historyCount, t⟩

/-- `shell_readline(buf, len)`. -/
def shellReadline (fuel : Nat) (h : ShellHistory) (buf : Chars n) (len : Nat) (t : Terminal)
    (keys : List UInt8) : Option (LineRead n) := do
  let e ← lineStart h buf t
  shellReadlineLoop fuel h len e keys

/-- The variables once the keys, none of them Enter, are handled. -/
def lineAfter (fuel : Nat) (h : ShellHistory) (buf : Chars n) (len : Nat) (t : Terminal)
    (keys : List UInt8) : Option (LineEdit n) := do
  let e ← lineStart h buf t
  keys.foldlM (shellKey fuel h len) e

/-! ## The lines of a session -/

/-- `strcpy(shell_history[i - 1], shell_history[i])` for `i` from 1 to 9. -/
def dropOldest (rows : Fin historyMax → Chars inputMax) :
    Option (Fin historyMax → Chars inputMax) :=
  (List.finRange 9).foldlM
    (fun rows i => do
      let row ← strcpy (rows i.castSucc) (rows i.succ).bytes
      some (Function.update rows i.castSucc row)) rows

/-- `strncpy(row, line, INPUT_MAX - 1); row[INPUT_MAX - 1] = '\0';` -/
def copyLine (row : Chars inputMax) (line : List UInt8) : Option (Chars inputMax) := do
  let row ← strncpy row 0 line (inputMax - 1)
  row.put (inputMax - 1) 0

/-- The part of `shell_run` that adds a line to the history. -/
def addToHistory (h : ShellHistory) (line : List UInt8) : Option ShellHistory :=
  if hc : h.historyCount < historyMax then do
    let row ← copyLine (h.shellHistory ⟨h.historyCount, hc⟩) line
    some ⟨Function.update h.shellHistory ⟨h.historyCount, hc⟩ row, h.historyCount + 1, hc⟩
  else do
    let rows ← dropOldest h.shellHistory
    let row ← copyLine (rows ⟨9, Nat.lt_succ_self 9⟩) line
    some ⟨Function.update rows ⟨9, Nat.lt_succ_self 9⟩ row, h.historyCount, h.count_le⟩

/-- The statics before `shell_run`. -/
def ShellHistory.boot : ShellHistory := ⟨fun _ => Chars.fill inputMax 0, 0, Nat.zero_le _⟩

/-- What a prompt starts from besides the history, and the keys typed at it. -/
structure Prompt where
  fuel : Nat
  inputBuf : Chars inputMax
  term : Terminal
  keys : List UInt8

/-- A round of `shell_run` up to the dispatch: the line is read, and added to
the history unless it is blank. -/
def readCommand (h : ShellHistory) (p : Prompt) : Option (LineRead inputMax × ShellHistory) := do
  let r ← shellReadline p.fuel h p.inputBuf inputMax p.term p.keys
  let line := skipSpaces r.buf.bytes
  if line.headD 0 = 0 then some (r, h)
  else do
    let h ← addToHistory h line
    some (r, h)

/-- Any number of prompts.  The commands in between do not write to the history;
what they leave in `input_buf` and on the terminal is not restricted. -/
def promptMachine : Machine ShellHistory Prompt (LineRead inputMax) where
  init h := h = ShellHistory.boot
  legal _ _ := True
  step := readCommand

end MiniOS
