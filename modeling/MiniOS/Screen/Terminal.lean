import MiniOS.Lib.Loop
import MiniOS.Lib.Machine
import MiniOS.Lib.CString
import MiniOS.Target

/-!
# The screen driver (`kernel/screen.c`)

The terminal writes character cells to the VGA buffer, keeps the rows pushed
off the top in a ring of 200, and can show them again (`terminal_scroll_up`,
`terminal_scroll_down`).  The buffers are memory from their first cell on;
nothing here checks an index.  The cursor registers and the serial port, which
only copy what is below, are left out.

The tab branch of `terminal_putchar` is a loop, so a character that is put
comes back only with enough rounds; `none` is a call that has not come back.
-/

namespace MiniOS

open Lib

/-- `vga_color_t`. -/
inductive VgaColor where
  | black | blue | green | cyan | red | magenta | brown | lightGrey
  | darkGrey | lightBlue | lightGreen | lightCyan | lightRed | lightMagenta | yellow | white
deriving DecidableEq

def vgaCols : Nat := 80
def vgaRowsMax : Nat := 25
def vgaRows : Nat := 24

/-- `HISTORY_LINES`. -/
def historyLines : Nat := 200

structure Terminal where
  vgaBuf : Nat → UInt16
  termRow : Nat
  termCol : Nat
  termColor : UInt8
  historyBuf : Int → Nat → UInt16
  historyHead : Nat
  historyCount : Nat
  viewScroll : Int
  liveSnapshot : Int → Nat → UInt16

def makeColor (fg bg : VgaColor) : UInt8 :=
  (UInt8.ofNat bg.ctorIdx <<< 4) ||| (UInt8.ofNat fg.ctorIdx &&& 0x0F)

def makeVgaEntry (c color : UInt8) : UInt16 := (color.toUInt16 <<< 8) ||| c.toUInt16

/-- `save_history_line(&vga_buf[0])`. -/
def saveHistoryLine (t : Terminal) : Terminal :=
  { t with
    historyBuf := fun r c =>
      if r = t.historyHead ∧ c < vgaCols then t.vgaBuf c else t.historyBuf r c
    historyHead := (t.historyHead + 1) % historyLines
    historyCount := if t.historyCount < historyLines then t.historyCount + 1 else t.historyCount }

/-- A cell of the VGA memory, `history_buf` or `live_snapshot`. -/
inductive Access where
  | vga (i : Nat)
  | history (row : Int) (col : Nat)
  | snapshot (row : Int) (col : Nat)

def Terminal.read (t : Terminal) : Access → UInt16
  | .vga i => t.vgaBuf i
  | .history row col => t.historyBuf row col
  | .snapshot row col => t.liveSnapshot row col

/-- Where `redraw_scroll` reads what it shows in row `r` and column `c`. -/
def redrawSource (historyHead : Nat) (viewScroll : Int) (r c : Nat) : Access :=
  if viewScroll = 0 then .snapshot r c
  else if r < viewScroll then
    .history ((historyHead - viewScroll + r + historyLines).tmod historyLines) c
  else .snapshot (r - viewScroll) c

def redrawCell (t : Terminal) (r c : Nat) : UInt16 :=
  t.read (redrawSource t.historyHead t.viewScroll r c)

def redrawScroll (t : Terminal) : Terminal :=
  { t with
    vgaBuf := fun i =>
      if i < vgaRows * vgaCols then redrawCell t (i / vgaCols) (i % vgaCols) else t.vgaBuf i }

def terminalScrollUp (t : Terminal) (lines : Int) : Terminal :=
  let t :=
    if t.viewScroll = 0 then
      { t with
        liveSnapshot := fun r c =>
          if 0 ≤ r ∧ r < vgaRows ∧ c < vgaCols then t.vgaBuf (r.toNat * vgaCols + c)
          else t.liveSnapshot r c }
    else t
  let t := { t with viewScroll := i32 (t.viewScroll + lines) }
  let t := if t.viewScroll > t.historyCount then { t with viewScroll := t.historyCount } else t
  if t.viewScroll > 0 then redrawScroll t else t

def terminalScrollDown (t : Terminal) (lines : Int) : Terminal :=
  if t.viewScroll > 0 then
    let t := { t with viewScroll := i32 (t.viewScroll - lines) }
    let t := if t.viewScroll < 0 then { t with viewScroll := 0 } else t
    redrawScroll t
  else t

/-- `scroll`: the first row goes to the history, the others move up, the last is blank. -/
def scroll (t : Terminal) : Terminal :=
  let t := saveHistoryLine t
  { t with
    vgaBuf := fun i =>
      if i < (vgaRows - 1) * vgaCols then t.vgaBuf (i + vgaCols)
      else if i < vgaRows * vgaCols then makeVgaEntry (ch ' ') t.termColor
      else t.vgaBuf i
    termRow := vgaRows - 1 }

/-- The test at the start of `terminal_putchar` and `terminal_clear`. -/
def leaveScrollback (t : Terminal) : Terminal :=
  if t.viewScroll > 0 then redrawScroll { t with viewScroll := 0 } else t

def terminalClear (t : Terminal) : Terminal :=
  let t := leaveScrollback t
  { t with
    vgaBuf := fun i =>
      if i < vgaRowsMax * vgaCols then makeVgaEntry (ch ' ') t.termColor else t.vgaBuf i
    termRow := 0
    termCol := 0 }

def terminalInit (t : Terminal) : Terminal :=
  terminalClear { t with termColor := makeColor .lightGrey .black, termRow := 0, termCol := 0 }

def terminalSetcolor (t : Terminal) (fg bg : VgaColor) : Terminal :=
  { t with termColor := makeColor fg bg }

/-- `vga_buf[term_row * VGA_COLS + term_col] = make_vga_entry(c, term_color)`. -/
def putCell (t : Terminal) (c : UInt8) : Terminal :=
  { t with
    vgaBuf := Function.update t.vgaBuf (t.termRow * vgaCols + t.termCol)
      (makeVgaEntry c t.termColor) }

/-- `term_col = 0; term_row++;` and a scroll below the last row. -/
def nextLine (t : Terminal) : Terminal :=
  let t := { t with termCol := 0, termRow := t.termRow + 1 }
  if t.termRow ≥ vgaRows then scroll t else t

/-- The end of `terminal_putchar`: a character that is none of the special ones. -/
def putPrintable (t : Terminal) (c : UInt8) : Terminal :=
  let t := putCell t c
  let t := { t with termCol := t.termCol + 1 }
  if t.termCol ≥ vgaCols then nextLine t else t

def putBackspace (t : Terminal) : Terminal :=
  let t :=
    if t.termCol > 0 then { t with termCol := t.termCol - 1 }
    else if t.termRow > 0 then { t with termRow := t.termRow - 1, termCol := vgaCols - 1 }
    else t
  putCell t (ch ' ')

/-- One round of `while (term_col < next_tab) terminal_putchar(' ');`. -/
def tabBody (nextTab : Nat) (t : Terminal) : Terminal ⊕ Terminal :=
  if t.termCol < nextTab then .inl (putPrintable (leaveScrollback t) (ch ' ')) else .inr t

/-- `(term_col + 8) & ~7`. -/
def nextTab (col : Nat) : Nat := (col + 8) &&& (2 ^ 32 - 1 - 7)

/-- `terminal_putchar`, its tab loop for at most `fuel` rounds. -/
def terminalPutchar (fuel : Nat) (t : Terminal) (c : UInt8) : Option Terminal :=
  let t := leaveScrollback t
  if c = ch '\n' then some (nextLine t)
  else if c = ch '\r' then some { t with termCol := 0 }
  else if c = 8 then some (putBackspace t)
  else if c = ch '\t' then loop (tabBody (nextTab t.termCol)) fuel t
  else some (putPrintable t c)

/-- `terminal_write`. -/
def terminalWrite (fuel : Nat) (t : Terminal) : List UInt8 → Option Terminal
  | [] => some t
  | c :: data => do
    let t ← terminalPutchar fuel t c
    terminalWrite fuel t data

/-- `terminal_writestring`: up to the NUL. -/
def terminalWritestring (fuel : Nat) (t : Terminal) : List UInt8 → Option Terminal
  | [] => some t
  | c :: s =>
    if c = 0 then some t
    else do
      let t ← terminalPutchar fuel t c
      terminalWritestring fuel t s

def terminalWritecolor (fuel : Nat) (t : Terminal) (s : List UInt8) (fg bg : VgaColor) :
    Option Terminal := do
  let saved := t.termColor
  let t ← terminalWritestring fuel { t with termColor := makeColor fg bg } s
  some { t with termColor := saved }

def terminalSetcursor (t : Terminal) (row col : Int) : Terminal :=
  let t := if row ≥ 0 ∧ row < vgaRows then { t with termRow := row.toNat } else t
  if col ≥ 0 ∧ col < vgaCols then { t with termCol := col.toNat } else t

/-! ## The terminal and its callers -/

inductive TerminalCall where
  | init
  | clear
  | setcolor (fg bg : VgaColor)
  | putchar (c : UInt8)
  | write (data : List UInt8)
  | writestring (s : List UInt8)
  | writecolor (s : List UInt8) (fg bg : VgaColor)
  | setcursor (row col : Int)
  | scrollUp (lines : Int)
  | scrollDown (lines : Int)

def TerminalCall.run (fuel : Nat) (t : Terminal) : TerminalCall → Option Terminal
  | .init => some (terminalInit t)
  | .clear => some (terminalClear t)
  | .setcolor fg bg => some (terminalSetcolor t fg bg)
  | .putchar c => terminalPutchar fuel t c
  | .write data => terminalWrite fuel t data
  | .writestring s => terminalWritestring fuel t s
  | .writecolor s fg bg => terminalWritecolor fuel t s fg bg
  | .setcursor row col => some (terminalSetcursor t row col)
  | .scrollUp lines => some (terminalScrollUp t lines)
  | .scrollDown lines => some (terminalScrollDown t lines)

/-- The statics before `terminal_init`, over any contents of the VGA memory. -/
def Terminal.boot (vga : Nat → UInt16) : Terminal where
  vgaBuf := vga
  termRow := 0
  termCol := 0
  termColor := 0
  historyBuf := fun _ _ => 0
  historyHead := 0
  historyCount := 0
  viewScroll := 0
  liveSnapshot := fun _ _ => 0

/-- Any calls with any arguments after `terminal_init`; a call is given with the
rounds it takes. -/
def terminalMachine : Machine Terminal (Nat × TerminalCall) Unit where
  init t := ∃ vga, t = terminalInit (Terminal.boot vga)
  legal _ _ := True
  step t e := (e.2.run e.1 t).map fun t => ((), t)

end MiniOS
