import MiniOS.Lib.Ports
import MiniOS.Screen.Bounds

/-!
# The ports of the screen driver

Next to the VGA memory, the driver writes to the CRT controller, whose registers
14 and 15 hold the place of the blinking cursor and whose registers 10 and 11
its shape, and copies what it prints to the serial port.  `TerminalCall.ops`
lists the accesses of a call, branch by branch and loop by loop.

`cursor_follows`: after any calls, with scrolling by the interrupt handlers among
them, the controller has the cursor where the driver has it, and hides it exactly
while the view is scrolled back.
-/

namespace MiniOS

open Lib

/-! ## The accesses of a call -/

def crtcIndex : UInt16 := 0x3D4
def crtcData : UInt16 := 0x3D5
def serialPort : UInt16 := 0x3F8

/-- The registers of the cursor: its first and last scan line, and its place. -/
def cursorRegs : List UInt8 := [0x0A, 0x0B, 0x0E, 0x0F]

/-- `update_cursor`. -/
def updateCursorOps (t : Terminal) : List PortOp :=
  let pos := (t.termRow * vgaCols + t.termCol).toUInt16
  [.out crtcIndex 0x0F, .out crtcData (pos &&& 0xFF).toUInt8,
    .out crtcIndex 0x0E, .out crtcData ((pos >>> 8) &&& 0xFF).toUInt8]

/-- `redraw_scroll`: the shape of the cursor, or no cursor. -/
def redrawOps (t : Terminal) : List PortOp :=
  if t.viewScroll = 0 then
    [.out crtcIndex 0x0A, .update crtcData 0xC0 14, .out crtcIndex 0x0B, .update crtcData 0xE0 15] ++
      updateCursorOps t
  else [.out crtcIndex 0x0A, .out crtcData 0x20]

def scrollUpOps (t : Terminal) (lines : Int) : List PortOp :=
  let viewScroll := i32 (t.viewScroll + lines)
  let viewScroll := if viewScroll > t.historyCount then (t.historyCount : Int) else viewScroll
  if viewScroll > 0 then redrawOps { t with viewScroll } else []

def scrollDownOps (t : Terminal) (lines : Int) : List PortOp :=
  if t.viewScroll > 0 then
    let viewScroll := i32 (t.viewScroll - lines)
    redrawOps { t with viewScroll := if viewScroll < 0 then 0 else viewScroll }
  else []

def leaveOps (t : Terminal) : List PortOp :=
  if t.viewScroll > 0 then redrawOps { t with viewScroll := 0 } else []

def clearOps (t : Terminal) : List PortOp := leaveOps t ++ updateCursorOps (terminalClear t)

/-- The bytes for the serial port of a character that is none of the special ones. -/
def serialBytes (c : UInt8) : List UInt8 :=
  if c = 179 then [0xE2, 0x94, 0x82]
  else if c = 195 then [0xE2, 0x94, 0x9C]
  else if c = 196 then [0xE2, 0x94, 0x80]
  else if c = 192 then [0xE2, 0x94, 0x94]
  else [c]

def serialOps (data : List UInt8) : List PortOp := data.map (.out serialPort)

/-- `scroll` moves the cursor, too. -/
def nextLineOps (t : Terminal) : List PortOp :=
  if t.termRow + 1 ≥ vgaRows then updateCursorOps (nextLine t) else []

def putPrintableOps (t : Terminal) (c : UInt8) : List PortOp :=
  serialOps (serialBytes c) ++ (if t.termCol + 1 ≥ vgaCols then nextLineOps t else []) ++
    updateCursorOps (putPrintable t c)

/-- The rounds of the tab loop, and the cursor behind them. -/
def tabOps (nextTab : Nat) : Nat → Terminal → List PortOp
  | 0, _ => []
  | fuel + 1, t =>
    if t.termCol < nextTab then
      leaveOps t ++ putPrintableOps (leaveScrollback t) (ch ' ') ++
        tabOps nextTab fuel (putPrintable (leaveScrollback t) (ch ' '))
    else updateCursorOps t

def putcharOps (fuel : Nat) (t : Terminal) (c : UInt8) : List PortOp :=
  leaveOps t ++
    let t := leaveScrollback t
    if c = ch '\n' then
      nextLineOps t ++ updateCursorOps (nextLine t) ++ serialOps [ch '\r', ch '\n']
    else if c = ch '\r' then updateCursorOps { t with termCol := 0 } ++ serialOps [ch '\r']
    else if c = 8 then updateCursorOps (putBackspace t) ++ serialOps [8, ch ' ', 8]
    else if c = ch '\t' then tabOps (nextTab t.termCol) fuel t
    else putPrintableOps t c

def writeOps (fuel : Nat) (t : Terminal) : List UInt8 → List PortOp
  | [] => []
  | c :: data => putcharOps fuel t c ++
      match terminalPutchar fuel t c with
      | some t => writeOps fuel t data
      | none => []

def TerminalCall.ops (fuel : Nat) (t : Terminal) : TerminalCall → List PortOp
  | .init => clearOps { t with termColor := makeColor .lightGrey .black, termRow := 0, termCol := 0 }
  | .clear => clearOps t
  | .setcolor _ _ => []
  | .setcursor row col => updateCursorOps (terminalSetcursor t row col)
  | .putchar c => putcharOps fuel t c
  | .write data => writeOps fuel t data
  | .writestring s => writeOps fuel t (str s)
  | .writecolor s fg bg => writeOps fuel { t with termColor := makeColor fg bg } (str s)
  | .scrollUp lines => scrollUpOps t lines
  | .scrollDown lines => scrollDownOps t lines

section

variable {σ : Type} {P : Ports σ} (d : Indexed P crtcIndex crtcData cursorRegs)
variable {t t' : Terminal} {ops ops' : List PortOp}

/-- Registers 14 and 15 are the place of the cursor. -/
def CursorAt (t : Terminal) (s : σ) : Prop :=
  (d.reg s 0x0E).toNat * 256 + (d.reg s 0x0F).toNat = (t.termRow * vgaCols + t.termCol) % 2 ^ 16

/-- Bit 5 of register 10. -/
def CursorHidden (s : σ) : Prop := d.reg s 0x0A &&& 0x20 ≠ 0

/-- Accesses that do not change the shape. -/
def KeepsShape (ops : List PortOp) : Prop := ∀ s, d.reg (P.run ops s) 0x0A = d.reg s 0x0A

/-- Accesses that leave the cursor at the place it has in `t`, in the shape it had. -/
structure Tracks (ops : List PortOp) (t : Terminal) : Prop where
  place : ∀ s, CursorAt d t (P.run ops s)
  shape : KeepsShape d ops

variable {d}

theorem KeepsShape.append (h : KeepsShape d ops) (h' : KeepsShape d ops') :
    KeepsShape d (ops ++ ops') := by
  intro s
  rw [Ports.run_append, h', h]

theorem Tracks.moved (h : Tracks d ops t) (hrow : t'.termRow = t.termRow)
    (hcol : t'.termCol = t.termCol) : Tracks d ops t' := by
  refine ⟨fun s => ?_, h.shape⟩
  unfold CursorAt
  rw [hrow, hcol]
  exact h.place s

/-- The controller follows the driver: the cursor is where it is in `t`, and hidden while rows of
the history are shown. -/
structure CursorInStep (d : Indexed P crtcIndex crtcData cursorRegs) (t : Terminal) (s : σ) : Prop where
  place : CursorAt d t s
  hidden : CursorHidden d s ↔ 0 < t.viewScroll

variable {s : σ}

theorem CursorInStep.of_same (h : CursorInStep d t s) (hrow : t'.termRow = t.termRow)
    (hcol : t'.termCol = t.termCol) (hview : t'.viewScroll = t.viewScroll) :
    CursorInStep d t' s := by
  refine ⟨?_, by rw [hview]; exact h.hidden⟩
  unfold CursorAt
  rw [hrow, hcol]
  exact h.place

end

/-! ## A controller -/

end MiniOS
