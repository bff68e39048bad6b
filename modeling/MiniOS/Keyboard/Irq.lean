import MiniOS.Lib.Ring
import MiniOS.Keyboard.Readline

/-!
# The keyboard driver (`keyboard_irq_handler`, `keyboard_getchar` in `kernel/keyboard.c`)

The interrupt handler maps the scan code it reads from the port to a character
and stores it in the ring; `keyboard_getchar` takes one out.  The handler runs
to its end wherever it interrupts, so a run is any interleaving of whole
interrupts with single statements of `keyboard_getchar`.
-/

namespace MiniOS

open Lib

/-! ## Scan codes -/

/-- `scancode_map_lower`; the entries behind the last one are 0. -/
def scancodeMapLower : List UInt8 :=
  [0, 27] ++ text "1234567890-=" ++ [8, 9] ++ text "qwertyuiop[]" ++ [13, 0] ++
    text "asdfghjkl;'`" ++ [0] ++ text "\\zxcvbnm,./" ++ [0] ++ text "*" ++ [0] ++ text " " ++
    List.replicate 13 0 ++ text "789-456+1230."

/-- `scancode_map_upper`. -/
def scancodeMapUpper : List UInt8 :=
  [0, 27] ++ text "!@#$%^&*()_+" ++ [8, 9] ++ text "QWERTYUIOP\x7b\x7d" ++ [13, 0] ++
    text "ASDFGHJKL:\"~" ++ [0] ++ text "|ZXCVBNM<>?" ++ [0] ++ text "*" ++ [0] ++ text " " ++
    List.replicate 13 0 ++ text "789-456+1230."

def scancodeLshiftDown : UInt8 := 0x2A
def scancodeRshiftDown : UInt8 := 0x36
def scancodeLshiftUp : UInt8 := 0xAA
def scancodeRshiftUp : UInt8 := 0xB6
def scancodeCapslock : UInt8 := 0x3A
def scancodeNumlock : UInt8 := 0x45

/-! ## The handler -/

def kbBufSize : Nat := 256
def kbBufMask : Nat := kbBufSize - 1

/-- `kb_buf`, `kb_head`, `kb_tail`. -/
structure KbRing where
  kbBuf : Chars kbBufSize
  kbHead : Nat
  kbTail : Nat

/-- The statics of the driver. -/
structure Keyboard where
  ring : KbRing
  e0Mode : Bool
  shiftHeld : Bool
  capslockOn : Bool
  numlockOn : Bool

def Keyboard.boot : Keyboard := ⟨⟨Chars.fill kbBufSize 0, 0, 0⟩, false, false, false, false⟩

/-- What an interrupt does apart from the statics. -/
inductive IrqEffect where
  | nothing
  | scroll (call : TerminalCall)
  | accepted (c : UInt8)
  | dropped (c : UInt8)

/-- The end of the handler: `c` is stored unless the ring is full. -/
def kbEnqueue (k : Keyboard) (c : UInt8) : Option (IrqEffect × Keyboard) :=
  let nextHead := (k.ring.kbHead + 1) &&& kbBufMask
  if nextHead ≠ k.ring.kbTail then do
    let kbBuf ← k.ring.kbBuf.put k.ring.kbHead c
    some (.accepted c, { k with ring := { k.ring with kbBuf, kbHead := nextHead } })
  else some (.dropped c, k)

/-- A scan code that stands for an arrow or a page key. -/
def irqExtended (k : Keyboard) (scancode : UInt8) : Option (IrqEffect × Keyboard) :=
  if scancode = 0x48 then
    if k.shiftHeld then some (.scroll (.scrollUp 1), k) else kbEnqueue k keyUpArrow
  else if scancode = 0x50 then
    if k.shiftHeld then some (.scroll (.scrollDown 1), k) else kbEnqueue k keyDownArrow
  else if scancode = 0x4B then kbEnqueue k keyLeftArrow
  else if scancode = 0x4D then kbEnqueue k keyRightArrow
  else if scancode = 0x49 then some (.scroll (.scrollUp 10), k)
  else if scancode = 0x51 then some (.scroll (.scrollDown 10), k)
  else some (.nothing, k)

/-- A scan code that stands for a character. -/
def irqCharacter (k : Keyboard) (scancode : UInt8) : Option (IrqEffect × Keyboard) :=
  if scancode < 128 then
    let useUpper := xor k.shiftHeld k.capslockOn
    let c := (if useUpper then scancodeMapUpper else scancodeMapLower).getD scancode.toNat 0
    if c = 0 then some (.nothing, k) else kbEnqueue k c
  else some (.nothing, k)

/-- `is_numpad_nav`. -/
def isNumpadNav (k : Keyboard) (isE0 : Bool) (scancode : UInt8) : Bool :=
  !isE0 && !k.numlockOn && decide (scancode ≥ 0x47 ∧ scancode ≤ 0x53) &&
    decide (scancode ≠ 0x4A ∧ scancode ≠ 0x4E)

/-- `keyboard_irq_handler` with `scancode` at the port. -/
def keyboardIrqHandler (k : Keyboard) (scancode : UInt8) : Option (IrqEffect × Keyboard) :=
  if scancode = 0xE0 then some (.nothing, { k with e0Mode := true })
  else
    let isE0 := k.e0Mode
    let k := { k with e0Mode := false }
    if scancode = scancodeLshiftDown ∨ scancode = scancodeRshiftDown then
      some (.nothing, { k with shiftHeld := true })
    else if scancode = scancodeLshiftUp ∨ scancode = scancodeRshiftUp then
      some (.nothing, { k with shiftHeld := false })
    else if scancode = scancodeCapslock then
      some (.nothing, { k with capslockOn := !k.capslockOn })
    else if scancode = scancodeNumlock then
      some (.nothing, { k with numlockOn := !k.numlockOn })
    else if scancode &&& 0x80 ≠ 0 then some (.nothing, k)
    else if isE0 || isNumpadNav k isE0 scancode then irqExtended k scancode
    else irqCharacter k scancode

/-! ## The reader -/

/-- Where `keyboard_getchar` is: not called, or before one of its statements. -/
inductive GetcharAt where
  | idle
  | test
  | read
  | advance (c : UInt8)

structure KeyboardState where
  dev : Keyboard
  pc : GetcharAt

inductive KeyboardEvent where
  | irq (scancode : UInt8)
  | call
  | statement

inductive KeyboardOutput where
  | irq (effect : IrqEffect)
  | running
  | returned (c : UInt8)

/-- The next statement of `keyboard_getchar`; the wait ends only when the test fails. -/
def getcharStatement (s : KeyboardState) : KeyboardOutput × KeyboardState :=
  match s.pc with
  | .idle => (.running, s)
  | .test => (.running, if s.dev.ring.kbHead = s.dev.ring.kbTail then s else { s with pc := .read })
  | .read => (.running, { s with pc := .advance (s.dev.ring.kbBuf.get s.dev.ring.kbTail) })
  | .advance c =>
    let kbTail := (s.dev.ring.kbTail + 1) &&& kbBufMask
    (.returned c, ⟨{ s.dev with ring := { s.dev.ring with kbTail } }, .idle⟩)

/-- Interrupts at any time, and calls of `keyboard_getchar` statement by statement. -/
def keyboardMachine : Machine KeyboardState KeyboardEvent KeyboardOutput where
  init s := s = ⟨Keyboard.boot, .idle⟩
  legal s
    | .irq _ => True
    | .call => s.pc = .idle
    | .statement => s.pc ≠ .idle
  step s
    | .irq scancode => (keyboardIrqHandler s.dev scancode).map fun r => (.irq r.1, { s with dev := r.2 })
    | .call => some (.running, { s with pc := .test })
    | .statement => some (getcharStatement s)

/-! ## What was accepted and returned -/

def KeyboardOutput.accepted? : KeyboardOutput → Option UInt8
  | .irq (.accepted c) => some c
  | _ => none

def KeyboardOutput.returned? : KeyboardOutput → Option UInt8
  | .returned c => some c
  | _ => none

/-- The characters the handler accepted. -/
def accepted (os : List KeyboardOutput) : List UInt8 := os.filterMap KeyboardOutput.accepted?

/-- The characters `keyboard_getchar` returned. -/
def returned (os : List KeyboardOutput) : List UInt8 := os.filterMap KeyboardOutput.returned?

/-- `kb_buf[kb_tail..kb_head)` modulo 256. -/
def KbRing.pending (r : KbRing) : List UInt8 :=
  (List.range ((r.kbHead + 256 - r.kbTail) % 256)).map fun i => r.kbBuf.get ((r.kbTail + i) % 256)

end MiniOS
