import MiniOS.Filesystem.FileTable
import MiniOS.Keyboard.Readline

/-!
# MiniEdit (`kernel/editor.c`)

The editor holds the file in `edit_buffer`, changes it key by key and writes it
back at ESC.  What it draws and echoes is a list of terminal calls, which the
terminal has to bring to its end (`CallsReturn`).
-/

namespace MiniOS

open Lib

/-- `edit_buffer` and `edit_buffer_len`. -/
structure Editor where
  buffer : Chars (fsMaxFilesize + 1)
  len : Nat

def keyEsc : UInt8 := 27
def keyBackspace : UInt8 := 8

/-- `EDITOR_DIVIDER_WIDTH`. -/
def editorDividerWidth : Nat := 80

def drawEditorHeader (filename : List UInt8) : List TerminalCall :=
  [.setcolor .black .lightCyan, .writestring (text " MiniEdit  |  "), .writestring filename,
    .writestring (text "  |  [ESC] Save & Quit   [BKSP] Delete   [ENTER] New line "),
    .setcolor .white .black, .putchar (ch '\n')]

def drawEditorDivider : List TerminalCall :=
  .setcolor .darkGrey .black :: List.replicate editorDividerWidth (.putchar (ch '-')) ++
    [.setcolor .white .black, .putchar (ch '\n')]

def displayFileContent (e : Editor) : List TerminalCall :=
  if e.len > 0 then [.write (e.buffer.bytes.take e.len)] else []

/-- `load_file_or_create`: the return value, the editor, and what the calls on the
table printed and left. -/
def loadFileOrCreate (t : FsTable) (e : Editor) (filename : List UInt8) :
    Option (Int × Editor × List UInt8 × FsTable) := do
  let (n, buffer) ← fsRead t filename e.buffer (fsMaxFilesize + 1)
  if n ≥ 0 then
    let buffer ← buffer.put n.toNat 0
    some (0, ⟨buffer, n.toNat⟩, [], t)
  else
    let r ← fsCreate t filename
    if r.ret ≠ 0 then
      some (-1, ⟨buffer, e.len⟩, r.printed ++ text "Error: cannot open or create '" ++
        str filename ++ text "'\n", r.table)
    else
      let buffer ← buffer.put 0 0
      some (0, ⟨buffer, 0⟩, r.printed, r.table)

def handleBackspaceKey (e : Editor) : Option (Editor × List TerminalCall) :=
  if e.len > 0 then do
    let buffer ← e.buffer.put (e.len - 1) 0
    some (⟨buffer, e.len - 1⟩, [.putchar keyBackspace])
  else some (e, [])

def handleEnterKey (e : Editor) : Option (Editor × List TerminalCall) :=
  if e.len < fsMaxFilesize then do
    let buffer ← e.buffer.put e.len (ch '\n')
    let buffer ← buffer.put (e.len + 1) 0
    some (⟨buffer, e.len + 1⟩, [.putchar (ch '\n')])
  else some (e, [])

/-- A key that does not fit flashes a red `!`. -/
def handlePrintableChar (e : Editor) (c : UInt8) : Option (Editor × List TerminalCall) :=
  if e.len < fsMaxFilesize then do
    let buffer ← e.buffer.put e.len c
    let buffer ← buffer.put (e.len + 1) 0
    some (⟨buffer, e.len + 1⟩, [.putchar c])
  else
    some (e, [.setcolor .lightRed .black, .putchar (ch '!'), .putchar keyBackspace,
      .setcolor .white .black])

def saveAndShowResult (t : FsTable) (e : Editor) (filename : List UInt8) :
    Option (FsTable × List TerminalCall) := do
  let r ← fsWrite t filename e.buffer.bytes e.len
  let result :=
    if r.ret ≥ 0 then
      [.setcolor .lightGreen .black, .writestring (text "  Saved: " ++ str filename ++ text "  (" ++
        decimal r.ret.toNat ++ text " bytes)\n")]
    else
      [.setcolor .lightRed .black,
        .writestring (text "  Error: could not save '" ++ str filename ++ text "'\n")]
  some (r.table, [.writestring r.printed, .putchar (ch '\n')] ++ drawEditorDivider ++ result ++
    [.setcolor .white .black])

/-- What a key other than ESC does. -/
def editorKey (e : Editor) (key : UInt8) : Option (Editor × List TerminalCall) :=
  if key = keyBackspace then handleBackspaceKey e
  else if key = ch '\r' ∨ key = ch '\n' then handleEnterKey e
  else if key ≥ 32 ∧ key < 127 then handlePrintableChar e key
  else some (e, [])

def runEditorInputLoop (t : FsTable) (e : Editor) (filename : List UInt8)
    (out : List TerminalCall) : List UInt8 → Option (Typed (FsTable × Editor))
  | [] => none
  | key :: keys =>
    if key = keyEsc then do
      let (t, shown) ← saveAndShowResult t e filename
      some ⟨(t, e), out ++ shown, keys⟩
    else do
      let (e, echo) ← editorKey e key
      runEditorInputLoop t e filename (out ++ echo) keys

def editorOpen (t : FsTable) (e : Editor) (filename keys : List UInt8) :
    Option (Typed (FsTable × Editor)) :=
  if filename.headD 0 = 0 then
    some ⟨(t, e), [.writestring (text "Usage: edit [filename]\n")], keys⟩
  else do
    let (ret, e, printed, t) ← loadFileOrCreate t e filename
    if ret ≠ 0 then some ⟨(t, e), [.writestring printed], keys⟩
    else
      runEditorInputLoop t e filename
        ([.writestring printed, .clear] ++ drawEditorHeader filename ++ drawEditorDivider ++
          displayFileContent e) keys

end MiniOS
