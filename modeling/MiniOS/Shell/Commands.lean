import MiniOS.Shell.Paths
import MiniOS.Editor.MiniEdit
import MiniOS.Screen.Printing

/-!
# The filesystem commands (`kernel/shell.c`)

Each command takes the shell's state and its argument, as `shell_run` hands it
over; the interactive ones also take the keys to come.  `none` is a store
outside of an array, above all of a path buffer, or a wait for a key that
never comes.  What a command prints is a list of terminal calls; it comes back if
the terminal brings them to their end (`CallsReturn`).

`cpy`, `mov` and `rename` share their reading of the line (`twoArgs`) and their
four calls on the table (`transferFile`); how one ends is an `Outcome`.

`shellMachine` runs the commands with any argument of at most 255 characters
and any keys.
-/

namespace MiniOS

open Lib

structure Shell where
  table : FsTable
  currentDir : Chars 64
  textBuf : Chars fsMaxFilesize
  textColor : VgaColor
  editor : Editor

/-- A command without keys: the state and what is shown. -/
abbrev Shown := Shell × List TerminalCall

def say (s : List UInt8) : List TerminalCall := [.writestring s]

theorem displays_say {s : List UInt8} (h0 : 0 ∉ s) : Displays (say s) s := displays_string h0

def skipSpaces : List UInt8 → List UInt8
  | [] => []
  | c :: s => if c = ch ' ' ∨ c = ch '\t' then skipSpaces s else c :: s

/-! ## One file -/

/-- The part behind the last `/`. -/
def basename (path : List UInt8) : List UInt8 :=
  match strrchr path (ch '/') with
  | some i => path.drop (i + 1)
  | none => path

/-- A dot that is neither the first nor the last character. -/
def hasExtension (filename : List UInt8) : Bool :=
  match strchr filename (ch '.') with
  | some dot => dot != 0 && filename.getD (dot + 1) 0 != 0
  | none => false

def cmdNew (s : Shell) (arg : List UInt8) : Option Shown :=
  if arg.headD 0 = 0 then some (s, say (text "Usage: new [filename]\n"))
  else
    if ¬ hasExtension (basename arg) then
      some (s, say (text "\nError: Filename must have an extension (e.g., filename.txt)\n"))
    else do
      let path ← resolvePath s.currentDir arg (Chars.uninit 64)
      let r ← fsCreate s.table path.bytes
      some ({ s with table := r.table }, say r.printed ++
        if r.ret = 0 then say (text "\nCreated: " ++ str path.bytes ++ text "\n") else [])

def cmdEdit (s : Shell) (filename keys : List UInt8) : Option (Typed Shell) :=
  if filename.headD 0 = 0 then some ⟨s, say (text "Usage: edit [filename]\n"), keys⟩
  else do
    let path ← resolvePath s.currentDir filename (Chars.uninit 64)
    let r ← editorOpen s.table s.editor path.bytes keys
    some ⟨{ s with table := r.val.1, editor := r.val.2 }, r.out, r.keys⟩

def cmdWrite (s : Shell) (arg keys : List UInt8) : Option (Typed Shell) :=
  if arg.headD 0 = 0 then some ⟨s, say (text "Usage: write [filename]\n"), keys⟩
  else do
    let path ← resolvePath s.currentDir arg (Chars.uninit 64)
    let line ← keyboardReadline s.textBuf fsMaxFilesize keys
    let textBuf := line.val.2
    let r ← fsWrite s.table path.bytes textBuf.bytes (strlen textBuf.bytes)
    let written :=
      if r.ret ≥ 0 then
        say (text "Written to " ++ str path.bytes ++ text " (" ++ decimal r.ret.toNat ++
          text " bytes)\n")
      else []
    some ⟨{ s with table := r.table, textBuf := textBuf },
      say (text "\nEnter text: ") ++ line.out ++ say r.printed ++ written, line.keys⟩

def cmdSee (s : Shell) (arg : List UInt8) : Option Shown :=
  if arg.headD 0 = 0 then some (s, say (text "Usage: see [filename]\n"))
  else do
    let path ← resolvePath s.currentDir arg (Chars.uninit 64)
    let (n, buf) ← fsRead s.table path.bytes (Chars.uninit (fsMaxFilesize + 1)) (fsMaxFilesize + 1)
    if n < 0 then
      some (s, say (text "Error: file '" ++ str path.bytes ++ text "' not found.\n"))
    else some (s, [.putchar (ch '\n'), .writestring buf.bytes, .putchar (ch '\n')])

def cmdLook (s : Shell) (arg : List UInt8) : Option Shown :=
  if arg.headD 0 = 0 then some (s, say (text "Usage: look [name]\n"))
  else do
    let path ← resolvePath s.currentDir arg (Chars.uninit 64)
    let (n, _) ← fsRead s.table path.bytes (Chars.uninit (fsMaxFilesize + 1)) (fsMaxFilesize + 1)
    if n ≥ 0 then some (s, say (text "Found: " ++ str path.bytes ++ text "\n"))
    else some (s, say (text "Not found: " ++ str path.bytes ++ text "\n"))

def cmdDel (s : Shell) (arg : List UInt8) : Option Shown :=
  if arg.headD 0 = 0 then some (s, say (text "Usage: del [filename]\n"))
  else do
    let path ← resolvePath s.currentDir arg (Chars.uninit 64)
    let r := fsDelete s.table path.bytes
    let s := { s with table := r.table }
    if r.ret = 0 then some (s, say (text "Deleted: " ++ str path.bytes ++ text "\n"))
    else some (s, say (text "Error: file '" ++ str path.bytes ++ text "' not found.\n"))

/-! ## Directories -/

def cmdMkd (s : Shell) (arg : List UInt8) : Option Shown :=
  if arg.headD 0 = 0 then some (s, say (text "Usage: mkd [dir]\n"))
  else do
    let path ← resolvePath s.currentDir arg (Chars.uninit 64)
    let r ← fsCreateDir s.table path.bytes
    let s := { s with table := r.table }
    if r.ret = 0 then some (s, say (text "Directory created: " ++ str path.bytes ++ text "\n"))
    else
      some (s, say (text "Error: could not create directory '" ++ str path.bytes ++ text "'\n"))

def cmdDeld (s : Shell) (arg : List UInt8) : Option Shown :=
  if arg.headD 0 = 0 then some (s, say (text "Usage: deld [dir]\n"))
  else do
    let path ← resolvePath s.currentDir arg (Chars.uninit 64)
    let r := fsDelete s.table path.bytes
    let s := { s with table := r.table }
    if r.ret = 0 then some (s, say (text "Directory deleted: " ++ str path.bytes ++ text "\n"))
    else some (s, say (text "Error: directory '" ++ str path.bytes ++ text "' not found.\n"))

/-- The `..` branch of `cmd_goto`: cut the last component, except at `/` and `/root`. -/
def parentDir (currentDir newDir : Chars 64) : Option (Chars 64) := do
  let newDir ← strcpy newDir currentDir.bytes
  if strcmp newDir.bytes (text "/") ≠ 0 ∧ strcmp newDir.bytes (text "/root") ≠ 0 then
    match strrchr newDir.bytes (ch '/') with
    | some lastSlash => if lastSlash ≠ 0 then newDir.put lastSlash 0 else strcpy newDir (text "/")
    | none => strcpy newDir (text "/")
  else some newDir

/-- The last branch of `cmd_goto`; `new_dir[len - 1]` is outside of the array if `len` is 0. -/
def childDir (currentDir : Chars 64) (arg : List UInt8) (newDir : Chars 64) :
    Option (Chars 64) := do
  let newDir ← strcpy newDir currentDir.bytes
  let len := strlen newDir.bytes
  if len = 0 then none
  else
    let newDir ←
      if newDir.get (len - 1) ≠ ch '/' then strncat newDir (text "/") (u32 (64 + 2 ^ 32 - len - 1))
      else some newDir
    strncat newDir arg (u32 (64 + 2 ^ 32 - strlen newDir.bytes - 1))

/-- The directory `cmd_goto` goes to. -/
def gotoDir (currentDir : Chars 64) (arg : List UInt8) (newDir : Chars 64) : Option (Chars 64) :=
  if arg.headD 0 = 0 then strcpy newDir (text "/root")
  else if strcmp arg (text "..") = 0 then parentDir currentDir newDir
  else if arg.headD 0 = ch '/' then do
    let newDir ← strncpy newDir 0 arg (64 - 1)
    newDir.put (64 - 1) 0
  else childDir currentDir arg newDir

def cmdGoto (s : Shell) (arg : List UInt8) : Option Shown := do
  let newDir ← gotoDir s.currentDir arg (Chars.uninit 64)
  if ¬ fsIsDir s.table newDir.bytes then
    some (s, say (text "Error: Directory '" ++ str newDir.bytes ++ text "' does not exist.\n"))
  else
    let currentDir ← strcpy s.currentDir newDir.bytes
    some ({ s with currentDir := currentDir },
      say (text "Moved to: " ++ str currentDir.bytes ++ text "\n"))

def cmdLaf (s : Shell) : Shown := (s, say (text "\n") ++ fsListDir s.table s.currentDir.bytes)

def cmdWdir (s : Shell) : Shown := (s, say (str s.currentDir.bytes ++ text "\n"))

/-! ## Notes and the file manager -/

/-- `notes new`. -/
def notesNew (s : Shell) (keys : List UInt8) : Option (Typed Shell) := do
  let title ← keyboardReadline (Chars.uninit 32) 32 keys
  let body ← keyboardReadline (Chars.uninit fsMaxFilesize) fsMaxFilesize title.keys
  let rawFilename ← strcpy (Chars.uninit 64) (text "note_")
  let rawFilename ← strncpy rawFilename 5 title.val.2.bytes 20
  let rawFilename ← rawFilename.put 25 0
  let path ← resolvePath s.currentDir rawFilename.bytes (Chars.uninit 64)
  let c ← fsCreate s.table path.bytes
  let w ← fsWrite c.table path.bytes body.val.2.bytes (strlen body.val.2.bytes)
  some ⟨{ s with table := w.table },
    say (text "Title: ") ++ title.out ++ say (text "Body: ") ++ body.out ++ say c.printed ++
      say w.printed ++ say (text "Saved.\n"), body.keys⟩

/-- `notes view`, from behind the `view `. -/
def notesView (s : Shell) (title : List UInt8) : Option (List TerminalCall) := do
  let rawFilename ← strcpy (Chars.uninit 64) (text "note_")
  let title := if title.headD 0 = ch '"' then title.drop 1 else title
  let tlen := strlen title
  let tlen := if tlen > 0 ∧ title.getD (tlen - 1) 0 = ch '"' then tlen - 1 else tlen
  let rawFilename ← strncpy rawFilename 5 title tlen
  let rawFilename ← rawFilename.put (5 + tlen) 0
  let path ← resolvePath s.currentDir rawFilename.bytes (Chars.uninit 64)
  let (n, buf) ← fsRead s.table path.bytes (Chars.uninit (fsMaxFilesize + 1)) (fsMaxFilesize + 1)
  if n ≥ 0 then
    some (say (text "--- " ++ str title ++ text " ---\n" ++ str buf.bytes ++ text "\n"))
  else some (say (text "Note not found.\n"))

def cmdNotes (s : Shell) (arg keys : List UInt8) : Option (Typed Shell) :=
  let newline := say (text "\n")
  if strcmp arg (text "new") = 0 then do
    let r ← notesNew s keys
    some { r with out := newline ++ r.out }
  else if strcmp arg (text "list") = 0 then
    some ⟨s, newline ++ say (text "Notes:\n") ++ fsListNotes s.table s.currentDir.bytes, keys⟩
  else if strncmp arg (text "view ") 5 = 0 then do
    let out ← notesView s (arg.drop 5)
    some ⟨s, newline ++ out, keys⟩
  else some ⟨s, newline ++ say (text "Usage: notes [new | list | view <title>]\n"), keys⟩

/-- What `cmd_fm` draws before it reads a key. -/
def fmScreen (s : Shell) : List TerminalCall :=
  [.clear, .setcolor .lightCyan .black, .writestring (text "  === MiniOS File Manager ===\n"),
    .setcolor s.textColor .black, .writestring (text "  Files:\n")] ++
  fsListDir s.table s.currentDir.bytes ++
  [.setcolor .yellow .black,
    .writestring (text "\n  [C]reate  [R]ead  [D]elete  [Q]uit\n  > ")]

/-- Create: the typed name is used as it is. -/
def fmCreate (s : Shell) (keys : List UInt8) : Option (Typed Shell) := do
  let name ← keyboardReadline (Chars.uninit 64) 64 keys
  let prompt := say (text "C\n  Enter filename: ") ++ name.out
  let c ← fsCreate s.table name.val.2.bytes
  if c.ret = 0 then
    let body ← keyboardReadline (Chars.uninit fsMaxFilesize) fsMaxFilesize name.keys
    let w ← fsWrite c.table name.val.2.bytes body.val.2.bytes (strlen body.val.2.bytes)
    some ⟨{ s with table := w.table },
      prompt ++ say c.printed ++ say (text "  Enter text: ") ++ body.out ++ say w.printed, body.keys⟩
  else some ⟨{ s with table := c.table }, prompt ++ say c.printed, name.keys⟩

def fmRead (s : Shell) (keys : List UInt8) : Option (Typed Shell) := do
  let name ← keyboardReadline (Chars.uninit 64) 64 keys
  let prompt := say (text "R\n  Enter filename: ") ++ name.out
  let (n, buf) ← fsRead s.table name.val.2.bytes (Chars.uninit (fsMaxFilesize + 1))
    (fsMaxFilesize + 1)
  if n ≥ 0 then
    let (_, keys) ← keyboardGetchar name.keys
    some ⟨s, prompt ++ say (text "\n  --- " ++ str name.val.2.bytes ++ text " ---\n  " ++
      str buf.bytes ++ text "\n  ------------\n  Press any key to return..."), keys⟩
  else some ⟨s, prompt, name.keys⟩

def fmDelete (s : Shell) (keys : List UInt8) : Option (Typed Shell) := do
  let name ← keyboardReadline (Chars.uninit 64) 64 keys
  some ⟨{ s with table := (fsDelete s.table name.val.2.bytes).table },
    say (text "D\n  Enter filename: ") ++ name.out, name.keys⟩

/-- What `cmd_fm` does with a key other than `q`. -/
def fmKey (s : Shell) (c : UInt8) (keys : List UInt8) : Option (Typed Shell) :=
  if c = ch 'c' ∨ c = ch 'C' then fmCreate s keys
  else if c = ch 'r' ∨ c = ch 'R' then fmRead s keys
  else if c = ch 'd' ∨ c = ch 'D' then fmDelete s keys
  else some ⟨s, [], keys⟩

/-- One round of `cmd_fm`. -/
def fmBody (r : Typed Shell) : Typed Shell ⊕ Option (Typed Shell) :=
  let shown := r.out ++ fmScreen r.val
  match keyboardGetchar r.keys with
  | none => .inr none
  | some (c, keys) =>
    if c = ch 'q' ∨ c = ch 'Q' then .inr (some ⟨r.val, shown ++ [.clear], keys⟩)
    else
      match fmKey r.val c keys with
      | none => .inr none
      | some r' => .inl { r' with out := shown ++ r'.out }

/-- `cmd_fm`: every round reads a key, so there are no more rounds than keys. -/
def cmdFm (s : Shell) (keys : List UInt8) : Option (Typed Shell) :=
  (loop fmBody (keys.length + 1) ⟨s, [], keys⟩).join

/-! ## `cpy`, `mov`, `rename` -/

/-- The two arguments, each in 32 bytes; `none` for a line that gets the usage text. -/
def twoArgs (arg : List UInt8) : Option (Option (Chars 32 × Chars 32)) :=
  let arg := skipSpaces arg
  match strchr arg (ch ' ') with
  | none => some none
  | some space => do
    let len1 := if space ≥ 32 then 32 - 1 else space
    let src ← strncpy (Chars.uninit 32) 0 arg len1
    let src ← src.put len1 0
    let dst ← strncpy (Chars.uninit 32) 0 (skipSpaces (arg.drop space)) (32 - 1)
    let dst ← dst.put (32 - 1) 0
    if src.get 0 = 0 ∨ dst.get 0 = 0 then some none else some (some (src, dst))

/-- How a transfer ends. -/
inductive Outcome where
  | usage
  | noDirectory (path : List UInt8)
  | noSource (path : List UInt8)
  | notCreated
  | done (src dst : List UInt8)
deriving DecidableEq

/-- How a transfer ends, what it prints and the table it leaves. -/
structure Transfer where
  outcome : Outcome
  printed : List UInt8
  table : FsTable

/-- `fs_read`, `fs_create`, `fs_write` and, to move, `fs_delete`; `verb` starts the last message. -/
def transferFile (t : FsTable) (src dst : Chars 64) (move : Bool) (verb : List UInt8) :
    Option Transfer := do
  let (n, buf) ← fsRead t src.bytes (Chars.uninit (fsMaxFilesize + 1)) (fsMaxFilesize + 1)
  if n < 0 then
    some ⟨.noSource (str src.bytes),
      text "Error: source file '" ++ str src.bytes ++ text "' not found.\n", t⟩
  else
    let c ← fsCreate t dst.bytes
    if c.ret < 0 then some ⟨.notCreated, c.printed, c.table⟩
    else
      let w ← fsWrite c.table dst.bytes buf.bytes (u32OfInt n)
      let table := if move then (fsDelete w.table src.bytes).table else w.table
      some ⟨.done (str src.bytes) (str dst.bytes), c.printed ++ w.printed ++ verb ++
        str src.bytes ++ text " -> " ++ str dst.bytes ++ text "\n", table⟩

/-- `cpy` and `rename`: resolve both arguments and transfer. -/
def transferCmd (s : Shell) (arg usage : List UInt8) (move : Bool) (verb : List UInt8) :
    Option Transfer := do
  match ← twoArgs arg with
  | none => some ⟨.usage, usage, s.table⟩
  | some (src, dst) =>
    let pathSrc ← resolvePath s.currentDir src.bytes (Chars.uninit 64)
    let pathDst ← resolvePath s.currentDir dst.bytes (Chars.uninit 64)
    transferFile s.table pathSrc pathDst move verb

def cmdCpy (s : Shell) (arg : List UInt8) : Option Transfer :=
  transferCmd s arg (text "Usage: cpy [src] [dst]\n") false (text "Copied: ")

def cmdRename (s : Shell) (arg : List UInt8) : Option Transfer :=
  transferCmd s arg (text "Usage: rename [src] [new_name]\n") true (text "Renamed: ")

/-- `cmd_mov` joins the base name of the source to the destination directory. -/
def joinBasename (pathSrc pathDst : Chars 64) : Option (Chars 64) := do
  let pathDst ← appendSlash pathDst
  let pathDst ← strncat pathDst (basename pathSrc.bytes) (u32 (63 + 2 ^ 32 - strlen pathDst.bytes))
  pathDst.put 63 0

def cmdMov (s : Shell) (arg : List UInt8) : Option Transfer := do
  match ← twoArgs arg with
  | none => some ⟨.usage, text "Usage: mov [src] [dst_dir]\n", s.table⟩
  | some (src, dst) =>
    let pathSrc ← resolvePath s.currentDir src.bytes (Chars.uninit 64)
    let pathDst ← resolvePath s.currentDir dst.bytes (Chars.uninit 64)
    if fsIsDir s.table pathDst.bytes then
      let pathDst ← joinBasename pathSrc pathDst
      transferFile s.table pathSrc pathDst true (text "Moved: ")
    else
      some ⟨.noDirectory (str pathDst.bytes), text "Error: Destination directory '" ++
        str pathDst.bytes ++ text "' does not exist.\n", s.table⟩

/-! ## The shell and its user -/

inductive ShellCmd where
  | new | edit | write | see | laf | notes | fm | del | cpy | mov | rename | look | wdir | goto
  | mkd | deld
deriving DecidableEq

/-- A command, its argument, and the keys typed from then on. -/
structure ShellCall where
  cmd : ShellCmd
  arg : List UInt8
  keys : List UInt8

def Shown.typed (keys : List UInt8) (r : Shown) : Typed Shell := ⟨r.1, r.2, keys⟩

def Transfer.typed (s : Shell) (keys : List UInt8) (r : Transfer) : Typed Shell :=
  ⟨{ s with table := r.table }, say r.printed, keys⟩

/-- The branch of `shell_run` for a command. -/
def ShellCall.run (s : Shell) (e : ShellCall) : Option (Typed Shell) :=
  match e.cmd with
  | .new => (cmdNew s e.arg).map (Shown.typed e.keys)
  | .edit => cmdEdit s e.arg e.keys
  | .write => cmdWrite s e.arg e.keys
  | .see => (cmdSee s e.arg).map (Shown.typed e.keys)
  | .laf => some (Shown.typed e.keys (cmdLaf s))
  | .notes => cmdNotes s e.arg e.keys
  | .fm => cmdFm s e.keys
  | .del => (cmdDel s e.arg).map (Shown.typed e.keys)
  | .cpy => (cmdCpy s e.arg).map (Transfer.typed s e.keys)
  | .mov => (cmdMov s e.arg).map (Transfer.typed s e.keys)
  | .rename => (cmdRename s e.arg).map (Transfer.typed s e.keys)
  | .look => (cmdLook s e.arg).map (Shown.typed e.keys)
  | .wdir => some (Shown.typed e.keys (cmdWdir s))
  | .goto => (cmdGoto s e.arg).map (Shown.typed e.keys)
  | .mkd => (cmdMkd s e.arg).map (Shown.typed e.keys)
  | .deld => (cmdDeld s e.arg).map (Shown.typed e.keys)

/-- `current_dir` as the program is loaded. -/
def bootDir : Chars 64 := ⟨text "/root" ++ List.replicate 59 0, rfl⟩

/-- The statics at boot, over the table `fs_init` leaves. -/
def bootShell (t : FsTable) : Shell where
  table := t
  currentDir := bootDir
  textBuf := Chars.fill _ 0
  textColor := .white
  editor := ⟨Chars.fill _ 0, 0⟩

/-- A command answers what it shows and the keys it leaves. -/
def shellMachine : Machine Shell ShellCall (List TerminalCall × List UInt8) where
  init s := ∃ t, fsInit = some t ∧ s = bootShell t
  legal _ e := (str e.arg).length ≤ 255
  step s e := (e.run s).map fun r => ((r.out, r.keys), r.val)

end MiniOS
