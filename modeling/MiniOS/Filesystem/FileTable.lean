import MiniOS.Lib.Machine
import MiniOS.Memory.Strings
import MiniOS.Screen.Terminal
import Mathlib.Data.Fin.Basic

/-!
# The file table (`kernel/filesystem.c`)

32 slots with a name of 64 bytes and 256 bytes of data each.  A call returns
what it answers, what it prints and the table it leaves; `none` is a store
outside of an array.  What is printed is a list of terminal calls; whether the
terminal brings them to their end is said by `CallsReturn`.

`fsMachine` is the table as its callers use it: any names, a `data` that
really has the bytes `fs_write` is told to take, and a `buf` of at least
`buf_size` ≥ 1 bytes.
-/

namespace MiniOS

open Lib

/-- `FS_MAX_FILES`. -/
def fsMaxFiles : Nat := 32

/-- `FS_MAX_FILENAME`. -/
def fsMaxFilename : Nat := 64

/-- `FS_MAX_FILESIZE`. -/
def fsMaxFilesize : Nat := 256

/-- `file_entry_t`. -/
structure FileEntry where
  name : Chars fsMaxFilename
  data : Chars fsMaxFilesize
  size : Int
  used : Bool
  isDir : Bool

/-- `fs_table`. -/
abbrev FsTable := Fin fsMaxFiles → FileEntry

/-- An entry after `memset` to 0. -/
def zeroEntry : FileEntry := ⟨Chars.fill _ 0, Chars.fill _ 0, 0, false, false⟩

/-- What a call returns and prints, and the table afterwards. -/
structure FsResult where
  ret : Int
  printed : List UInt8
  table : FsTable

/-- The index found, `none` for -1. -/
def fsFind (t : FsTable) (name : List UInt8) : Option (Fin fsMaxFiles) :=
  Fin.find? fun i => (t i).used && strcmp (t i).name.bytes name == 0

def fsFreeSlot (t : FsTable) : Option (Fin fsMaxFiles) := Fin.find? fun i => !(t i).used

/-- The stores by which `fs_create` and `fs_create_dir` take a slot; the data stays. -/
def takeSlot (t : FsTable) (slot : Fin fsMaxFiles) (name : List UInt8) (isDir : Bool) :
    Option FsTable := do
  let nm ← strncpy (t slot).name 0 name (fsMaxFilename - 1)
  let nm ← nm.put (fsMaxFilename - 1) 0
  some (Function.update t slot { t slot with name := nm, size := 0, used := true, isDir := isDir })

/-- The checks `fs_create` and `fs_create_dir` make, in their order. -/
inductive CreateError where
  | emptyName
  | tooLong
  | alreadyExists
  | full

/-- `fs_create` and `fs_create_dir`: they differ in `is_dir` and in what they print. -/
def createEntry (t : FsTable) (name : List UInt8) (isDir : Bool)
    (msg : CreateError → List UInt8) : Option FsResult :=
  if strlen name = 0 then some ⟨-1, msg .emptyName, t⟩
  else if strlen name ≥ fsMaxFilename then some ⟨-1, msg .tooLong, t⟩
  else if (fsFind t name).isSome then some ⟨-1, msg .alreadyExists, t⟩
  else
    match fsFreeSlot t with
    | none => some ⟨-1, msg .full, t⟩
    | some slot => do
      let t ← takeSlot t slot name isDir
      some ⟨0, [], t⟩

/-- An entry that is made is not reported. -/
theorem createEntry_silent {t : FsTable} {name : List UInt8} {isDir : Bool}
    {msg : CreateError → List UInt8} {r : FsResult} (h : createEntry t name isDir msg = some r)
    (hret : r.ret = 0) : r.printed = [] := by
  unfold createEntry at h
  split at h
  · cases h
    cases hret
  split at h
  · cases h
    cases hret
  split at h
  · cases h
    cases hret
  split at h
  · cases h
    cases hret
  · obtain ⟨t', _, hr⟩ := Option.bind_eq_some_iff.mp h
    cases hr
    rfl

def fsCreate (t : FsTable) (name : List UInt8) : Option FsResult :=
  createEntry t name false fun
    | .emptyName => text "Error: file name cannot be empty.\n"
    | .tooLong => text "Error: file name too long (max 63 chars).\n"
    | .alreadyExists => text "Error: file '" ++ str name ++ text "' already exists.\n"
    | .full => text "Error: filesystem full (max 32 files).\n"

def fsCreateDir (t : FsTable) (name : List UInt8) : Option FsResult :=
  createEntry t name true fun _ => []

def fsIsDir (t : FsTable) (name : List UInt8) : Bool :=
  if strcmp name (text "/") = 0 then true
  else
    match fsFind t name with
    | some idx => (t idx).isDir
    | none => false

def fsWrite (t : FsTable) (name data : List UInt8) (len : Nat) : Option FsResult :=
  match fsFind t name with
  | none => some ⟨-1, text "Error: file '" ++ str name ++ text "' not found.\n", t⟩
  | some idx =>
    if (t idx).isDir then
      some ⟨-1, text "Error: '" ++ str name ++ text "' is a directory.\n", t⟩
    else do
      let len := if len > fsMaxFilesize then fsMaxFilesize else len
      let d ← memcpy (t idx).data data len
      some ⟨len, [], Function.update t idx { t idx with data := d, size := len }⟩

/-- Nor is a write that succeeds. -/
theorem fsWrite_silent {t : FsTable} {name data : List UInt8} {len : Nat} {r : FsResult}
    (h : fsWrite t name data len = some r) (hret : 0 ≤ r.ret) : r.printed = [] := by
  unfold fsWrite at h
  split at h
  · cases h
    exact absurd hret (show ¬ (0 : Int) ≤ -1 by decide)
  split at h
  · cases h
    exact absurd hret (show ¬ (0 : Int) ≤ -1 by decide)
  · obtain ⟨d, _, hr⟩ := Option.bind_eq_some_iff.mp h
    cases hr
    rfl

/-- What `fs_read` returns, and the caller's buffer. -/
def fsRead {n : Nat} (t : FsTable) (name : List UInt8) (buf : Chars n) (bufSize : Nat) :
    Option (Int × Chars n) :=
  match fsFind t name with
  | none => some (-1, buf)
  | some idx =>
    if (t idx).isDir then some (-1, buf)
    else do
      let size := u32OfInt (t idx).size
      let room := u32 (bufSize + 2 ^ 32 - 1)
      let k := if size > room then room else size
      let buf ← memcpy buf (t idx).data.bytes k
      let buf ← buf.put k 0
      some (k, buf)

def fsDelete (t : FsTable) (name : List UInt8) : FsResult :=
  match fsFind t name with
  | none => ⟨-1, [], t⟩
  | some idx => ⟨0, [], Function.update t idx zeroEntry⟩

/-! ## Listings -/

/-- `%-w s`. -/
def padRight (w : Nat) (s : List UInt8) : List UInt8 := s ++ List.replicate (w - s.length) (ch ' ')

/-- The `child_name` of `fname` in `dir`, `none` where it does not match. -/
def childName (dir fname : List UInt8) : Option (List UInt8) :=
  if strcmp dir (text "/") = 0 then
    if fname.headD 0 = ch '/' then some (fname.drop 1) else none
  else if strncmp fname dir (strlen dir) = 0 ∧ fname.getD (strlen dir) 0 = ch '/' then
    some (fname.drop (strlen dir + 1))
  else none

/-- What the names in `dir` have before the `/`. -/
def nameBase (dir : List UInt8) : List UInt8 :=
  if strcmp dir (text "/") = 0 then [] else str dir

theorem nameBase_eq (dir : List UInt8) :
    nameBase dir = if str dir = text "/" then [] else str dir := by
  have hroot : str (text "/") = text "/" := by decide
  unfold nameBase
  simp only [strcmp_eq_zero_iff, hroot]

/-- The child name begins behind `nameBase` and the `/`. -/
theorem childName_eq (dir fname : List UInt8) :
    childName dir fname =
      if nameBase dir ++ [ch '/'] <+: str fname then
        some (fname.drop (nameBase dir ++ [ch '/']).length)
      else none := by
  have hslash : ch '/' ≠ 0 := by decide
  unfold childName nameBase
  by_cases hroot : strcmp dir (text "/") = 0
  · have hiff : fname.headD 0 = ch '/' ↔ [] ++ [ch '/'] <+: str fname := by
      rw [concat_prefix_iff hslash, ← headD_str]
      simp [List.headD_eq_head?_getD, List.head?_eq_getElem?]
    rw [if_pos hroot, if_pos hroot]
    simp only [hiff]
    rfl
  · have hiff : (strncmp fname dir (strlen dir) = 0 ∧ fname.getD (strlen dir) 0 = ch '/') ↔
        str dir ++ [ch '/'] <+: str fname := by
      rw [concat_prefix_iff hslash, strncmp_strlen_iff, strlen_eq]
      exact and_congr_right fun h => by rw [getD_str h.length_le]
    rw [if_neg hroot, if_neg hroot, List.length_append, List.length_singleton]
    rw [strlen_eq] at hiff ⊢
    simp only [hiff]

/-- The child name `fs_list_dir` shows for an entry. -/
def listedChild (dir : List UInt8) (e : FileEntry) : Option (List UInt8) :=
  if e.used then
    (childName dir e.name.bytes).filter fun child => (strchr child (ch '/')).isNone
  else none

/-- One line of `fs_list_dir`, and the colours it sets around a directory. -/
def listLine (e : FileEntry) (child : List UInt8) : List TerminalCall :=
  if e.isDir then
    [.setcolor .lightBlue .black, .writestring (text "  " ++ padRight 24 (str child) ++
      text "  <DIR>\n"), .setcolor .white .black]
  else
    [.writestring (text "  " ++ padRight 24 (str child) ++ text "  (" ++ decimal e.size.toNat ++
      text " bytes)\n")]

def fsListDir (t : FsTable) (dir : List UInt8) : List TerminalCall :=
  let lines := (List.finRange fsMaxFiles).filterMap fun i =>
    (listedChild dir (t i)).map (listLine (t i))
  lines.flatten ++
    if lines.length = 0 then [.writestring (text "  (no files)\n")]
    else [.writestring (text "  " ++ decimal lines.length ++ text " item(s)\n")]

/-- The title `fs_list_notes` shows for an entry: the child name behind `note_`. -/
def listedNote (dir : List UInt8) (e : FileEntry) : Option (List UInt8) :=
  if e.isDir then none
  else
    ((listedChild dir e).filter fun child => strncmp child (text "note_") 5 = 0).map (·.drop 5)

def fsListNotes (t : FsTable) (dir : List UInt8) : List TerminalCall :=
  let lines := (List.finRange fsMaxFiles).filterMap fun i =>
    (listedNote dir (t i)).map fun title =>
      TerminalCall.writestring (text "  " ++ padRight 24 (str title) ++ text "  (" ++
        decimal (t i).size.toNat ++ text " bytes)\n")
  lines ++
    if lines.length = 0 then [.writestring (text "  (no notes)\n")]
    else [.writestring (text "  " ++ decimal lines.length ++ text " note(s)\n")]

def fsInit : Option FsTable := do
  let r ← fsCreateDir (fun _ => zeroEntry) (text "/root")
  some r.table

/-! ## The table and its callers -/

inductive FsCall where
  | create (name : List UInt8)
  | createDir (name : List UInt8)
  | isDir (name : List UInt8)
  | write (name data : List UInt8) (len : Nat)
  | read (name : List UInt8) {n : Nat} (buf : Chars n) (bufSize : Nat)
  | delete (name : List UInt8)

/-- The name a call is about. -/
def FsCall.name : FsCall → List UInt8
  | .create name | .createDir name | .isDir name | .write name _ _ | .read name _ _
  | .delete name => str name

def FsCall.legal : FsCall → Prop
  | .write _ data len => len < 2 ^ 32 ∧ min len fsMaxFilesize ≤ data.length
  | .read (n := n) _ _ bufSize => 1 ≤ bufSize ∧ bufSize < 2 ^ 32 ∧ bufSize ≤ n
  | _ => True

/-- A call answers its return value and, for `fs_read`, the bytes of the buffer. -/
def fsStep (t : FsTable) : FsCall → Option ((Int × List UInt8) × FsTable)
  | .create name => (fsCreate t name).map fun r => ((r.ret, []), r.table)
  | .createDir name => (fsCreateDir t name).map fun r => ((r.ret, []), r.table)
  | .isDir name => some ((if fsIsDir t name then 1 else 0, []), t)
  | .write name data len => (fsWrite t name data len).map fun r => ((r.ret, []), r.table)
  | .read name buf bufSize => (fsRead t name buf bufSize).map fun r => ((r.1, r.2.bytes), t)
  | .delete name => some (((fsDelete t name).ret, []), (fsDelete t name).table)

def fsMachine : Machine FsTable FsCall (Int × List UInt8) where
  init t := fsInit = some t
  legal _ := FsCall.legal
  step := fsStep

end MiniOS
