import MiniOS.Filesystem.FileTable
import MiniOS.Lib.BubbleSort

/-!
# Printing the tree (`fs_print_tree` in `kernel/filesystem.c`)

`child_indices` is the list of the indices stored so far, of which there are at
most 32; `is_last_arr` is a list of 32 flags.  An index outside of them fails, as
does the recursion without fuel (`none`).

What a round of the last loop prints is a `TreeRow`; the terminal has to bring all
rows to their end (`CallsReturn`).
-/

namespace MiniOS

open Lib

/-! ## The children of a directory -/

/-- The name of `fname` behind `dir`, as it is printed. -/
def relativeName (dir fname : List UInt8) : List UInt8 :=
  if strcmp dir (text "/") = 0 then fname.drop 1 else fname.drop (strlen dir + 1)

/-- The test of the scan. -/
def isTreeChild (dir : List UInt8) (e : FileEntry) : Bool :=
  if e.used then
    match childName dir e.name.bytes with
    | some child => decide (strlen child > 0) && (strchr child (ch '/')).isNone
    | none => false
  else false

/-- `child_indices[child_count++] = i;` -/
def storeChild (children : List (Fin fsMaxFiles)) (i : Fin fsMaxFiles) :
    Option (List (Fin fsMaxFiles)) :=
  if children.length < fsMaxFiles then some (children ++ [i]) else none

def scanChildren (t : FsTable) (dir : List UInt8) : Option (List (Fin fsMaxFiles)) :=
  (List.finRange fsMaxFiles).foldlM
    (fun children i => if isTreeChild dir (t i) then storeChild children i else some children) []

def sortChildren (t : FsTable) (children : List (Fin fsMaxFiles)) :
    Option (List (Fin fsMaxFiles)) :=
  bubbleSort (fun i j => strcmp (t i).name.bytes (t j).name.bytes > 0) children

/-! ## The rows -/

structure TreeRow where
  idx : Fin fsMaxFiles
  /-- `is_last_arr[0]` to `is_last_arr[depth - 1]`. -/
  ancestors : List Bool
  isLast : Bool
  name : List UInt8
  isDir : Bool

/-- What is printed for a row. -/
def TreeRow.calls (r : TreeRow) : List TerminalCall :=
  (r.ancestors.map fun last => .writestring (if last then text "    " else 179 :: text "   ")) ++
    [.writestring (if r.isLast then [192, 196, 196, ch ' '] else [195, 196, 196, ch ' '])] ++
    if r.isDir then
      [.setcolor .lightBlue .black, .writestring (str r.name ++ text "/\n"),
        .setcolor .white .black]
    else [.writestring (str r.name ++ text "\n")]

/-- `is_last_arr[d] = last;` -/
def setLast (lasts : List Bool) (d : Nat) (last : Bool) : Option (List Bool) :=
  if d < lasts.length then some (lasts.set d last) else none

/-- The recursive call `print`, for a directory. -/
def printBelow (t : FsTable) (depth : Nat)
    (print : List UInt8 → Nat → List Bool → Option (List TreeRow × List Bool))
    (idx : Fin fsMaxFiles) (isLast : Bool) (lasts : List Bool) :
    Option (List TreeRow × List Bool) :=
  if (t idx).isDir then do
    let lasts ← setLast lasts depth isLast
    print (t idx).name.bytes (depth + 1) lasts
  else some ([], lasts)

/-- The last loop, from some child on. -/
def printChildren (t : FsTable) (dir : List UInt8) (depth : Nat)
    (print : List UInt8 → Nat → List Bool → Option (List TreeRow × List Bool)) :
    List (Fin fsMaxFiles) → List Bool → Option (List TreeRow × List Bool)
  | [], lasts => some ([], lasts)
  | idx :: children, lasts => do
    let ancestors ← (List.range depth).mapM (lasts[·]?)
    let isLast := children.isEmpty
    let (below, lasts) ← printBelow t depth print idx isLast lasts
    let (rows, lasts) ← printChildren t dir depth print children lasts
    some (⟨idx, ancestors, isLast, relativeName dir (t idx).name.bytes, (t idx).isDir⟩ ::
      below ++ rows, lasts)

/-- `fs_print_tree_internal`, at most `fuel` calls deep. -/
def fsPrintTreeInternal (t : FsTable) : Nat → List UInt8 → Nat → List Bool →
    Option (List TreeRow × List Bool)
  | 0, _, _, _ => none
  | fuel + 1, dir, depth, lasts => do
    let children ← scanChildren t dir
    let children ← sortChildren t children
    printChildren t dir depth (fsPrintTreeInternal t fuel) children lasts

def fsTreeRows (fuel : Nat) (t : FsTable) (dir : List UInt8) : Option (List TreeRow) :=
  (fsPrintTreeInternal t fuel dir 0 (List.replicate fsMaxFiles false)).map Prod.fst

/-- The line `fs_print_tree` begins with. -/
def treeHeader (dir : List UInt8) : List TerminalCall :=
  [.setcolor .lightBlue .black, .writestring (str dir ++ text "\n"), .setcolor .white .black]

def fsPrintTree (fuel : Nat) (t : FsTable) (dir : List UInt8) : Option (List TerminalCall) := do
  let rows ← fsTreeRows fuel t dir
  some (treeHeader dir ++ rows.flatMap TreeRow.calls)

end MiniOS
