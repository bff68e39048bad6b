import MiniOS.Lib.Fields
import MiniOS.Shell.FileViews

/-!
# The to-do list (`cmd_todo` in `kernel/shell.c`)

`todos` is an array of 20 records of 72 bytes: two `int`s and 64 characters.
The copy into `text` is as long as what the user typed, so it is modelled on the
bytes of the whole array: what does not fit in its record goes on in the next
one, and a store behind the array fails.
-/

namespace MiniOS

open Lib

/-! ## The records -/

def todoMax : Nat := 20

/-- `sizeof(todo_item_t)`. -/
def todoSize : Nat := 72

def idAt (i : Nat) : Nat := i * todoSize

def doneAt (i : Nat) : Nat := i * todoSize + 4

def textAt (i : Nat) : Nat := i * todoSize + 8

structure Todos where
  todos : Chars (todoMax * todoSize)
  todoCount : Nat
  todoNextId : Int

namespace Todos

def id (s : Todos) (i : Nat) : Int := i32 (s.todos.load32 (idAt i))

def done (s : Todos) (i : Nat) : Int := i32 (s.todos.load32 (doneAt i))

/-- `todos[i].text` as `%s` prints it. -/
def text (s : Todos) (i : Nat) : List UInt8 := str (s.todos.bytes.drop (textAt i))

/-- The statics at boot. -/
def boot : Todos := ⟨Chars.fill _ 0, 0, 1⟩

end Todos

def storeInt {n : Nat} (b : Chars n) (a : Nat) (v : Int) : Option (Chars n) :=
  b.store32 a (u32OfInt v)

/-! ## The command -/

def todoLine (id : Int) (done : Bool) (txt : List UInt8) : TerminalCall :=
  .writestring (text "  [" ++ itoa id ++ text "] [" ++ [if done then ch 'x' else ch ' '] ++
    text "] " ++ txt ++ text "\n")

/-- `todo add`, from behind the `add `. -/
def todoAdd (s : Todos) (txt : List UInt8) : Option (Todos × List TerminalCall) :=
  if s.todoCount ≥ todoMax then some (s, say (text "Todo list is full!\n"))
  else do
    let txt := if txt.headD 0 = ch '"' then txt.drop 1 else txt
    let len := strlen txt
    let len := if len > 0 ∧ txt.getD (len - 1) 0 = ch '"' then len - 1 else len
    let todos ← storeInt s.todos (idAt s.todoCount) s.todoNextId
    let todos ← storeInt todos (doneAt s.todoCount) 0
    let todos ← strncpy todos (textAt s.todoCount) txt len
    let todos ← todos.put (textAt s.todoCount + len) 0
    some (⟨todos, s.todoCount + 1, i32 (s.todoNextId + 1)⟩, say (text "Task added.\n"))

def todoList (s : Todos) : List TerminalCall :=
  (if s.todoCount = 0 then say (text "No tasks in your to-do list.\n") else []) ++
    (List.range s.todoCount).map fun i => todoLine (s.id i) (s.done i ≠ 0) (s.text i)

/-- `todo done`, with the number read. -/
def todoDone (s : Todos) (id : Int) : Option (Todos × List TerminalCall) :=
  match (List.range s.todoCount).find? (s.id · = id) with
  | some i => do
    let todos ← storeInt s.todos (doneAt i) 1
    some ({ s with todos := todos }, say (text "Task marked as done.\n"))
  | none => some (s, say (text "Task ID not found.\n"))

def cmdTodo (s : Todos) (arg : List UInt8) : Option (Todos × List TerminalCall) :=
  let newline := say (text "\n")
  if strncmp arg (text "add ") 4 = 0 then do
    let (s, out) ← todoAdd s (arg.drop 4)
    some (s, newline ++ out)
  else if strcmp arg (text "list") = 0 then some (s, newline ++ todoList s)
  else if strncmp arg (text "done ") 5 = 0 then do
    let (s, out) ← todoDone s (atoi (arg.drop 5))
    some (s, newline ++ out)
  else if strcmp arg (text "clear") = 0 then
    some ({ s with todoCount := 0, todoNextId := 1 }, newline ++ say (text "Todo list cleared.\n"))
  else
    some (s, newline ++ say (text "Usage: todo [add \"text\" | list | done <id> | clear]\n"))

end MiniOS
