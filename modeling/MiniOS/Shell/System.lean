import MiniOS.Filesystem.Tree
import MiniOS.Shell.Calc
import MiniOS.Shell.Chance
import MiniOS.Shell.FileViews
import MiniOS.Shell.Todo

/-!
# The whole shell (`shell_run` in `kernel/shell.c`, `kernel_main`)

A round of `shell_run` draws the prompt, reads a line, adds it to the history and
runs the branch for its name (`System.round`); what a branch shows goes to the
terminal.  `rst`, `bye` and a divide exception end the session (`Stop`).  The view
is not scrolled in between.

`systemMachine` starts from what `kernel_main` has shown when it calls `shell_run`.
-/

namespace MiniOS

open Lib

/-- Where control leaves `shell_run`: `cmd_rst`, `cmd_bye` and an exception in `cmd_calc`. -/
inductive Stop where
  | rst
  | bye
  | divide
deriving DecidableEq

/-- The statics of `shell.c`, and those of the drivers its commands work on. -/
structure System where
  shell : Shell
  todos : Todos
  history : ShellHistory
  inputBuf : Chars inputMax
  totalCommandsRun : Int
  randSeed : UInt32
  heap : Heap
  term : Terminal
  stopped : Option Stop

/-! ## The branches -/

/-- What a branch leaves and shows, and the keys behind those it has read. -/
structure Ran where
  sys : System
  out : List TerminalCall
  keys : List UInt8

/-- The branch `command` of `shell_run`; `none` there is the last `else`. -/
def runCommand (fuel : Nat) (ticks : UInt32) (s : System) (command : Option Command)
    (cmd arg keys : List UInt8) : Option Ran :=
  let shows := fun (out : List TerminalCall) => some (⟨s, out, keys⟩ : Ran)
  let file := fun (k : ShellCmd) =>
    (ShellCall.run s.shell ⟨k, arg, keys⟩).map fun r => (⟨{ s with shell := r.val }, r.out, r.keys⟩ : Ran)
  let view := fun (r : Option Shown) =>
    r.map fun r => (⟨{ s with shell := r.1 }, r.2, keys⟩ : Ran)
  let draws := fun (r : List TerminalCall × UInt32) =>
    some (⟨{ s with randSeed := r.2 }, r.1, keys⟩ : Ran)
  let stops := fun (stop : Stop) (out : List TerminalCall) =>
    some (⟨{ s with stopped := some stop }, out, keys⟩ : Ran)
  match command with
  | none => shows (unknownCommand s.shell cmd)
  | some .cmds => shows (cmdCmds s.shell)
  | some .osinfo => shows (cmdOsinfo s.shell)
  | some .cls => shows [.clear]
  | some .wrt => shows (cmdWrt arg)
  | some .memo => shows (cmdMemo s.heap)
  | some .new => file .new
  | some .edit => file .edit
  | some .write => file .write
  | some .see => file .see
  | some .laf => file .laf
  | some .date => shows (cmdDate ticks)
  | some .alive => shows (cmdAlive ticks)
  | some .calc =>
    match cmdCalc arg with
    | .ok out => shows out
    | .error .store => none
    | .error .divide => stops .divide []
  | some .color => view (some (cmdColor s.shell arg))
  | some .history => shows (cmdShowHistory s.history)
  | some .todo => (cmdTodo s.todos arg).map fun r => ⟨{ s with todos := r.1 }, r.2, keys⟩
  | some .passgen => draws (cmdPassgen ticks arg)
  | some .notes => file .notes
  | some .fm => file .fm
  | some .sysinfo => shows (cmdSysinfo s.shell ticks s.totalCommandsRun)
  | some .del => file .del
  | some .cpy => file .cpy
  | some .mov => file .mov
  | some .rename => file .rename
  | some .look => file .look
  | some .wdir => file .wdir
  | some .goto => file .goto
  | some .mkd => file .mkd
  | some .deld => file .deld
  | some .dtree =>
    (fsPrintTree fuel s.shell.table s.shell.currentDir.bytes).map fun out => ⟨s, out, keys⟩
  | some .whoiam => shows cmdWhoiam
  | some .rst => stops .rst (say (text "Restarting OS...\n"))
  | some .bye => stops .bye (say (text "Shutting down MiniOS... Goodbye.\n"))
  | some .disk => shows (cmdDisk s.shell)
  | some .hunt => view (cmdHunt s.shell arg)
  | some .cnt => view (cmdCnt s.shell arg)
  | some .top => view (cmdTop s.shell arg)
  | some .btm => view (cmdBtm s.shell arg)
  | some .flip => draws (cmdFlip ticks)
  | some .dice => draws (cmdDice ticks)
  | some .splash => shows (cmdSplash s.shell)
  | some .ver => shows cmdVer
  | some .ref => shows (cmdRef arg)

/-! ## A round -/

def printPrompt (s : Shell) : List TerminalCall :=
  [.setcolor .lightCyan .black] ++ say (text "minios:") ++ [.setcolor .lightBlue .black] ++
    say (str s.currentDir.bytes) ++ [.setcolor .lightGreen .black] ++ say (text "> ") ++
      [.setcolor s.textColor .black]

/-- The rounds a tab or a tree may take, the tick count, and the keys typed from the prompt on. -/
structure Round where
  fuel : Nat
  ticks : UInt32
  keys : List UInt8

/-- The line of a round, and the keys no one has read. -/
structure Answer where
  line : LineRead inputMax
  keys : List UInt8

/-- A round behind the line: nothing for a blank line, else its command. -/
def System.runLine (s : System) (e : Round) (line : LineRead inputMax) :
    Option (Answer × System) :=
  let typed := skipSpaces line.buf.bytes
  if typed.headD 0 = 0 then some (⟨line, line.keys⟩, s)
  else do
    let s := { s with totalCommandsRun := i32 (s.totalCommandsRun + 1) }
    let (cmd, arg) ← splitCommand typed
    let r ← runCommand e.fuel e.ticks s (dispatch cmd.bytes) cmd.bytes arg line.keys
    let term ← runCalls e.fuel r.sys.term r.out
    some (⟨line, r.keys⟩, { r.sys with term })

def System.round (s : System) (e : Round) : Option (Answer × System) := do
  let term ← runCalls e.fuel s.term (printPrompt s.shell)
  let (line, history) ← readCommand s.history ⟨e.fuel, s.inputBuf, term, e.keys⟩
  { s with history, inputBuf := line.buf, term := line.term }.runLine e line

/-! ## Booting -/

def printBanner : List TerminalCall :=
  [.setcolor .cyan .black] ++ say (text "  __  __ _       _  ___  ____\n") ++
    say (text " |  \\/  (_)_ __ (_)/ _ \\/ ___|\n") ++ say (text " | |\\/| | | '_ \\| | | | \\___ \\\n") ++
    say (text " | |  | | | | | | | |_| |___) |\n") ++ say (text " |_|  |_|_|_| |_|_|\\___/|____/\n") ++
    say (text "\n") ++ [.setcolor .white .black] ++ say (text " MiniOS v1.0 - A minimal x86 OS\n") ++
  [.setcolor .lightGrey .black] ++
    say (text " Built by Ahmed Ali | C99 + x86 ASM | GRUB + QEMU\n") ++
    say (text " ------------------------------------------------\n") ++ [.setcolor .white .black]

/-- `ok(name)`. -/
def okLine (name : List UInt8) : List TerminalCall :=
  [.setcolor .lightGrey .black] ++ say (text " [") ++ [.setcolor .lightGreen .black] ++
    say (text " OK ") ++ [.setcolor .lightGrey .black] ++ say (text "] ") ++
      [.setcolor .white .black] ++ say name ++ [.putchar (ch '\n')]

/-- What `kernel_main` asks of the terminal before `shell_run`. -/
def bootCalls : List TerminalCall :=
  [.init, .clear] ++ printBanner ++ say (text "\n Initialising subsystems...\n\n") ++
    okLine (text "Memory manager (256 KiB heap)") ++ okLine (text "Global Descriptor Table (GDT)") ++
    okLine (text "Interrupt Descriptor Table (IDT)") ++
    okLine (text "8259 PIC (IRQs remapped to 0x20-0x2F)") ++
    okLine (text "Programmable Interval Timer (100 Hz)") ++
    okLine (text "PS/2 Keyboard driver (IRQ1)") ++
    okLine (text "PS/2 Mouse driver with scroll wheel (IRQ12)") ++
    okLine (text "In-memory filesystem (16 files x 256 B)") ++
    say (text "\n") ++ [.setcolor .yellow .black] ++
    say (text " Boot complete. Type 'cmds' for available commands.\n") ++ [.setcolor .white .black]

/-- The statics when `shell_run` is called. -/
def bootSystem (table : FsTable) (heap : Heap) (term : Terminal) : System where
  shell := bootShell table
  todos := Todos.boot
  history := ShellHistory.boot
  inputBuf := Chars.fill _ 0
  totalCommandsRun := 0
  randSeed := 1
  heap := heap
  term := term
  stopped := none

/-- The rounds of a session, from power-on to its end. -/
def systemMachine : Machine System Round Answer where
  init s := ∃ vga S m table fuel term, fsInit = some table ∧
    runCalls fuel (Terminal.boot vga) bootCalls = some term ∧
      s = bootSystem table (memoryInit S m) term
  legal s _ := s.stopped = none
  step := System.round

end MiniOS
