import MiniOS.Lib.Machine
import MiniOS.Lib.Loop
import MiniOS.Lib.WordMemory
import MiniOS.Lib.BlockList
import MiniOS.Memory.HeapSafety
import MiniOS.Lib.CString
import MiniOS.Memory.Strings
import MiniOS.Filesystem.FileMap
import MiniOS.Filesystem.Refinement
import MiniOS.Screen.TabStops
import MiniOS.Screen.LiveRows
import MiniOS.Screen.Scrollback
import MiniOS.Screen.ScrollIrq
import MiniOS.Screen.Characters
import MiniOS.Screen.Printing
import MiniOS.Shell.Paths
import MiniOS.Editor.MiniEdit
import MiniOS.Shell.Commands
import MiniOS.Shell.Invariants
import MiniOS.Shell.PathSafety
import MiniOS.Shell.Transfer
import MiniOS.Shell.TransferNames
import MiniOS.Lib.LineBuffer
import MiniOS.Shell.LineEditor
import MiniOS.Shell.LineRefinement
import MiniOS.Keyboard.Irq
import MiniOS.Keyboard.RingFifo
import MiniOS.Editor.Session
import MiniOS.Shell.Changes
import MiniOS.Shell.CommandChanges
import MiniOS.Shell.Goto
import MiniOS.Shell.WorkingDir
import MiniOS.Shell.TypedNames
import MiniOS.Shell.PathTree
import MiniOS.Shell.FileViews
import MiniOS.Shell.ViewNames
import MiniOS.Editor.Redraw
import MiniOS.Shell.LineScreen
import MiniOS.Lib.BlockGaps
import MiniOS.Memory.HeapOrder
import MiniOS.Memory.FirstFit
import MiniOS.Screen.Bounds
import MiniOS.Lib.TextPage
import MiniOS.Screen.Page
import MiniOS.Shell.NotesView
import MiniOS.Lib.Fields
import MiniOS.Shell.Todo
import MiniOS.Shell.TodoList
import MiniOS.Filesystem.Tree
import MiniOS.Lib.PathNames
import MiniOS.Filesystem.TreeListing
import MiniOS.Keyboard.Shift
import MiniOS.Keyboard.WholeLine
import MiniOS.Lib.Decoder
import MiniOS.Keyboard.Typing
import MiniOS.Shell.Calc
import MiniOS.Shell.ArgumentCopies
import MiniOS.Lib.Reads
import MiniOS.Shell.KeyPrograms
import MiniOS.Shell.Safety
import MiniOS.Lib.TextLines
import MiniOS.Shell.LineViews
import MiniOS.Shell.History
import MiniOS.Shell.GotoBack
import MiniOS.Shell.WholeTree
import MiniOS.Filesystem.Listings
import MiniOS.Memory.Rand
import MiniOS.Memory.NumberBuffers
import MiniOS.Memory.AtoiRange
import MiniOS.Screen.MouseSync
import MiniOS.Screen.Printf
import MiniOS.Screen.PrintfFields
import MiniOS.Lib.Ports
import MiniOS.Screen.Ports
import MiniOS.Screen.Serial
import MiniOS.Lib.Stack
import MiniOS.Interrupts.Stubs
import MiniOS.Lib.Pic8259
import MiniOS.Interrupts.Pic
import MiniOS.Interrupts.Descriptors
import MiniOS.Interrupts.Idt
import MiniOS.Interrupts.Drivers
import MiniOS.Lib.Ps2
import MiniOS.Interrupts.MouseSetup
import MiniOS.Interrupts.Runs
import MiniOS.Lib.Tally
import MiniOS.Shell.Reports
import MiniOS.Shell.Chance
import MiniOS.Shell.Recolor
import MiniOS.Shell.System
import MiniOS.Shell.LineCalls
import MiniOS.Shell.Dispatch
import MiniOS.Shell.SystemRuns
import MiniOS.Shell.Sessions
import MiniOS.Shell.SessionReports
