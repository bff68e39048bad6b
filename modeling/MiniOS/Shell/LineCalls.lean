import MiniOS.Screen.Characters
import MiniOS.Shell.LineEditor

/-!
# The line editor as a caller of the terminal

`shell_readline` writes to the terminal through `terminal_putchar`,
`terminal_writestring` and `terminal_setcursor`.  What all calls of the terminal
keep is therefore kept by every key (`shellKey_keeps`), by a line
(`shellReadline_keeps`) and by a prompt (`readCommand_keeps`).
-/

namespace MiniOS

open Lib

/-- What comes back of anything. -/
theorem yields_trivial {α : Type*} (o : Option α) : Yields False o fun _ => True :=
  ⟨fun _ _ => trivial, False.elim⟩

/-- What all calls of the terminal keep. -/
def KeptByCalls (P : Terminal → Prop) : Prop :=
  ∀ fuel t (call : TerminalCall), P t → Yields False (call.run fuel t) P

variable {P : Terminal → Prop} (hP : KeptByCalls P) {n fuel : Nat} {h : ShellHistory} {t : Terminal}
  {e : LineEdit n}

include hP

theorem runCalls_keeps (ht : P t) (calls : List TerminalCall) :
    Yields False (runCalls fuel t calls) P := by
  induction calls generalizing t with
  | nil => exact .some ht
  | cons call calls ih => exact (hP fuel t call ht).bind fun _ ht => ih ht

/-! ## Echo -/

theorem putchar_keeps (ht : P t) (c : UInt8) : Yields False (terminalPutchar fuel t c) P :=
  hP fuel t (.putchar c) ht

theorem echoChars_keeps (ht : P t) (buf : Chars n) (i k : Nat) :
    Yields False (echoChars fuel buf i k t) P := by
  induction k generalizing i t with
  | zero => exact .some ht
  | succ k ih => exact (putchar_keeps hP ht _).bind fun _ ht => ih ht (i + 1)

theorem echoBlanks_keeps (ht : P t) (k : Nat) : Yields False (echoBlanks fuel k t) P := by
  induction k generalizing t with
  | zero => exact .some ht
  | succ k ih =>
    rw [echoBlanks]
    exact (putchar_keeps hP ht _).bind fun _ ht => ih ht

theorem setCell_keeps (ht : P t) (cell : Nat × Nat) : P (setCell t cell) :=
  (hP 0 t (.setcursor cell.1 cell.2) ht).correct _ rfl

/-! ## Keys -/

theorem lineBackspace_keeps (ht : P e.term) : Yields False (lineBackspace fuel e) (P ·.term) := by
  unfold lineBackspace
  split
  · refine (yields_trivial _).bind fun buf _ => ?_
    refine (yields_trivial _).bind fun buf _ => ?_
    refine (putchar_keeps hP ht _).bind fun t ht => ?_
    refine (echoChars_keeps hP ht _ _ _).bind fun t ht => ?_
    refine (putchar_keeps hP ht _).bind fun t ht => ?_
    exact .some (setCell_keeps hP ht _)
  · exact .some ht

theorem lineLeft_keeps (ht : P e.term) : P (lineLeft e).term := by
  unfold lineLeft
  split
  · exact setCell_keeps hP ht _
  · exact ht

theorem lineRight_keeps (ht : P e.term) : P (lineRight e).term := by
  unfold lineRight
  split
  · exact setCell_keeps hP ht _
  · exact ht

theorem linePrintable_keeps (ht : P e.term) (len : Nat) (c : UInt8) :
    Yields False (linePrintable fuel len c e) (P ·.term) := by
  unfold linePrintable
  split
  · refine (yields_trivial _).bind fun buf _ => ?_
    refine (yields_trivial _).bind fun buf _ => ?_
    refine (yields_trivial _).bind fun buf _ => ?_
    refine (echoChars_keeps hP ht _ _ _).bind fun t ht => ?_
    exact .some (setCell_keeps hP ht _)
  · exact .some ht

theorem loadHistory_keeps (ht : P e.term) (len : Nat) :
    Yields False (loadHistory fuel h len e) (P ·.term) := by
  unfold loadHistory
  refine (echoBlanks_keeps hP (setCell_keeps hP ht _) _).bind fun t ht => ?_
  have hwiped := setCell_keeps hP ht (cellBefore^[e.cursorPos.toNat] e.term.cell)
  simp only
  split
  · exact (yields_trivial _).bind fun buf _ => .some hwiped
  · refine (yields_trivial _).bind fun row _ => ?_
    refine (yields_trivial _).bind fun buf _ => ?_
    refine (yields_trivial _).bind fun buf _ => ?_
    exact (hP fuel _ (.writestring buf.bytes) hwiped).bind fun t ht => .some ht

/-- **One key.** -/
theorem shellKey_keeps (ht : P e.term) (len : Nat) (c : UInt8) :
    Yields False (shellKey fuel h len e c) (P ·.term) := by
  unfold shellKey
  split
  · exact lineBackspace_keeps hP ht
  split
  · exact .some (lineLeft_keeps hP ht)
  split
  · exact .some (lineRight_keeps hP ht)
  split
  · unfold lineUp
    split
    · exact loadHistory_keeps hP (e := { e with historyIdx := e.historyIdx - 1 }) ht len
    · exact .some ht
  split
  · unfold lineDown
    split
    · exact loadHistory_keeps hP (e := { e with historyIdx := e.historyIdx + 1 }) ht len
    · exact .some ht
  split
  · exact linePrintable_keeps hP ht len c
  · exact .some ht

/-! ## Lines -/

theorem lineEnter_keeps (ht : P e.term) (keys : List UInt8) :
    Yields False (lineEnter fuel e keys) (P ·.term) := by
  unfold lineEnter
  refine (echoChars_keeps hP ht _ _ _).bind fun t ht => ?_
  refine (putchar_keeps hP ht _).bind fun t ht => ?_
  exact (yields_trivial _).bind fun buf _ => .some ht

theorem shellReadlineLoop_keeps (ht : P e.term) (len : Nat) (keys : List UInt8) :
    Yields False (shellReadlineLoop fuel h len e keys) (P ·.term) := by
  induction keys generalizing e with
  | nil => exact ⟨nofun, False.elim⟩
  | cons c keys ih =>
    rw [shellReadlineLoop]
    split
    · exact lineEnter_keeps hP ht keys
    · exact (shellKey_keeps hP ht len c).bind fun e ht => ih ht

theorem shellReadline_keeps (ht : P t) (buf : Chars n) (len : Nat) (keys : List UInt8) :
    Yields False (shellReadline fuel h buf len t keys) (P ·.term) := by
  unfold shellReadline lineStart
  rw [Option.bind_eq_bind, Option.bind_eq_bind, Option.bind_assoc]
  exact (yields_trivial _).bind fun buf _ => shellReadlineLoop_keeps hP ht len keys

/-- **A prompt.** -/
theorem readCommand_keeps {p : Prompt} (ht : P p.term) :
    Yields False (readCommand h p) (P ·.1.term) := by
  unfold readCommand
  refine (shellReadline_keeps hP ht _ _ _).bind fun r ht => ?_
  simp only
  split
  · exact .some ht
  · exact (yields_trivial _).bind fun h _ => .some ht

end MiniOS
