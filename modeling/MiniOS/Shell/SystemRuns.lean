import MiniOS.Shell.CommandChanges
import MiniOS.Shell.Dispatch
import MiniOS.Shell.History
import MiniOS.Shell.LineCalls
import MiniOS.Shell.Recolor
import MiniOS.Shell.System

/-!
# Rounds of the shell

What one branch does to the files (`runCommand_file`, `runCommand_other`), and
what a round does: `round_cases` is the only place where a round is taken apart.
A line that names a filesystem command (`fileCall`) does what the command does
(`round_file`), any other leaves the files and the directory (`round_other`).
-/

namespace MiniOS

open Lib

/-! ## A branch -/

/-- The filesystem command of a branch. -/
def Command.file : Command → Option ShellCmd
  | .new => some .new
  | .edit => some .edit
  | .write => some .write
  | .see => some .see
  | .laf => some .laf
  | .notes => some .notes
  | .fm => some .fm
  | .del => some .del
  | .cpy => some .cpy
  | .mov => some .mov
  | .rename => some .rename
  | .look => some .look
  | .wdir => some .wdir
  | .goto => some .goto
  | .mkd => some .mkd
  | .deld => some .deld
  | _ => none

/-- `hunt`, `cnt`, `top` and `btm` only read. -/
theorem cmdHunt_state {s : Shell} {arg : List UInt8} {r : Shown} (hr : cmdHunt s arg = some r) :
    r.1 = s := by
  simp only [cmdHunt, Option.bind_eq_bind, Option.bind_eq_some_iff] at hr
  obtain ⟨args, _, hr⟩ := hr
  split at hr
  · cases hr
    rfl
  · simp only [Option.bind_eq_some_iff, Prod.exists] at hr
    obtain ⟨n, buf, _, hr⟩ := hr
    split at hr
    · cases hr
      rfl
    · obtain ⟨w, _, hr⟩ := Option.bind_eq_some_iff.mp hr
      cases hr
      rfl

theorem cmdCnt_state {s : Shell} {arg : List UInt8} {r : Shown} (hr : cmdCnt s arg = some r) :
    r.1 = s := by
  unfold cmdCnt at hr
  split at hr
  · cases hr
    rfl
  · simp only [Option.bind_eq_bind, Option.bind_eq_some_iff, Prod.exists] at hr
    obtain ⟨n, buf, _, hr⟩ := hr
    split at hr <;> cases hr <;> rfl

theorem viewCmd_state {s : Shell} {arg usage : List UInt8}
    {view : Int → Chars (fsMaxFilesize + 1) → Option (List TerminalCall)} {r : Shown}
    (hr : viewCmd s arg usage view = some r) : r.1 = s := by
  simp only [viewCmd, Option.bind_eq_bind, Option.bind_eq_some_iff, Prod.exists] at hr
  obtain ⟨file, count, _, hr⟩ := hr
  split at hr
  · cases hr
    rfl
  · simp only [Option.bind_eq_some_iff, Prod.exists] at hr
    obtain ⟨path, _, n, buf, _, hr⟩ := hr
    split at hr
    · cases hr
      rfl
    · obtain ⟨out, _, hr⟩ := Option.bind_eq_some_iff.mp hr
      cases hr
      rfl

theorem cmdColor_recolor (s : Shell) (arg : List UInt8) (c : VgaColor) :
    (cmdColor s arg).1.recolor c = s.recolor c := by
  unfold cmdColor
  split <;> rfl

/-- What no branch changes. -/
structure SameFrame (s s' : System) : Prop where
  history : s'.history = s.history
  inputBuf : s'.inputBuf = s.inputBuf
  totalCommandsRun : s'.totalCommandsRun = s.totalCommandsRun
  heap : s'.heap = s.heap
  term : s'.term = s.term

variable {fuel : Nat} {ticks : UInt32} {s : System} {c : Command} {cmd arg keys : List UInt8} {r : Ran}

/-- The branch of a filesystem command. -/
theorem runCommand_file {k : ShellCmd} (hk : c.file = some k) :
    runCommand fuel ticks s (some c) cmd arg keys = (ShellCall.run s.shell ⟨k, arg, keys⟩).map
      fun r => ⟨{ s with shell := r.val }, r.out, r.keys⟩ := by
  cases c <;> cases hk <;> rfl

/-- Any other branch leaves the files and the directory as they are. -/
theorem runCommand_other (hc : c.file = none)
    (hr : runCommand fuel ticks s (some c) cmd arg keys = some r) :
    SameFrame s r.sys ∧ r.sys.shell.recolor .white = s.shell.recolor .white := by
  have hview : ∀ {o : Option Shown}, (∀ r', o = some r' → r'.1 = s.shell) →
      o.map (fun r => (⟨{ s with shell := r.1 }, r.2, keys⟩ : Ran)) = some r →
        SameFrame s r.sys ∧ r.sys.shell.recolor .white = s.shell.recolor .white := by
    intro o ho hr
    obtain ⟨r', hr', rfl⟩ := Option.map_eq_some_iff.mp hr
    exact ⟨⟨rfl, rfl, rfl, rfl, rfl⟩, congrArg (Shell.recolor · .white) (ho r' hr')⟩
  have hdraws : ∀ {d : List TerminalCall × UInt32},
      some (⟨{ s with randSeed := d.2 }, d.1, keys⟩ : Ran) = some r →
        SameFrame s r.sys ∧ r.sys.shell.recolor .white = s.shell.recolor .white := by
    rintro d ⟨⟩
    exact ⟨⟨rfl, rfl, rfl, rfl, rfl⟩, rfl⟩
  have hstops : ∀ (stop : Option Stop) {out : List TerminalCall},
      some (⟨{ s with stopped := stop }, out, keys⟩ : Ran) = some r →
        SameFrame s r.sys ∧ r.sys.shell.recolor .white = s.shell.recolor .white := by
    rintro stop out ⟨⟩
    exact ⟨⟨rfl, rfl, rfl, rfl, rfl⟩, rfl⟩
  cases c with
  | new | edit | write | see | laf | notes | fm | del | cpy | mov | rename | look | wdir | goto
  | mkd | deld => cases hc
  | hunt => exact hview (fun _ => cmdHunt_state) hr
  | cnt => exact hview (fun _ => cmdCnt_state) hr
  | top | btm => exact hview (fun _ => viewCmd_state) hr
  | «calc» =>
    simp only [runCommand] at hr
    split at hr <;> cases hr <;> exact ⟨⟨rfl, rfl, rfl, rfl, rfl⟩, rfl⟩
  | color =>
    cases hr
    exact ⟨⟨rfl, rfl, rfl, rfl, rfl⟩, cmdColor_recolor s.shell arg .white⟩
  | todo | dtree =>
    obtain ⟨_, _, rfl⟩ := Option.map_eq_some_iff.mp hr
    exact ⟨⟨rfl, rfl, rfl, rfl, rfl⟩, rfl⟩
  | passgen | flip | dice => exact hdraws hr
  | rst => exact hstops (some .rst) hr
  | bye => exact hstops (some .bye) hr
  | cmds | osinfo | cls | wrt | memo | date | alive | history | sysinfo | whoiam | disk | splash
  | ver | ref => exact hstops s.stopped hr

theorem runCommand_frame {command : Option Command}
    (hr : runCommand fuel ticks s command cmd arg keys = some r) : SameFrame s r.sys := by
  cases command with
  | none =>
    cases hr
    exact ⟨rfl, rfl, rfl, rfl, rfl⟩
  | some c =>
    cases hk : c.file with
    | none => exact (runCommand_other hk hr).1
    | some k =>
      rw [runCommand_file hk] at hr
      obtain ⟨r', _, rfl⟩ := Option.map_eq_some_iff.mp hr
      exact ⟨rfl, rfl, rfl, rfl, rfl⟩

/-! ## A round -/

variable {s' : System} {e : Round} {a : Answer}

/-- `*line == '\0'` behind the blanks. -/
def BlankLine (line : LineRead inputMax) : Prop := (skipSpaces line.buf.bytes).headD 0 = 0

instance (line : LineRead inputMax) : Decidable (BlankLine line) :=
  inferInstanceAs (Decidable (_ = _))

theorem blankLine_iff (line : LineRead inputMax) :
    BlankLine line ↔ (str line.buf.bytes).dropWhile isSpace = [] := by
  unfold BlankLine
  rw [← str_eq_nil_iff, str_skipSpaces]

/-- The line is in the buffer, on the screen, and in the history. -/
def System.entered (s : System) (history : ShellHistory) (line : LineRead inputMax) : System :=
  { s with history := history, inputBuf := line.buf, term := line.term }

/-- `total_commands_run++`. -/
def System.counted (s : System) : System :=
  { s with totalCommandsRun := i32 (s.totalCommandsRun + 1) }

/-- What a round did up to the line. -/
structure LineEntered (s : System) (e : Round) (a : Answer) (history : ShellHistory)
    (term : Terminal) : Prop where
  prompt : runCalls e.fuel s.term (printPrompt s.shell) = some term
  line : readCommand s.history ⟨e.fuel, s.inputBuf, term, e.keys⟩ = some (a.line, history)

/-- What a round did with a line that is not blank. -/
structure CommandRun (s : System) (e : Round) (a : Answer) (s' : System) (command : Option Command)
    (arg : List UInt8) (r : Ran) : Prop where
  notBlank : ¬ BlankLine a.line
  split : commandLine a.line.buf.bytes = some (command, arg)
  run : ∃ cmd, str cmd = (firstWord ((str a.line.buf.bytes).dropWhile isSpace)).take 63 ∧
    runCommand e.fuel e.ticks s.counted command cmd arg a.line.keys = some r
  shown : runCalls e.fuel r.sys.term r.out = some s'.term
  keys : a.keys = r.keys
  left : s' = { r.sys with term := s'.term }

/-- A round reads a line, and runs its command unless it is blank. -/
theorem round_cases (h : s.round e = some (a, s')) : ∃ history term, LineEntered s e a history term ∧
    (BlankLine a.line ∧ a.keys = a.line.keys ∧ s' = s.entered history a.line ∨
      ∃ command arg r, CommandRun (s.entered history a.line) e a s' command arg r) := by
  simp only [System.round, Option.bind_eq_bind, Option.bind_eq_some_iff, Prod.exists] at h
  obtain ⟨term, hterm, line, history, hline, h⟩ := h
  change (s.entered history line).runLine e line = some (a, s') at h
  unfold System.runLine at h
  simp only at h
  split at h
  · rename_i hblank
    cases h
    exact ⟨history, term, ⟨hterm, hline⟩, .inl ⟨hblank, rfl, rfl⟩⟩
  · rename_i hblank
    simp only [Option.bind_eq_bind, Option.bind_eq_some_iff, Prod.exists] at h
    obtain ⟨cmd, arg, hsplit, r, hrun, term', hshown, h⟩ := h
    cases h
    obtain ⟨cmd', arg', hsplit', hword, _⟩ := splitCommand_spec (skipSpaces line.buf.bytes)
    rw [hsplit] at hsplit'
    cases hsplit'
    rw [str_skipSpaces] at hword
    refine ⟨history, term, ⟨hterm, hline⟩, .inr ⟨dispatch cmd.bytes, arg, r, ?_⟩⟩
    exact
      { notBlank := hblank
        split := by rw [commandLine, hsplit]; rfl
        run := ⟨cmd.bytes, hword, hrun⟩
        shown := hshown
        keys := rfl
        left := rfl }

/-! ## The files -/

/-- The filesystem command of a line, with the keys behind the line. -/
def fileCall (line : LineRead inputMax) : Option ShellCall :=
  if BlankLine line then none
  else
    match commandLine line.buf.bytes with
    | some (some c, arg) => c.file.map fun k => ⟨k, arg, line.keys⟩
    | _ => none

theorem CommandRun.fileCall_eq {command : Option Command} (h : CommandRun s e a s' command arg r) :
    fileCall a.line = command.bind fun c => c.file.map fun k => ⟨k, arg, a.line.keys⟩ := by
  unfold fileCall
  rw [if_neg h.notBlank, h.split]
  cases command <;> rfl

/-- Any line but that of a filesystem command leaves the files and the directory. -/
theorem round_other (h : s.round e = some (a, s')) (hcall : fileCall a.line = none) :
    s'.shell.recolor .white = s.shell.recolor .white := by
  obtain ⟨history, term, _, ⟨_, _, rfl⟩ | ⟨command, arg, r, hc⟩⟩ := round_cases h
  · rfl
  · rw [hc.fileCall_eq] at hcall
    obtain ⟨cmd, _, hrun⟩ := hc.run
    rw [hc.left]
    cases command with
    | none =>
      cases hrun
      rfl
    | some c =>
      exact (runCommand_other (Option.map_eq_none_iff.mp hcall) hrun).2

/-- The line of a filesystem command does to the files what the command does. -/
theorem round_file {call : ShellCall} (h : s.round e = some (a, s'))
    (hcall : fileCall a.line = some call) :
    (str call.arg).length ≤ 255 ∧ str call.arg ⊆ str a.line.buf.bytes ∧
      ∃ r, call.run s.shell = some r ∧ s'.shell = r.val ∧ a.keys = r.keys := by
  obtain ⟨history, term, _, ⟨hblank, _⟩ | ⟨command, arg, r, hc⟩⟩ := round_cases h
  · unfold fileCall at hcall
    rw [if_pos hblank] at hcall
    cases hcall
  · rw [hc.fileCall_eq] at hcall
    obtain ⟨c, rfl, hcall⟩ := Option.bind_eq_some_iff.mp hcall
    obtain ⟨k, hk, rfl⟩ := Option.map_eq_some_iff.mp hcall
    obtain ⟨cmd, _, hrun⟩ := hc.run
    rw [runCommand_file hk] at hrun
    obtain ⟨r', hr', rfl⟩ := Option.map_eq_some_iff.mp hrun
    obtain ⟨hlen, hsubset⟩ := commandLine_arg hc.split
    have hline : (str a.line.buf.bytes).length ≤ 256 := by
      rw [← show a.line.buf.bytes.length = 256 from a.line.buf.length_eq]
      exact (List.takeWhile_prefix _).length_le
    have harg : (str arg).length ≤ 255 := by omega
    refine ⟨harg, hsubset, r', hr', ?_, hc.keys⟩
    rw [hc.left]

/-- The same, whatever the colour. -/
theorem run_white {call : ShellCall} {sh : Shell} {r : Typed Shell} (h : call.run sh = some r) :
    ∃ r', call.run (sh.recolor .white) = some r' ∧ r'.val = r.val.recolor .white := by
  have hleft := run_recolor sh .white call
  rw [h] at hleft
  obtain ⟨r', hr', heq⟩ := Option.map_eq_some_iff.mp hleft
  exact ⟨r', hr', congrArg Prod.fst heq⟩

end MiniOS
