import MiniOS.Keyboard.Typing
import MiniOS.Shell.SystemRuns
import MiniOS.Shell.TypedNames

/-!
# Sessions

`InSession as s` says what is known of the shell once its rounds have answered
`as`: its files, its history and its terminal are reachable states of their own
machines, so that what holds of these holds in a session.  A round keeps it
(`InSession.round`).

* `typed_command`: the keys of a line are a command with its argument;
* `keyboard_command`: so are the scan codes that come while it is typed;
* `session_refines`: a session does to the files what the commands typed in it do.
-/

namespace MiniOS

open Lib

/-! ## Calls that come back -/

variable {fuel : Nat} {t : Terminal}

theorem putchar_returns {c : UInt8} (hc : c ≠ ch '\t') (t : Terminal) :
    ∃ t', terminalPutchar fuel t c = some t' :=
  (putchar_yields (fun _ : True => hc) t).returns trivial

theorem write_returns {data : List UInt8} (h : ch '\t' ∉ data) (t : Terminal) :
    ∃ t', terminalWrite fuel t data = some t' := by
  induction data generalizing t with
  | nil => exact ⟨t, rfl⟩
  | cons c data ih =>
    obtain ⟨hc, hdata⟩ := not_or.mp (mt List.mem_cons.mpr h)
    obtain ⟨t₁, ht₁⟩ := putchar_returns (Ne.symm hc) t
    rw [terminalWrite, ht₁]
    exact ih hdata t₁

theorem call_returns {call : TerminalCall} (h : ch '\t' ∉ call.bytes) (t : Terminal) :
    ∃ t', call.run fuel t = some t' := by
  have hstring : ∀ {s : List UInt8} (t : Terminal), ch '\t' ∉ str s →
      ∃ t', terminalWritestring fuel t s = some t' := fun t hs =>
    (writestring_yields (fun _ : True => hs) t).returns trivial
  cases call with
  | putchar c => exact putchar_returns (fun hc => h (List.mem_singleton.mpr hc.symm)) t
  | write data => exact write_returns h t
  | writestring s => exact hstring t h
  | writecolor s fg bg =>
    obtain ⟨t', ht'⟩ := hstring { t with termColor := makeColor fg bg } h
    refine ⟨{ t' with termColor := t.termColor }, ?_⟩
    show terminalWritecolor fuel t s fg bg = _
    simp only [terminalWritecolor, ht', Option.bind_eq_bind, Option.bind_some]
  | init | clear | setcolor _ _ | setcursor _ _ | scrollUp _ | scrollDown _ => exact ⟨_, rfl⟩

theorem runCalls_cons (call : TerminalCall) (calls : List TerminalCall) (t : Terminal) :
    runCalls fuel t (call :: calls) = (call.run fuel t).bind fun t => runCalls fuel t calls := rfl

/-- Calls that show no tab come back. -/
theorem runCalls_returns {calls : List TerminalCall} (h : ch '\t' ∉ printedText calls)
    (t : Terminal) : ∃ t', runCalls fuel t calls = some t' := by
  induction calls generalizing t with
  | nil => exact ⟨t, rfl⟩
  | cons call calls ih =>
    unfold printedText at h
    rw [List.flatMap_cons, List.mem_append, not_or] at h
    obtain ⟨t₁, ht₁⟩ := call_returns h.1 t
    obtain ⟨t', ht'⟩ := ih h.2 t₁
    exact ⟨t', by rw [runCalls_cons, ht₁]; exact ht'⟩

/-! ## What holds in a session -/

/-- The system after the answers `as`. -/
structure InSession (as : List Answer) (s : System) : Prop where
  files : shellMachine.Reach (s.shell.recolor .white)
  prompts : ∃ ps, promptMachine.Run ShellHistory.boot ps (as.map Answer.line) s.history
  terminal : terminalMachine.Reach s.term
  counted : s.totalCommandsRun = i32 (commandLines (as.map Answer.line)).length
  dir : ∀ c ∈ str s.shell.currentDir.bytes, IsPrintable c

variable {s s' : System} {as : List Answer} {e : Round} {a : Answer}

theorem InSession.inv (h : InSession as s) : ShellInv s.shell :=
  have hinv := shell_reach_inv h.files
  ⟨hinv.table, hinv.dir⟩

theorem InSession.absolute (h : InSession as s) :
    (str s.shell.currentDir.bytes).headD 0 = ch '/' :=
  have habs := shell_reach_absolute h.files
  habs

theorem InSession.history (h : InSession as s) : SessionInv (as.map Answer.line) s.history :=
  have ⟨_, hps⟩ := h.prompts
  run_sessionInv hps

/-- The terminal is only called. -/
theorem terminal_kept : KeptByCalls terminalMachine.Reach := by
  intro fuel t call ht
  refine ⟨fun t' ht' => ht.step (e := (fuel, call)) (o := ()) trivial ?_, False.elim⟩
  show (call.run fuel t).map _ = _
  rw [ht']
  rfl

/-- A line that is read is the ideal editor's. -/
theorem InSession.line_typed (h : InSession as s) {h' : ShellHistory} {p : Prompt}
    {r : LineRead inputMax} (hs : readCommand s.history p = some (r, h')) :
    ∃ ks, str r.buf.bytes = (IdealEditor.typed 255 s.history.entries ks).line.text := by
  obtain ⟨r₀, hr₀, _⟩ := Option.bind_eq_some_iff.mp hs
  obtain ⟨ks, enter, rest, hkeys, hks, henter⟩ := shellReadline_split hr₀
  obtain ⟨r₁, h₁, hread, hline, _⟩ :=
    readCommand_spec h.history.printable h.history.keeps hkeys hks henter
  rw [hs] at hread
  cases hread
  exact ⟨ks, hline⟩

theorem InSession.line_printable (h : InSession as s) {h' : ShellHistory} {p : Prompt}
    {r : LineRead inputMax} (hs : readCommand s.history p = some (r, h')) :
    ∀ c ∈ str r.buf.bytes, IsPrintable c := by
  obtain ⟨ks, hline⟩ := h.line_typed hs
  rw [hline]
  exact IdealEditor.typed_printable h.history.printable.entries ks

/-- `commandLines` of one line. -/
theorem commandLines_singleton (line : LineRead inputMax) :
    (commandLines [line]).length = if BlankLine line then 0 else 1 := by
  have hblank := blankLine_iff line
  unfold commandLines
  rw [List.map_singleton, List.filter_singleton]
  by_cases h : BlankLine line
  · rw [if_pos h, hblank.mp h]
    rfl
  · rw [if_neg h, decide_eq_true (mt hblank.mpr h)]
    rfl

/-- **A round** keeps a session a session. -/
theorem InSession.round (h : InSession as s) (hs : s.round e = some (a, s')) :
    InSession (as ++ [a]) s' := by
  obtain ⟨history, term, hentered, hcase⟩ := round_cases hs
  have hprompt := (runCalls_keeps terminal_kept h.terminal _).correct _ hentered.prompt
  have hread := (readCommand_keeps terminal_kept hprompt).correct _ hentered.line
  have hline := h.line_printable hentered.line
  have hframe : s'.history = history ∧ terminalMachine.Reach s'.term ∧
      s'.totalCommandsRun = if BlankLine a.line then s.totalCommandsRun
        else i32 (s.totalCommandsRun + 1) := by
    rcases hcase with ⟨hblank, _, rfl⟩ | ⟨command, arg, r, hc⟩
    · exact ⟨rfl, hread, (if_pos hblank).symm⟩
    · obtain ⟨cmd, _, hrun⟩ := hc.run
      have hsame := runCommand_frame hrun
      refine ⟨?_, ?_, ?_⟩
      · rw [hc.left]
        exact hsame.history
      · refine (runCalls_keeps terminal_kept ?_ _).correct _ hc.shown
        rw [hsame.term]
        exact hread
      · rw [if_neg hc.notBlank, hc.left]
        exact hsame.totalCommandsRun
  obtain ⟨hhistory, hterm, hcount⟩ := hframe
  obtain ⟨ps, hps⟩ := h.prompts
  have hfiles : shellMachine.Reach (s'.shell.recolor .white) ∧
      ∀ c ∈ str s'.shell.currentDir.bytes, IsPrintable c := by
    cases hcall : fileCall a.line with
    | none =>
      have hsame := round_other hs hcall
      have hdir : s'.shell.currentDir = s.shell.currentDir := by
        have := congrArg Shell.currentDir hsame
        exact this
      rw [hsame, hdir]
      exact ⟨h.files, h.dir⟩
    | some call =>
      obtain ⟨hlen, harg, r, hr, hshell, _⟩ := round_file hs hcall
      obtain ⟨r', hr', hwhite⟩ := run_white hr
      rw [hshell, ← hwhite]
      exact ⟨shell_reach_run h.files hlen hr',
        run_dir_printable h.inv h.absolute h.dir (fun c hc => hline c (harg hc)) hr⟩
  refine ⟨hfiles.1, ⟨ps ++ [⟨e.fuel, s.inputBuf, term, e.keys⟩], ?_⟩, hterm, ?_, hfiles.2⟩
  · rw [List.map_append, hhistory]
    exact hps.append (Machine.Run.single trivial hentered.line)
  · rw [hcount, List.map_append, List.map_singleton, commandLines_append, List.length_append,
      commandLines_singleton, h.counted]
    by_cases hblank : BlankLine a.line
    · rw [if_pos hblank, if_pos hblank]
      rfl
    · rw [if_neg hblank, if_neg hblank]
      apply i32_congr
      have := i32_emod (commandLines (as.map Answer.line)).length
      push_cast
      omega

variable {s₀ : System} {es : List Round}

theorem InSession.init (h : systemMachine.init s₀) : InSession [] s₀ := by
  obtain ⟨vga, S, m, table, fuel, term, htable, hterm, rfl⟩ := h
  have hzero : (0 : Int) = i32 0 := by decide
  refine ⟨Machine.Reach.init ⟨table, htable, rfl⟩, ⟨[], Machine.Run.nil _⟩, ?_, hzero, ?_⟩
  · obtain ⟨calls, hcalls⟩ : ∃ calls, bootCalls = .init :: calls := by
      simp only [bootCalls, List.append_assoc, List.cons_append, List.cons.injEq, true_and,
        exists_eq']
    rw [hcalls, runCalls_cons] at hterm
    obtain ⟨t, ht, hterm⟩ := Option.bind_eq_some_iff.mp hterm
    cases ht
    exact (runCalls_keeps terminal_kept (Machine.Reach.init ⟨vga, rfl⟩) calls).correct _ hterm
  · show ∀ c ∈ str bootDir.bytes, IsPrintable c
    rw [bootDir_str]
    exact forall_of_all (by decide)

theorem session_inSession (h₀ : systemMachine.init s₀) (hr : systemMachine.Run s₀ es as s) :
    InSession as s :=
  hr.trace (I := InSession) (fun _ _ _ _ _ h _ hs => h.round hs) (InSession.init h₀)

/-! ## A command that is typed -/

/-- The line of a command. -/
theorem runLine_command {line : LineRead inputMax} {command : Option Command} {arg : List UInt8}
    (hblank : ¬ BlankLine line) (hcmd : commandLine line.buf.bytes = some (command, arg)) :
    ∃ cmd, str cmd = (firstWord ((str line.buf.bytes).dropWhile isSpace)).take 63 ∧
      s.runLine e line =
        (runCommand e.fuel e.ticks s.counted command cmd arg line.keys).bind fun r =>
          (runCalls e.fuel r.sys.term r.out).map fun term =>
            (⟨line, r.keys⟩, { r.sys with term := term }) := by
  obtain ⟨cmd, arg', hsplit, hword, _⟩ := splitCommand_spec (skipSpaces line.buf.bytes)
  rw [str_skipSpaces] at hword
  unfold commandLine at hcmd
  rw [hsplit] at hcmd
  cases hcmd
  have hnot : ¬ (skipSpaces line.buf.bytes).headD 0 = 0 := hblank
  refine ⟨cmd.bytes, hword, ?_⟩
  unfold System.runLine
  simp only [if_neg hnot, hsplit, Option.bind_eq_bind, Option.bind_some, Option.map_eq_bind,
    Function.comp_def]
  rfl

/-- The prompt shows no tab. -/
theorem InSession.prompt_plain (h : InSession as s) : ch '\t' ∉ printedText (printPrompt s.shell) := by
  have hdir : ch '\t' ∉ str s.shell.currentDir.bytes := fun hc => absurd (h.dir _ hc) (by decide)
  have hshown : printedText (printPrompt s.shell) =
      text "minios:" ++ str s.shell.currentDir.bytes ++ text "> " := by
    simp only [printPrompt, printedText_append, printedText_say (zero_not_mem_str _),
      printedText_say (show 0 ∉ text "minios:" by decide),
      printedText_say (show 0 ∉ text "> " by decide)]
    simp [printedText, TerminalCall.bytes]
  rw [hshown]
  simp only [List.mem_append, not_or]
  exact ⟨⟨by decide, hdir⟩, by decide⟩

/-- Once the prompt is shown and a line is read, the round does what the line asks for. -/
theorem round_line {term : Terminal} {line : LineRead inputMax} {history : ShellHistory}
    (hprompt : runCalls e.fuel s.term (printPrompt s.shell) = some term)
    (hread : readCommand s.history ⟨e.fuel, s.inputBuf, term, e.keys⟩ = some (line, history)) :
    s.round e = (s.entered history line).runLine e line := by
  unfold System.round
  rw [hprompt]
  simp only [Option.bind_eq_bind, Option.bind_some, hread]
  rfl

/-- The keys up to Enter edit and recall a line; unless it is blank, the round runs what the line
asks for, with the keys behind Enter. -/
theorem InSession.typed (hs : InSession as s)
    {ks rest : List UInt8} {enter : UInt8} (hkeys : e.keys = ks ++ enter :: rest)
    (hks : ∀ c ∈ ks, ¬ IsEnter c) (henter : IsEnter enter) {l : List UInt8}
    (hline : (IdealEditor.typed 255 (recent historyMax (commandLines (as.map Answer.line))) ks).line.text =
      l) (hl : l.dropWhile isSpace ≠ []) :
    ∃ line history command cmd arg, str line.buf.bytes = l ∧
      SessionInv (as.map Answer.line ++ [line]) history ∧
      commandLine line.buf.bytes = some (command, arg) ∧
      str cmd = (firstWord (l.dropWhile isSpace)).take 63 ∧
      s.round e =
        (runCommand e.fuel e.ticks (s.entered history line).counted command cmd arg rest).bind fun r =>
          (runCalls e.fuel r.sys.term r.out).map fun term =>
            (⟨line, r.keys⟩, { r.sys with term := term }) := by
  obtain ⟨hprintable, hkeeps⟩ := hs.history
  rw [← hkeeps.lines, ← entries_eq_lines hkeeps.terminated] at hline
  -- the prompt comes back, and so does the line
  obtain ⟨term, hterm⟩ : ∃ term, runCalls e.fuel s.term (printPrompt s.shell) = some term :=
    runCalls_returns hs.prompt_plain s.term
  obtain ⟨line, history, hread, htext, hrest, _⟩ := readCommand_spec hprintable hkeeps
    (p := ⟨e.fuel, s.inputBuf, term, e.keys⟩) hkeys hks henter
  have hnext := readCommand_inv hs.history hread
  rw [hline] at htext
  have hblank : ¬ BlankLine line := by
    rw [blankLine_iff, htext]
    exact hl
  obtain ⟨command, arg, hcmd, _⟩ := commandLine_spec line.buf.bytes
  have hround := round_line hterm hread
  obtain ⟨cmd, hword, hrun⟩ := runLine_command (s := s.entered history line) (e := e) hblank hcmd
  rw [hrun, hrest] at hround
  rw [htext] at hword
  exact ⟨line, history, command, cmd, arg, htext, hnext, hcmd, hword, hround⟩

/-- The same for a line that names a command. -/
theorem InSession.typed_name (hs : InSession as s)
    {ks rest : List UInt8} {enter : UInt8} (hkeys : e.keys = ks ++ enter :: rest)
    (hks : ∀ c ∈ ks, ¬ IsEnter c) (henter : IsEnter enter) {name tail : List UInt8} {c : Command}
    (hname : (name, c) ∈ commandTable) (htail : tail.headD (ch ' ') = ch ' ')
    (hline : (IdealEditor.typed 255 (recent historyMax (commandLines (as.map Answer.line))) ks).line.text =
      name ++ tail) :
    ∃ line history cmd arg, str line.buf.bytes = name ++ tail ∧ str arg = tail.dropWhile isSpace ∧
      SessionInv (as.map Answer.line ++ [line]) history ∧
      s.round e =
        (runCommand e.fuel e.ticks (s.entered history line).counted (some c) cmd arg rest).bind fun r =>
          (runCalls e.fuel r.sys.term r.out).map fun term =>
            (⟨line, r.keys⟩, { r.sys with term := term }) := by
  have hl : (name ++ tail).dropWhile isSpace ≠ [] := by
    obtain ⟨hne, _⟩ := name_plain hname
    rw [dropWhile_name hname]
    simp [hne]
  obtain ⟨line, history, command, cmd, arg, htext, hnext, hcmd, _, hround⟩ :=
    hs.typed hkeys hks henter hline hl
  obtain ⟨_, arg', hcmd', harg⟩ := commandLine_typed hname htail htext
  rw [hcmd] at hcmd'
  cases hcmd'
  exact ⟨line, history, cmd, arg, htext, harg, hnext, hround⟩

/-- The same for a filesystem command. -/
theorem InSession.typed_file (hs : InSession as s)
    {ks rest : List UInt8} {enter : UInt8} (hkeys : e.keys = ks ++ enter :: rest)
    (hks : ∀ c ∈ ks, ¬ IsEnter c) (henter : IsEnter enter) {name tail : List UInt8} {c : Command}
    {k : ShellCmd} (hname : (name, c) ∈ commandTable) (hk : c.file = some k)
    (htail : tail.headD (ch ' ') = ch ' ')
    (hline : (IdealEditor.typed 255 (recent historyMax (commandLines (as.map Answer.line))) ks).line.text =
      name ++ tail) :
    ∃ arg, str arg = tail.dropWhile isSpace ∧
      (∀ r, ShellCall.run s.shell ⟨k, arg, rest⟩ = some r → ch '\t' ∉ printedText r.out →
        ∃ a s', s.round e = some (a, s')) ∧
      ∀ a s', s.round e = some (a, s') → str a.line.buf.bytes = name ++ tail ∧
        ∃ r, ShellCall.run s.shell ⟨k, arg, rest⟩ = some r ∧ s'.shell = r.val ∧ a.keys = r.keys := by
  obtain ⟨line, history, cmd, arg, htext, harg, _, hround⟩ :=
    hs.typed_name hkeys hks henter hname htail hline
  rw [runCommand_file hk] at hround
  refine ⟨arg, harg, ?_, ?_⟩
  · intro r hrun htab
    have hrun' : ShellCall.run (s.entered history line).counted.shell ⟨k, arg, rest⟩ = some r := hrun
    obtain ⟨term, hterm⟩ : ∃ t, runCalls e.fuel (s.entered history line).counted.term r.out = some t :=
      runCalls_returns htab _
    rw [hrun', Option.map_some, Option.bind_some, hterm] at hround
    exact ⟨_, _, hround⟩
  · intro a s' hs'
    rw [hround] at hs'
    obtain ⟨ran, hran, hs'⟩ := Option.bind_eq_some_iff.mp hs'
    obtain ⟨r, hrun, rfl⟩ := Option.map_eq_some_iff.mp hran
    obtain ⟨term, _, h⟩ := Option.map_eq_some_iff.mp hs'
    cases h
    exact ⟨htext, r, hrun, rfl, rfl⟩

/-- **A command that is typed.**  In any session the keys up to Enter, which edit and recall a
line, run the command it names with what stands behind the blanks; the round comes back if the
command does and shows no tab, and leaves what the command leaves. -/
theorem typed_command (h₀ : systemMachine.init s₀) (hr : systemMachine.Run s₀ es as s)
    {ks rest : List UInt8} {enter : UInt8} (hkeys : e.keys = ks ++ enter :: rest)
    (hks : ∀ c ∈ ks, ¬ IsEnter c) (henter : IsEnter enter) {name tail : List UInt8} {c : Command}
    {k : ShellCmd} (hname : (name, c) ∈ commandTable) (hk : c.file = some k)
    (htail : tail.headD (ch ' ') = ch ' ')
    (hline : (IdealEditor.typed 255 (recent historyMax (commandLines (as.map Answer.line))) ks).line.text =
      name ++ tail) :
    ∃ arg, str arg = tail.dropWhile isSpace ∧
      (∀ r, ShellCall.run s.shell ⟨k, arg, rest⟩ = some r → ch '\t' ∉ printedText r.out →
        ∃ a s', s.round e = some (a, s')) ∧
      ∀ a s', s.round e = some (a, s') → str a.line.buf.bytes = name ++ tail ∧
        ∃ r, ShellCall.run s.shell ⟨k, arg, rest⟩ = some r ∧ s'.shell = r.val ∧ a.keys = r.keys :=
  (session_inSession h₀ hr).typed_file hkeys hks henter hname hk htail hline

/-- `kernel_main` gets to the shell. -/
theorem boot_session : ∃ s₀, systemMachine.init s₀ ∧
    str s₀.shell.currentDir.bytes = text "/root" ∧ fsMap s₀.shell.table = rootMap := by
  obtain ⟨table, htable, _, hmap⟩ := fsInit_spec
  have hplain : ch '\t' ∉ printedText bootCalls := by decide +kernel
  obtain ⟨term, hterm⟩ : ∃ term, runCalls 0 (Terminal.boot fun _ => 0) bootCalls = some term :=
    runCalls_returns hplain _
  let S : HeapStorage := ⟨2 ^ 20, by decide, by decide, by decide⟩
  exact ⟨_, ⟨_, S, ⟨fun _ => 0, []⟩, table, 0, term, htable, hterm, rfl⟩, bootDir_str, hmap⟩

/-- The keys of `mkd docs`, with a slip that is taken back and a letter that is put in later. -/
def mkdDocsKeys : List UInt8 := text "mkx" ++ [8] ++ text "d dos" ++ [keyLeftArrow, ch 'c']

/-- They are typed at the first prompt. -/
def mkdDocs : Round := ⟨0, 0, mkdDocsKeys ++ [ch '\r']⟩

theorem mkdDocs_line :
    (IdealEditor.typed 255 (recent historyMax (commandLines ([].map Answer.line)))
      mkdDocsKeys).line.text = text "mkd" ++ text " docs" := by decide

/-- What the command does as the shell boots. -/
theorem mkdDocs_run (h : InSession [] s) (hdir : str s.shell.currentDir.bytes = text "/root")
    (hmap : fsMap s.shell.table = rootMap) {arg : List UInt8} (harg : str arg = text "docs") :
    ∃ r, ShellCall.run s.shell ⟨.mkd, arg, []⟩ = some r ∧ ch '\t' ∉ printedText r.out ∧
      (fsMap r.val.table).lookup (text "/root/docs") = some .dir := by
  have hpath : s.shell.path arg = text "/root/docs" := by
    unfold Shell.path
    rw [hdir, harg]
    decide
  have hcreatable : Creatable (fsMap s.shell.table) (text "/root/docs") := by
    rw [hmap]
    refine ⟨by decide, by decide, by decide, by decide⟩
  obtain ⟨t, hrun, _, hmap'⟩ := cmdMkd_creates h.inv.table (by rw [harg]; decide)
    (.inr (by rw [hdir]; decide)) hpath hcreatable
  refine ⟨_, congrArg (Option.map _) hrun, ?_, ?_⟩
  · show ch '\t' ∉ printedText (say (text "Directory created: " ++ text "/root/docs" ++ text "\n"))
    decide +kernel
  · show (fsMap t).lookup _ = _
    rw [hmap', Finmap.lookup_insert]

/-- The round makes `/root/docs`. -/
theorem typed_command_mkd : ∃ s₀ a s', systemMachine.init s₀ ∧ s₀.round mkdDocs = some (a, s') ∧
    (fsMap s'.shell.table).lookup (text "/root/docs") = some .dir := by
  obtain ⟨s₀, h₀, hdir, hmap⟩ := boot_session
  have hname : (text "mkd", Command.mkd) ∈ commandTable := by decide
  obtain ⟨arg, harg, hback, hleft⟩ := typed_command h₀ (Machine.Run.nil s₀) (e := mkdDocs) rfl
    (forall_of_all (by decide)) (by decide) hname rfl (by decide) mkdDocs_line
  obtain ⟨r, hrun, htab, hmade⟩ := mkdDocs_run (InSession.init h₀) hdir hmap harg
  obtain ⟨a, s', hs'⟩ := hback r hrun htab
  obtain ⟨_, r', hrun', hshell, _⟩ := hleft a s' hs'
  rw [hrun] at hrun'
  cases hrun'
  exact ⟨s₀, a, s', h₀, hs', by rw [hshell]; exact hmade⟩

/-! ## A command from the keyboard -/

theorem IsPrintable.typeable {c : UInt8} (h : IsPrintable c) : Typeable c :=
  (typeable_iff c).mpr (.inr h)

theorem IsPrintable.not_enter {c : UInt8} (h : IsPrintable c) : ¬ IsEnter c := by
  rintro (rfl | rfl)
  · exact absurd h.1 (by decide)
  · exact absurd h.1 (by decide)

/-- **A command from the keyboard.**  Scan codes that come while a command is typed, and what its
program reads behind Enter, with keys going up and the reader anywhere in between: the round with
what the reader gets runs the command with its argument. -/
theorem keyboard_command (h₀ : systemMachine.init s₀) (hr : systemMachine.Run s₀ es as s)
    {k k' : KeyboardState} {kes : List KeyboardEvent} {kos : List KeyboardOutput}
    (hk : keyboardMachine.Reach k) (hkr : keyboardMachine.Run k kes kos k')
    (he0 : k.dev.e0Mode = false) (hshift : k.dev.shiftHeld = false) (hold : k.dev.ring.pending = [])
    {name tail rest : List UInt8} {c : Command} {cmd : ShellCmd} (hname : (name, c) ∈ commandTable)
    (hcmd : c.file = some cmd) (htail : tail.headD (ch ' ') = ch ' ')
    (hplain : ∀ c ∈ tail, IsPrintable c) (hrest : ∀ c ∈ rest, Typeable c)
    (hroom : (name ++ tail ++ ch '\r' :: rest).length ≤ 255) {key : ShiftKey}
    (ht : Types k.dev.capslockOn key (name ++ tail ++ ch '\r' :: rest) (scancodes kes))
    (hkeys : e.keys = returned kos ++ k'.dev.ring.pending) :
    ∃ arg, str arg = tail.dropWhile isSpace ∧
      (∀ r, ShellCall.run s.shell ⟨cmd, arg, rest⟩ = some r → ch '\t' ∉ printedText r.out →
        ∃ a s', s.round e = some (a, s')) ∧
      ∀ a s', s.round e = some (a, s') →
        ∃ r, ShellCall.run s.shell ⟨cmd, arg, rest⟩ = some r ∧ s'.shell = r.val ∧ a.keys = r.keys := by
  have hline : ∀ c ∈ name ++ tail, IsPrintable c := fun c hc =>
    (List.mem_append.mp hc).elim (fun hc => ((name_plain hname).2.2 c hc).1) (hplain c)
  have hl : ∀ c ∈ name ++ tail ++ ch '\r' :: rest, Typeable c := by
    intro c hc
    rcases List.mem_append.mp hc with hc | hc
    · exact (hline c hc).typeable
    rcases List.mem_cons.mp hc with rfl | hc
    · decide
    · exact hrest c hc
  -- the reader gets the text
  obtain ⟨os, hi⟩ := reach_fifoInv hk
  obtain ⟨_, _, harrives⟩ := hi.types hkr he0 hshift hl ht
  have hgot := harrives (by rw [hold]; exact Nat.le_trans (Nat.le_of_eq (Nat.zero_add _)) hroom)
  rw [hold, List.nil_append, ← hkeys] at hgot
  -- so that the round edits the line that was typed
  have hlen : (name ++ tail).length ≤ 255 := by
    rw [List.length_append] at hroom
    omega
  have htyped : (IdealEditor.typed 255 (recent historyMax (commandLines (as.map Answer.line)))
      (name ++ tail)).line.text = name ++ tail := by
    rw [IdealEditor.typed_plain hline hlen, Line.text_atEnd]
  obtain ⟨arg, harg, hback, hleft⟩ := (session_inSession h₀ hr).typed_file hgot.symm
    (fun c hc => (hline c hc).not_enter) (.inr rfl) hname hcmd htail htyped
  exact ⟨arg, harg, hback, fun a s' hs' => (hleft a s' hs').2⟩

/-- `mkd docs` and Enter on the keyboard make `/root/docs`. -/
theorem keyboard_command_mkd : ∃ s₀ kes kos k' e a s', systemMachine.init s₀ ∧
    keyboardMachine.Run ⟨Keyboard.boot, .idle⟩ kes kos k' ∧
    e.keys = returned kos ++ k'.dev.ring.pending ∧ s₀.round e = some (a, s') ∧
    (fsMap s'.shell.table).lookup (text "/root/docs") = some .dir := by
  obtain ⟨s₀, h₀, hdir, hmap⟩ := boot_session
  let codes := (text "mkd" ++ text " docs" ++ ch '\r' :: []).flatMap (strokes false .left)
  obtain ⟨kos, k', hkr, _⟩ := irqs_run boot_fifoInv codes
  let e : Round := ⟨0, 0, returned kos ++ k'.dev.ring.pending⟩
  have hname : (text "mkd", Command.mkd) ∈ commandTable := by decide
  have ht : Types false .left (text "mkd" ++ text " docs" ++ ch '\r' :: [])
      (scancodes (codes.map .irq)) := by
    rw [scancodes_irqs]
    unfold Types
    decide
  obtain ⟨arg, harg, hback, hleft⟩ := keyboard_command h₀ (Machine.Run.nil s₀) (e := e)
    (Machine.Reach.init rfl) hkr rfl rfl rfl hname rfl (by decide) (forall_of_all (by decide))
    (List.forall_mem_nil _) (by decide) ht rfl
  obtain ⟨r, hrun, htab, hmade⟩ := mkdDocs_run (InSession.init h₀) hdir hmap harg
  obtain ⟨a, s', hs'⟩ := hback r hrun htab
  obtain ⟨r', hrun', hshell, _⟩ := hleft a s' hs'
  rw [hrun] at hrun'
  cases hrun'
  exact ⟨s₀, _, kos, k', e, a, s', h₀, hkr, rfl, hs', by rw [hshell]; exact hmade⟩

/-! ## A session -/

/-- **A session** does to the files what the filesystem commands typed in it do, one after the
other; its prompts are prompts of one history, and it works on a terminal that is only called. -/
theorem session_refines (h₀ : systemMachine.init s₀) (hr : systemMachine.Run s₀ es as s) :
    (∃ os, shellMachine.Run s₀.shell (as.filterMap fun a => fileCall a.line) os
        (s.shell.recolor .white)) ∧
      (∃ ps, promptMachine.Run ShellHistory.boot ps (as.map Answer.line) s.history) ∧
      terminalMachine.Reach s.term ∧
      s.totalCommandsRun = i32 (commandLines (as.map Answer.line)).length := by
  have hs := session_inSession h₀ hr
  refine ⟨?_, hs.prompts, hs.terminal, hs.counted⟩
  obtain ⟨_, _, _, table, _, _, _, _, rfl⟩ := h₀
  let R (s : System) (sh : Shell) := sh = s.shell.recolor .white
  have hnone : ∀ s sh e a s', R s sh → systemMachine.legal s e → s.round e = some (a, s') →
      fileCall a.line = none → R s' sh := by
    rintro s _ e a s' rfl _ hs hcall
    exact (round_other hs hcall).symm
  have hsome : ∀ s sh e a s' call, R s sh → systemMachine.legal s e → s.round e = some (a, s') →
      fileCall a.line = some call → shellMachine.legal sh call ∧
        ∃ o sh', shellMachine.step sh call = some (o, sh') ∧ R s' sh' := by
    rintro s _ e a s' call rfl _ hs hcall
    obtain ⟨hlen, _, r, hrun, hshell, _⟩ := round_file hs hcall
    obtain ⟨r', hr', hwhite⟩ := run_white hrun
    refine ⟨hlen, (r'.out, r'.keys), r'.val, ?_, hwhite.trans (by rw [hshell])⟩
    show (call.run _).map _ = _
    rw [hr']
    rfl
  obtain ⟨os, sh, hrun, rfl⟩ := hr.project (N := shellMachine) hnone hsome (t := bootShell table) rfl
  exact ⟨os, hrun⟩

/-- `mkd docs`, typed and edited, is the command `mkd`. -/
theorem session_refines_mkd : ∃ s₀ a s' os, systemMachine.init s₀ ∧
    s₀.round mkdDocs = some (a, s') ∧
    shellMachine.Run s₀.shell ([a].filterMap fun a => fileCall a.line) os (s'.shell.recolor .white) := by
  obtain ⟨s₀, h₀, hdir, hmap⟩ := boot_session
  have hs := InSession.init h₀
  have hname : (text "mkd", Command.mkd) ∈ commandTable := by decide
  obtain ⟨arg, harg, hback, _⟩ := hs.typed_file (e := mkdDocs) rfl (forall_of_all (by decide))
    (by decide) hname rfl (by decide) mkdDocs_line
  obtain ⟨r, hrun, htab, _⟩ := mkdDocs_run hs hdir hmap harg
  obtain ⟨a, s', hs'⟩ := hback r hrun htab
  have hlegal : systemMachine.legal s₀ mkdDocs := by
    obtain ⟨_, _, _, _, _, _, _, _, rfl⟩ := h₀
    rfl
  obtain ⟨⟨os, hfiles⟩, _⟩ := session_refines h₀ (Machine.Run.single hlegal hs')
  exact ⟨s₀, a, s', os, h₀, hs', hfiles⟩

end MiniOS
