import MiniOS.Lib.TextLines
import MiniOS.Shell.Sessions

/-!
# What a session is told about itself

What a line leads to, and what is said where it names no command
(`line_dispatched`).  `history` and `sysinfo` print the state of the shell; in a
session that state is what was typed, and what they print has no tabs, so that they
come back (`history_shows`, `sysinfo_shows`).
-/

namespace MiniOS

open Lib

variable {s₀ s s' : System} {es : List Round} {as : List Answer} {e : Round} {a : Answer}

/-! ## The texts -/

/-- `"  [%d] %s\n"`. -/
def historyLine (i : Nat) (l : List UInt8) : List UInt8 :=
  text "  [" ++ decimal i ++ text "] " ++ l ++ text "\n"

/-- What `history` shows. -/
theorem cmdShowHistory_shows (h : ShellHistory) :
    printedText (cmdShowHistory h) = text "\nCommand History:\n" ++ numbered historyLine 1 h.lines := by
  have hrow : ∀ i : Fin historyMax, printedText (if i.val < h.historyCount then
      say (text "  [" ++ itoa (i.val + 1) ++ text "] " ++ str (h.shellHistory i).bytes ++ text "\n")
      else []) = if i.val < h.historyCount then historyLine (1 + i.val) (h.strings i) else [] := by
    intro i
    split
    · have hnum : itoa (i.val + 1) = decimal (1 + i.val) := by
        rw [Nat.add_comm 1, ← itoa_natCast (Nat.lt_of_le_of_lt (Nat.succ_le_of_lt i.isLt) (by decide))]
        rfl
      have h0 : 0 ∉ text "  [" ++ decimal (1 + i.val) ++ text "] " ++ str (h.shellHistory i).bytes ++
          text "\n" := by
        simp only [List.mem_append, not_or]
        exact ⟨⟨⟨⟨by decide, zero_notMem_decimal _⟩, by decide⟩, zero_not_mem_str _⟩, by decide⟩
      rw [hnum, printedText_say h0]
      rfl
    · rfl
  unfold cmdShowHistory
  rw [printedText_append, printedText_say (by decide)]
  unfold printedText at hrow ⊢
  rw [List.flatMap_assoc]
  simp only [hrow]
  rw [flatMap_rows_in_use]
  rfl

/-- What `sysinfo` shows. -/
theorem cmdSysinfo_shows (sh : Shell) (ticks : UInt32) (n : Int) :
    printedText (cmdSysinfo sh ticks n) =
      text "\n  ================================\n" ++ text "  MiniOS v1.0 - by Ahmed Ali\n" ++
        text "  ================================\n" ++
      (text "  Files stored: " ++ decimal (fsGetTotalFiles sh.table) ++ text "\n") ++
      (text "  Uptime      : " ++ clock (timerGetUptimeSeconds ticks) ++ text "\n") ++
      (text "  Commands run: " ++ itoa n ++ text "\n") ++
        text "  ================================\n" := by
  have hcolor : ∀ fg bg, printedText [.setcolor fg bg] = [] := fun _ _ => rfl
  have hfiles : itoa (fsGetTotalFiles sh.table) = decimal (fsGetTotalFiles sh.table) :=
    itoa_natCast (Nat.lt_of_le_of_lt (fsGetTotalFiles_le _) (by decide))
  have hclock : 0 ∉ clock (timerGetUptimeSeconds ticks) := by
    obtain ⟨h, m, s, hclock, hh, hm, hs, _⟩ := clock_reads (timerGetUptimeSeconds ticks)
    have hdigits : ∀ {ds : List UInt8}, AllDigits ds → 0 ∉ ds := fun hds h0 =>
      absurd (hds 0 h0).1 (by decide)
    rw [hclock]
    simp only [List.mem_append, not_or]
    exact ⟨⟨⟨⟨hdigits hh, by decide⟩, hdigits hm⟩, by decide⟩, hdigits hs⟩
  have hfield : ∀ {s u v : List UInt8}, 0 ∉ s → 0 ∉ u → 0 ∉ v →
      printedText (say (s ++ u ++ v)) = s ++ u ++ v := by
    intro s u v hs hu hv
    apply printedText_say
    simp only [List.mem_append, not_or]
    exact ⟨⟨hs, hu⟩, hv⟩
  unfold cmdSysinfo
  rw [hfiles]
  simp only [printedText_append, hcolor]
  rw [hfield (by decide) (zero_notMem_decimal _) (by decide), hfield (by decide) hclock (by decide),
    hfield (by decide) (zero_notMem_itoa _) (by decide), printedText_say (by decide),
    printedText_say (by decide), printedText_say (by decide)]
  simp only [List.append_assoc, List.nil_append, List.append_nil]

/-- What the last branch shows. -/
theorem unknownCommand_shows (sh : Shell) (cmd : List UInt8) :
    printedText (unknownCommand sh cmd) = text "\nUnknown command: '" ++ str cmd ++
      text "'\nType 'cmds' for a list of commands.\n" := by
  have hcolor : ∀ fg bg, printedText [.setcolor fg bg] = [] := fun _ _ => rfl
  have h0 : 0 ∉ text "\nUnknown command: '" ++ str cmd ++ text "'\n" := by
    simp only [List.mem_append, not_or]
    exact ⟨⟨by decide, zero_not_mem_str _⟩, by decide⟩
  have htype : text "'\nType 'cmds' for a list of commands.\n" =
      text "'\n" ++ text "Type 'cmds' for a list of commands.\n" := by decide
  unfold unknownCommand
  rw [htype]
  simp only [printedText_append, hcolor]
  rw [printedText_say h0, printedText_say (by decide)]
  simp only [List.append_assoc, List.nil_append, List.append_nil]

/-! ## A line -/

/-- A round that has read its line comes back if its command and what it shows do. -/
theorem runLine_iff {line : LineRead inputMax} (hblank : ¬ BlankLine line)
    {command : Option Command} {arg : List UInt8}
    (hcmd : commandLine line.buf.bytes = some (command, arg)) :
    ∃ cmd, str cmd = (firstWord ((str line.buf.bytes).dropWhile isSpace)).take 63 ∧
      ∀ a s', s.runLine e line = some (a, s') ↔
        ∃ r, runCommand e.fuel e.ticks s.counted command cmd arg line.keys = some r ∧
          runCalls e.fuel s.term r.out = some s'.term ∧ s' = { r.sys with term := s'.term } ∧
            a = ⟨line, r.keys⟩ := by
  obtain ⟨cmd, hword, hrun⟩ := runLine_command (s := s) (e := e) hblank hcmd
  refine ⟨cmd, hword, fun a s' => ?_⟩
  rw [hrun]
  constructor
  · intro h
    obtain ⟨r, hr, h⟩ := Option.bind_eq_some_iff.mp h
    obtain ⟨term, hshown, h⟩ := Option.map_eq_some_iff.mp h
    rw [(runCommand_frame hr).term] at hshown
    cases h
    exact ⟨r, hr, hshown, rfl, rfl⟩
  · rintro ⟨r, hr, hshown, hleft, rfl⟩
    rw [hr, Option.bind_some, (runCommand_frame hr).term]
    show (runCalls e.fuel s.term r.out).map _ = _
    rw [hshown, Option.map_some, ← hleft]

/-- **The line of a round.**  In any state, once the prompt is shown, a line that is read and is not
blank runs the command that is named by its first word, however long that is, with what stands
behind the blanks, and the round comes back exactly if the command and what it shows do; if no
command is named, it leaves the files, the list, the colour and the keys and says so with the first
63 characters. -/
theorem line_dispatched {term : Terminal} {line : LineRead inputMax} {history : ShellHistory}
    (hprompt : runCalls e.fuel s.term (printPrompt s.shell) = some term)
    (hread : readCommand s.history ⟨e.fuel, s.inputBuf, term, e.keys⟩ = some (line, history))
    (hl : (str line.buf.bytes).dropWhile isSpace ≠ []) :
    let l := (str line.buf.bytes).dropWhile isSpace
    let before := (s.entered history line).counted
    (∀ c, (firstWord l, c) ∈ commandTable → ∃ cmd arg, str arg = behindWord l ∧
        ∀ a s', s.round e = some (a, s') ↔
          ∃ r, runCommand e.fuel e.ticks before (some c) cmd arg line.keys = some r ∧
            runCalls e.fuel before.term r.out = some s'.term ∧ s' = { r.sys with term := s'.term } ∧
              a = ⟨line, r.keys⟩) ∧
      ((∀ c, (firstWord l, c) ∉ commandTable) → ∃ cmd,
        (∀ a s', s.round e = some (a, s') ↔
          runCalls e.fuel before.term (unknownCommand before.shell cmd) = some s'.term ∧
            s' = { before with term := s'.term } ∧ a = ⟨line, line.keys⟩) ∧
          printedText (unknownCommand before.shell cmd) = text "\nUnknown command: '" ++
            (firstWord l).take 63 ++ text "'\nType 'cmds' for a list of commands.\n") := by
  obtain ⟨command, arg, hcmd, hiff, harg⟩ := commandLine_spec line.buf.bytes
  obtain ⟨cmd, hword, hback⟩ := runLine_iff (s := s.entered history line) (e := e)
    (mt (blankLine_iff line).mp hl) hcmd
  refine ⟨fun c hname => ?_, fun hunknown => ?_⟩
  · obtain rfl := (hiff c).mpr hname
    refine ⟨cmd, arg, harg, fun a s' => ?_⟩
    rw [round_line hprompt hread]
    exact hback a s'
  · obtain rfl : command = none := Option.eq_none_iff_forall_ne_some.mpr fun c h =>
      hunknown c ((hiff c).mp h)
    refine ⟨cmd, fun a s' => ?_, ?_⟩
    · rw [round_line hprompt hread, hback]
      constructor
      · rintro ⟨r, hr, hrest⟩
        cases hr
        exact hrest
      · exact fun h => ⟨_, rfl, h⟩
    · rw [unknownCommand_shows, hword]

/-- A word of 70 characters at the first prompt. -/
theorem line_dispatched_long : ∃ s₀ a s' cmd, systemMachine.init s₀ ∧
    s₀.round ⟨0, 0, List.replicate 70 (ch 'x') ++ [ch '\r']⟩ = some (a, s') ∧
      runCalls 0 a.line.term (unknownCommand s₀.shell cmd) = some s'.term ∧
        printedText (unknownCommand s₀.shell cmd) = text "\nUnknown command: '" ++
          List.replicate 63 (ch 'x') ++ text "'\nType 'cmds' for a list of commands.\n" := by
  obtain ⟨s₀, h₀, _⟩ := boot_session
  have hin := InSession.init h₀
  let l := List.replicate 70 (ch 'x')
  let e : Round := ⟨0, 0, l ++ [ch '\r']⟩
  have hprintable : ∀ c ∈ l, IsPrintable c := forall_of_all (by decide)
  -- the prompt comes back, and so does the line
  obtain ⟨term, hprompt⟩ : ∃ t, runCalls e.fuel s₀.term (printPrompt s₀.shell) = some t :=
    runCalls_returns hin.prompt_plain _
  obtain ⟨hp, hk⟩ := hin.history
  obtain ⟨line, history, hread, hline, _⟩ := readCommand_spec hp hk
    (p := ⟨e.fuel, s₀.inputBuf, term, e.keys⟩) rfl (fun c hc => (hprintable c hc).not_enter) (.inr rfl)
  rw [IdealEditor.typed_plain hprintable (by decide), Line.text_atEnd] at hline
  have hl : (str line.buf.bytes).dropWhile isSpace = l := by
    rw [hline]
    decide
  obtain ⟨_, hrest⟩ := line_dispatched hprompt hread (by rw [hl]; decide)
  have hunknown : ∀ e ∈ commandTable, e.1 ≠ firstWord l := by decide
  obtain ⟨cmd, hback, hshown⟩ := hrest fun c h => hunknown _ (hl ▸ h) rfl
  rw [hl] at hshown
  have htab : ch '\t' ∉ printedText (unknownCommand s₀.shell cmd) := by
    rw [show printedText (unknownCommand s₀.shell cmd) = _ from hshown]
    decide +kernel
  obtain ⟨t, ht⟩ : ∃ t, runCalls 0 line.term (unknownCommand s₀.shell cmd) = some t :=
    runCalls_returns htab _
  have hs := (hback ⟨line, line.keys⟩ { (s₀.entered history line).counted with term := t }).mpr
    ⟨ht, rfl, rfl⟩
  exact ⟨s₀, _, _, cmd, h₀, hs, ht, hshown⟩

/-! ## In a session -/

/-- A command that only shows `out`, without a tab, comes back when it is typed. -/
theorem InSession.typed_shows (hs : InSession as s) {ks rest : List UInt8} {enter : UInt8}
    (hkeys : e.keys = ks ++ enter :: rest) (hks : ∀ c ∈ ks, ¬ IsEnter c) (henter : IsEnter enter)
    {name tail : List UInt8} {c : Command} (hname : (name, c) ∈ commandTable)
    (htail : tail.headD (ch ' ') = ch ' ')
    (hline : (IdealEditor.typed 255 (recent historyMax (commandLines (as.map Answer.line))) ks).line.text =
      name ++ tail) (out : System → List TerminalCall)
    (hrun : ∀ s cmd arg, runCommand e.fuel e.ticks s (some c) cmd arg rest = some ⟨s, out s, rest⟩)
    (hplain : ∀ line history, SessionInv (as.map Answer.line ++ [line]) history →
      ch '\t' ∉ printedText (out (s.entered history line).counted)) :
    ∃ line history t, str line.buf.bytes = name ++ tail ∧
      SessionInv (as.map Answer.line ++ [line]) history ∧
      runCalls e.fuel line.term (out (s.entered history line).counted) = some t ∧
      s.round e = some (⟨line, rest⟩, { (s.entered history line).counted with term := t }) := by
  obtain ⟨line, history, cmd, arg, htext, _, hinv, hround⟩ :=
    hs.typed_name hkeys hks henter hname htail hline
  let before := (s.entered history line).counted
  obtain ⟨t, ht⟩ : ∃ t, runCalls e.fuel line.term (out before) = some t :=
    runCalls_returns (hplain line history hinv) _
  refine ⟨line, history, t, htext, hinv, ht, ?_⟩
  rw [hround, hrun, Option.bind_some]
  show (runCalls e.fuel line.term (out before)).map _ = _
  rw [ht]
  rfl

theorem notMem_numbered {x : UInt8} {f : Nat → List UInt8 → List UInt8} {ls : List (List UInt8)}
    (h : ∀ l ∈ ls, ∀ i, x ∉ f i l) (k : Nat) : x ∉ numbered f k ls := by
  induction ls generalizing k with
  | nil => exact List.not_mem_nil
  | cons l ls ih =>
    obtain ⟨hl, hls⟩ := List.forall_mem_cons.mp h
    rw [numbered_cons, List.mem_append, not_or]
    exact ⟨hl k, ih hls (k + 1)⟩

/-- The lines of a session show no tab. -/
theorem showHistory_plain {h : ShellHistory} (hp : h.AllPrintable) (ht : h.Terminated) :
    ch '\t' ∉ printedText (cmdShowHistory h) := by
  rw [cmdShowHistory_shows, List.mem_append, not_or, ← entries_eq_lines ht]
  refine ⟨by decide, notMem_numbered (fun l hl i => ?_) 1⟩
  have hline : ch '\t' ∉ l := fun hc => absurd (hp.entries l hl _ hc) (by decide)
  have hnum : ch '\t' ∉ decimal i := fun hc => absurd (decimal_digits i _ hc).1 (by decide)
  unfold historyLine
  simp only [List.mem_append, not_or]
  exact ⟨⟨⟨⟨by decide, hnum⟩, by decide⟩, hline⟩, by decide⟩

/-- **`history`**, typed and edited at a prompt, comes back and shows the last ten command lines of
the session, this one included. -/
theorem history_shows (h₀ : systemMachine.init s₀) (hr : systemMachine.Run s₀ es as s)
    {ks rest : List UInt8} {enter : UInt8} (hkeys : e.keys = ks ++ enter :: rest)
    (hks : ∀ c ∈ ks, ¬ IsEnter c) (henter : IsEnter enter) {tail : List UInt8}
    (htail : tail.headD (ch ' ') = ch ' ')
    (hline : (IdealEditor.typed 255 (recent historyMax (commandLines (as.map Answer.line))) ks).line.text =
      text "history" ++ tail) :
    ∃ a s', s.round e = some (a, s') ∧ str a.line.buf.bytes = text "history" ++ tail ∧
      runCalls e.fuel a.line.term (cmdShowHistory s'.history) = some s'.term ∧
      printedText (cmdShowHistory s'.history) = text "\nCommand History:\n" ++
        numbered historyLine 1 (recent historyMax (commandLines ((as ++ [a]).map Answer.line))) := by
  have hname : (text "history", Command.history) ∈ commandTable := by decide
  obtain ⟨line, history, t, htext, hinv, ht, hs⟩ := (session_inSession h₀ hr).typed_shows hkeys hks
    henter hname htail hline (fun s => cmdShowHistory s.history) (fun _ _ _ => rfl)
    (fun _ _ hinv => showHistory_plain hinv.printable hinv.keeps.terminated)
  refine ⟨_, _, hs, htext, ht, ?_⟩
  rw [List.map_append]
  exact (cmdShowHistory_shows history).trans (by rw [hinv.keeps.lines]; rfl)

/-- `history`, recalled with the up arrow after it was typed. -/
theorem history_shows_again : ∃ s₀ e₁ a₁ s₁ e₂ a₂ s₂, systemMachine.init s₀ ∧
    s₀.round e₁ = some (a₁, s₁) ∧ s₁.round e₂ = some (a₂, s₂) ∧
      runCalls 0 a₂.line.term (cmdShowHistory s₂.history) = some s₂.term ∧
        printedText (cmdShowHistory s₂.history) =
          text "\nCommand History:\n  [1] history\n  [2] history\n" := by
  obtain ⟨s₀, h₀, _⟩ := boot_session
  let e₁ : Round := ⟨0, 0, text "history" ++ [ch '\r']⟩
  let e₂ : Round := ⟨0, 0, [keyUpArrow] ++ [ch '\r']⟩
  have hlisting : text "\nCommand History:\n" ++
      numbered historyLine 1 [text "history", text "history"] =
        text "\nCommand History:\n  [1] history\n  [2] history\n" := by decide +kernel
  have hprintable : ∀ c ∈ text "history", IsPrintable c := forall_of_all (by decide)
  have htail : ([] : List UInt8).headD (ch ' ') = ch ' ' := rfl
  have hlines : ∀ line : LineRead inputMax, str line.buf.bytes = text "history" ++ [] →
      commandLines [line] = [text "history"] := by
    intro line hline
    unfold commandLines
    rw [List.map_singleton, hline]
    decide
  have hfirst : (IdealEditor.typed 255 (recent historyMax (commandLines ([].map Answer.line)))
      (text "history")).line.text = text "history" ++ [] := by
    rw [IdealEditor.typed_plain hprintable (by decide), Line.text_atEnd, List.append_nil]
  obtain ⟨a₁, s₁, hs₁, hline₁, _⟩ := history_shows h₀ (Machine.Run.nil s₀) (e := e₁) rfl
    (fun c hc => (hprintable c hc).not_enter) (.inr rfl) htail hfirst
  have hlegal : systemMachine.legal s₀ e₁ := by
    obtain ⟨_, _, _, _, _, _, _, _, rfl⟩ := h₀
    rfl
  have hpast : commandLines ([a₁].map Answer.line) = [text "history"] := hlines a₁.line hline₁
  have hagain : (IdealEditor.typed 255 (recent historyMax (commandLines ([a₁].map Answer.line)))
      [keyUpArrow]).line.text = text "history" ++ [] := by
    rw [hpast]
    decide
  obtain ⟨a₂, s₂, hs₂, hline₂, hback, hshown⟩ := history_shows h₀ (Machine.Run.single hlegal hs₁)
    (e := e₂) rfl (forall_of_all (by decide)) (.inr rfl) htail hagain
  refine ⟨s₀, e₁, a₁, s₁, e₂, a₂, s₂, h₀, hs₁, hs₂, hback, ?_⟩
  have hall : commandLines (([a₁] ++ [a₂]).map Answer.line) = [text "history", text "history"] := by
    rw [List.map_append, commandLines_append, hpast]
    exact congrArg _ (hlines a₂.line hline₂)
  rw [hshown, hall]
  exact hlisting


/-- Nor does the state of a session. -/
theorem sysinfo_plain (sh : Shell) (ticks : UInt32) (n : Int) :
    ch '\t' ∉ printedText (cmdSysinfo sh ticks n) := by
  obtain ⟨h, m, sec, hclock, hh, hm, hsec, _⟩ := clock_reads (timerGetUptimeSeconds ticks)
  have hdigits : ∀ {ds : List UInt8}, AllDigits ds → ch '\t' ∉ ds := fun hds hc =>
    absurd (hds _ hc).1 (by decide)
  have hdecimal : ∀ k, ch '\t' ∉ decimal k := fun k hc => absurd (decimal_digits k _ hc).1 (by decide)
  have hint : ch '\t' ∉ itoa n := by
    unfold itoa
    split
    · exact List.not_mem_cons_of_ne_of_not_mem (by decide) (hdecimal _)
    · exact hdecimal _
  rw [cmdSysinfo_shows, hclock]
  simp only [List.mem_append, not_or]
  exact ⟨⟨⟨⟨⟨⟨by decide, by decide⟩, by decide⟩, ⟨by decide, hdecimal _⟩, by decide⟩,
    ⟨by decide, ⟨⟨⟨hdigits hh, by decide⟩, hdigits hm⟩, by decide⟩, hdigits hsec⟩, by decide⟩,
    ⟨by decide, hint⟩, by decide⟩, by decide⟩

/-- **`sysinfo`**, typed and edited at a prompt, comes back and counts the files and directories
there are, the seconds since power-on, and the command lines of the session. -/
theorem sysinfo_shows (h₀ : systemMachine.init s₀) (hr : systemMachine.Run s₀ es as s)
    {ks rest : List UInt8} {enter : UInt8} (hkeys : e.keys = ks ++ enter :: rest)
    (hks : ∀ c ∈ ks, ¬ IsEnter c) (henter : IsEnter enter) {tail : List UInt8}
    (htail : tail.headD (ch ' ') = ch ' ')
    (hline : (IdealEditor.typed 255 (recent historyMax (commandLines (as.map Answer.line))) ks).line.text =
      text "sysinfo" ++ tail) :
    ∃ a s' h m sec, s.round e = some (a, s') ∧ str a.line.buf.bytes = text "sysinfo" ++ tail ∧
      runCalls e.fuel a.line.term (cmdSysinfo s'.shell e.ticks s'.totalCommandsRun) = some s'.term ∧
      (AllDigits h ∧ AllDigits m ∧ AllDigits sec ∧ m.length = 2 ∧ sec.length = 2 ∧
        numeralDigits 0 m < 60 ∧ numeralDigits 0 sec < 60 ∧
          numeralDigits 0 h * 3600 + numeralDigits 0 m * 60 + numeralDigits 0 sec =
            (e.ticks / 100).toNat) ∧
      printedText (cmdSysinfo s'.shell e.ticks s'.totalCommandsRun) =
        text "\n  ================================\n" ++
        text "  MiniOS v1.0 - by Ahmed Ali\n" ++ text "  ================================\n" ++
        (text "  Files stored: " ++ decimal (fsMap s'.shell.table).keys.card ++ text "\n") ++
        (text "  Uptime      : " ++ (h ++ text ":" ++ m ++ text ":" ++ sec) ++ text "\n") ++
        (text "  Commands run: " ++
          itoa (i32 (commandLines ((as ++ [a]).map Answer.line)).length) ++ text "\n") ++
        text "  ================================\n" := by
  have hin := session_inSession h₀ hr
  have hname : (text "sysinfo", Command.sysinfo) ∈ commandTable := by decide
  obtain ⟨line, history, t, htext, _, ht, hs⟩ := hin.typed_shows hkeys hks henter hname htail hline
    (fun s => cmdSysinfo s.shell e.ticks s.totalCommandsRun) (fun _ _ _ => rfl)
    (fun _ _ _ => sysinfo_plain _ _ _)
  have hnext := hin.round hs
  obtain ⟨h, m, sec, hclock, hreads⟩ := clock_reads (timerGetUptimeSeconds e.ticks)
  refine ⟨_, _, h, m, sec, hs, htext, ht, hreads, ?_⟩
  rw [cmdSysinfo_shows, hclock, hnext.counted, fsGetTotalFiles_eq hnext.inv.table]

/-- At the first prompt, typed with a slip. -/
theorem sysinfo_shows_first : ∃ s₀ a s', systemMachine.init s₀ ∧
    s₀.round ⟨0, 0, text "sysinfx" ++ [8] ++ text "o" ++ [ch '\r']⟩ = some (a, s') ∧
      runCalls 0 a.line.term (cmdSysinfo s'.shell 0 s'.totalCommandsRun) = some s'.term ∧
        text "  Commands run: 1\n  ================================\n" <:+
          printedText (cmdSysinfo s'.shell 0 s'.totalCommandsRun) := by
  obtain ⟨s₀, h₀, _⟩ := boot_session
  have htyped : (IdealEditor.typed 255 (recent historyMax (commandLines ([].map Answer.line)))
      (text "sysinfx" ++ [8] ++ text "o")).line.text = text "sysinfo" ++ [] := by decide
  obtain ⟨a, s', _, _, _, hs, hline, hback, _, hshown⟩ := sysinfo_shows h₀ (Machine.Run.nil s₀)
    (e := ⟨0, 0, text "sysinfx" ++ [8] ++ text "o" ++ [ch '\r']⟩) rfl (forall_of_all (by decide))
    (.inr rfl) rfl htyped
  have hcount : (commandLines (([] ++ [a]).map Answer.line)).length = 1 := by
    show (commandLines [a.line]).length = 1
    unfold commandLines
    rw [List.map_singleton, hline]
    decide
  refine ⟨s₀, a, s', h₀, hs, hback, ?_⟩
  rw [hshown, hcount, List.append_assoc]
  have hend : text "  Commands run: " ++ itoa (i32 ((1 : Nat) : Int)) ++ text "\n" ++
      text "  ================================\n" =
        text "  Commands run: 1\n  ================================\n" := by decide +kernel
  rw [hend]
  exact List.suffix_append _ _

end MiniOS
