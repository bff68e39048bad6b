import MiniOS.Lib.Recent
import MiniOS.Shell.LineRefinement

/-!
# The history of a session

The first `history_count` rows of `shell_history` are the last ten command
lines, the oldest first (`addToHistory_spec` for one line).  `k` times Up puts
the `k`-th of them from the end into the line (`typed_ups`), so Enter gives it
back: `history_recalled`.
-/

namespace MiniOS

open Lib

/-- The strings in the rows. -/
def ShellHistory.strings (h : ShellHistory) (i : Fin historyMax) : List UInt8 :=
  str (h.shellHistory i).bytes

/-- `shell_history[0]` to `shell_history[history_count - 1]`. -/
def ShellHistory.lines (h : ShellHistory) : List (List UInt8) :=
  (List.ofFn h.strings).take h.historyCount

def ShellHistory.Terminated (h : ShellHistory) : Prop := ∀ i, (h.strings i).length < inputMax

/-- The command lines among the lines read, without their leading blanks. -/
def commandLines (rs : List (LineRead inputMax)) : List (List UInt8) :=
  (rs.map fun r => (str r.buf.bytes).dropWhile isSpace).filter (· ≠ [])

/-! ## One more line -/

section

variable {m : Nat}

/-- The strings after a row is set. -/
theorem strings_update (rows : Fin m → Chars inputMax) (j : Fin m) (row : Chars inputMax) :
    (fun i => str (Function.update rows j row i).bytes) =
      Function.update (fun i => str (rows i).bytes) j (str row.bytes) := by
  ext1 i
  by_cases hij : i = j
  · rw [hij, Function.update_self, Function.update_self]
  · rw [Function.update_of_ne hij, Function.update_of_ne hij]

theorem update_fits {L : Fin m → List UInt8} (hL : ∀ i, (L i).length < inputMax) (j : Fin m)
    {x : List UInt8} (hx : x.length < inputMax) (i : Fin m) :
    (Function.update L j x i).length < inputMax := by
  by_cases hij : i = j
  · rw [hij, Function.update_self]
    exact hx
  · rw [Function.update_of_ne hij]
    exact hL i

end

variable {h h' : ShellHistory}

/-- Ten rows moved down. -/
theorem dropOldest_spec (rows : Fin (9 + 1) → Chars inputMax)
    (hrows : ∀ i, (str (rows i).bytes).length < inputMax) :
    ∃ rows' : Fin (9 + 1) → Chars inputMax, dropOldest rows = some rows' ∧
      (fun i => str (rows' i).bytes) =
        Fin.snoc (Fin.tail fun i => str (rows i).bytes) (str (rows (Fin.last 9)).bytes) := by
  have hfold : Yields True (dropOldest rows) fun rows' : Fin (9 + 1) → Chars inputMax =>
      (fun i => str (rows' i).bytes) = (List.finRange 9).foldl
        (fun rows i => Function.update rows i.castSucc (rows i.succ)) (fun i => str (rows i).bytes) ∧
      ∀ i, (str (rows' i).bytes).length < inputMax := by
    refine Yields.foldlM (R := fun (rows : Fin (9 + 1) → Chars inputMax) L =>
      (fun i => str (rows i).bytes) = L ∧ ∀ i, (str (rows i).bytes).length < inputMax) ?_
      (List.finRange 9) ⟨rfl, hrows⟩
    rintro rows L i ⟨rfl, hlen⟩
    obtain ⟨row, hcopy, hstr⟩ := strcpy_spec (rows i.castSucc) (rows i.succ).bytes (hlen i.succ)
    have hs := strings_update rows i.castSucc row
    rw [hstr] at hs
    refine Yields.bind_eq hcopy (.some ⟨hs, fun j => ?_⟩)
    exact lt_of_eq_of_lt (congrArg List.length (congrFun hs j)) (update_fits hlen _ (hlen _) j)
  obtain ⟨rows', hr⟩ := hfold.returns trivial
  refine ⟨rows', hr, ?_⟩
  rw [(hfold.correct rows' hr).1]
  exact foldl_shift _

theorem take_str_fits (line : List UInt8) : ((str line).take 255).length < inputMax := by
  have : inputMax = 256 := rfl
  rw [List.length_take]
  omega

/-- While there is room, the line is stored behind the others. -/
theorem addToHistory_room (ht : h.Terminated) (line : List UInt8)
    (hc : h.historyCount < historyMax) :
    ∃ h', addToHistory h line = some h' ∧ h'.Terminated ∧
      h'.historyCount = h.historyCount + 1 ∧ h'.lines = h.lines ++ [(str line).take 255] := by
  obtain ⟨row, hrow, hstr⟩ := copyLine_spec (h.shellHistory ⟨h.historyCount, hc⟩) line
  have hs := strings_update h.shellHistory ⟨h.historyCount, hc⟩ row
  rw [hstr] at hs
  unfold addToHistory
  rw [dif_pos hc, hrow]
  refine ⟨_, rfl, ?_, rfl, ?_⟩
  · intro i
    exact lt_of_eq_of_lt (congrArg List.length (congrFun hs i))
      (update_fits ht _ (take_str_fits line) i)
  · unfold ShellHistory.lines ShellHistory.strings
    rw [hs]
    exact take_ofFn_update _ hc _

/-- Once the table is full, the oldest line makes room. -/
theorem addToHistory_full (ht : h.Terminated) (line : List UInt8)
    (hten : h.historyCount = historyMax) :
    ∃ h', addToHistory h line = some h' ∧ h'.Terminated ∧
      h'.historyCount = historyMax ∧ h'.lines = h.lines.tail ++ [(str line).take 255] := by
  obtain ⟨rows, hrows, hmoved⟩ := dropOldest_spec h.shellHistory ht
  obtain ⟨row, hrow, hstr⟩ := copyLine_spec (rows (Fin.last 9)) line
  have hs := strings_update rows (Fin.last 9) row
  rw [hstr, hmoved, Fin.update_snoc_last] at hs
  have hall : ∀ L : Fin (9 + 1) → List UInt8, (List.ofFn L).take historyMax = List.ofFn L := by
    intro L
    apply List.take_of_length_le
    rw [List.length_ofFn]
    exact Nat.le_refl _
  unfold addToHistory
  rw [dif_neg (show ¬ h.historyCount < historyMax by omega), hrows]
  show ∃ h', ((copyLine (rows (Fin.last 9)) line).bind fun row => some _) = some h' ∧ _
  rw [hrow]
  refine ⟨_, rfl, ?_, hten, ?_⟩
  · intro i
    refine lt_of_eq_of_lt (congrArg List.length (congrFun hs i)) ?_
    induction i using Fin.lastCases with
    | last =>
      rw [Fin.snoc_last]
      exact take_str_fits line
    | cast i =>
      rw [Fin.snoc_castSucc]
      exact ht i.succ
  · have hlines : h.lines = List.ofFn h.strings := by
      unfold ShellHistory.lines
      rw [hten]
      exact hall _
    rw [hlines]
    show (List.ofFn fun i => str (Function.update rows (Fin.last 9) row i).bytes).take
      h.historyCount = _
    rw [hs, hten, hall]
    exact ofFn_snoc_tail (n := 9) h.strings _

/-- **One line.**  It is put behind the others; the oldest makes room for it. -/
theorem addToHistory_spec (ht : h.Terminated) (line : List UInt8) :
    ∃ h', addToHistory h line = some h' ∧ h'.Terminated ∧
      h'.historyCount = min (h.historyCount + 1) historyMax ∧
      h'.lines = (if h.historyCount < historyMax then h.lines else h.lines.tail) ++
        [(str line).take 255] := by
  by_cases hc : h.historyCount < historyMax
  · obtain ⟨h', hadd, hfits, hcount, hlines⟩ := addToHistory_room ht line hc
    exact ⟨h', hadd, hfits, by omega, by rw [if_pos hc, hlines]⟩
  · have hten : h.historyCount = historyMax := Nat.le_antisymm h.count_le (Nat.le_of_not_lt hc)
    obtain ⟨h', hadd, hfits, hcount, hlines⟩ := addToHistory_full ht line hten
    exact ⟨h', hadd, hfits, by omega, by rw [if_neg hc, hlines]⟩

/-! ## A session -/

/-- The history after the lines `past`. -/
structure ShellHistory.Keeps (h : ShellHistory) (past : List (List UInt8)) : Prop where
  terminated : h.Terminated
  count : h.historyCount = min past.length historyMax
  lines : h.lines = recent historyMax past

theorem ShellHistory.Keeps.add {past : List (List UInt8)} (hk : h.Keeps past) {line : List UInt8}
    (hlen : (str line).length ≤ 255) (ha : addToHistory h line = some h') :
    h'.Keeps (past ++ [str line]) := by
  obtain ⟨h₁, hadd, hterm, hcount, hlines⟩ := addToHistory_spec hk.terminated line
  rw [ha] at hadd
  cases hadd
  rw [hk.count] at hcount hlines
  rw [hk.lines, List.take_of_length_le hlen] at hlines
  refine ⟨hterm, ?_, ?_⟩
  · rw [hcount, List.length_append, List.length_singleton]
    omega
  · rw [hlines]
    by_cases hroom : past.length < historyMax
    · rw [if_pos (by omega), recent_of_le (by omega), recent_of_le]
      rw [List.length_append, List.length_singleton]
      omega
    · rw [if_neg (by omega), recent_concat (by omega) (by decide)]

theorem boot_keeps : ShellHistory.boot.Keeps [] := by
  refine ⟨fun i => ?_, rfl, rfl⟩
  show (str (List.replicate 256 0)).length < 256
  rw [List.replicate_succ, str_zero]
  decide

/-- The rows hold the strings whole. -/
theorem entries_eq_lines (ht : h.Terminated) : h.entries = h.lines := by
  unfold ShellHistory.entries ShellHistory.lines
  rw [List.map_take, List.map_ofFn]
  congr 2
  ext1 i
  exact List.take_of_length_le (Nat.le_of_lt_succ (ht i))

/-- A line that is typed fits into the buffer. -/
theorem typed_length (ht : h.TabFree) (ks : List UInt8) :
    (IdealEditor.typed 255 h.entries ks).line.text.length < inputMax := by
  have hafter := lineAfter_edits 0 h (Chars.fill inputMax 0) (Terminal.boot fun _ => 0) ks
  obtain ⟨e, he⟩ := hafter.returns ht
  exact (hafter.correct e he).holds.length_lt

/-- **A prompt.**  A line is read, and kept unless it is blank. -/
theorem readCommand_spec (hp : h.AllPrintable) {past : List (List UInt8)} (hk : h.Keeps past)
    {p : Prompt} {ks rest : List UInt8} {enter : UInt8} (hkeys : p.keys = ks ++ enter :: rest)
    (hks : ∀ c ∈ ks, ¬IsEnter c) (henter : IsEnter enter) :
    ∃ r h', readCommand h p = some (r, h') ∧
      str r.buf.bytes = (IdealEditor.typed 255 h.entries ks).line.text ∧ r.keys = rest ∧
      h'.Keeps (past ++ commandLines [r]) := by
  have hread := shellReadline_edits p.fuel h p.inputBuf p.term hks henter rest
  obtain ⟨r, hr⟩ := hread.returns hp.tabFree
  obtain ⟨hline, hrest⟩ := hread.correct r hr
  have hlen : (str (skipSpaces r.buf.bytes)).length ≤ 255 := by
    have hlt : (str r.buf.bytes).length < 256 := hline ▸ typed_length hp.tabFree ks
    rw [str_skipSpaces]
    have := (List.dropWhile_sublist isSpace (l := str r.buf.bytes)).length_le
    omega
  unfold readCommand
  rw [hkeys, hr]
  by_cases hblank : (skipSpaces r.buf.bytes).headD 0 = 0
  · refine ⟨r, h, if_pos hblank, hline, hrest, ?_⟩
    have hnone : commandLines [r] = [] := by
      rw [← str_eq_nil_iff, str_skipSpaces] at hblank
      unfold commandLines
      rw [List.map_singleton, hblank]
      rfl
    rw [hnone, List.append_nil]
    exact hk
  · obtain ⟨h', hadd, _⟩ := addToHistory_spec hk.terminated (skipSpaces r.buf.bytes)
    refine ⟨r, h', ?_, hline, hrest, ?_⟩
    · show (if _ then _ else (addToHistory h _).bind fun h => some (r, h)) = _
      rw [if_neg hblank, hadd]
      rfl
    · have hone : commandLines [r] = [str (skipSpaces r.buf.bytes)] := by
        rw [← str_eq_nil_iff] at hblank
        unfold commandLines
        rw [List.map_singleton, ← str_skipSpaces, List.filter_singleton, decide_eq_true hblank]
        rfl
      rw [hone]
      exact hk.add hlen hadd

theorem commandLines_append (rs rs' : List (LineRead inputMax)) :
    commandLines (rs ++ rs') = commandLines rs ++ commandLines rs' := by
  unfold commandLines
  rw [List.map_append, List.filter_append]

/-- The history after the answers `rs`. -/
structure SessionInv (rs : List (LineRead inputMax)) (h : ShellHistory) : Prop where
  printable : h.AllPrintable
  keeps : h.Keeps (commandLines rs)

theorem readCommand_inv {rs : List (LineRead inputMax)} {p : Prompt} {r : LineRead inputMax}
    (hi : SessionInv rs h) (hs : readCommand h p = some (r, h')) : SessionInv (rs ++ [r]) h' := by
  refine ⟨readCommand_printable hi.printable hs, ?_⟩
  obtain ⟨r₀, hr₀, _⟩ := Option.bind_eq_some_iff.mp hs
  obtain ⟨ks, enter, rest, hkeys, hks, henter⟩ := shellReadline_split hr₀
  obtain ⟨r₁, h₁, hread, _, _, hkeeps⟩ := readCommand_spec hi.printable hi.keeps hkeys hks henter
  rw [hs] at hread
  cases hread
  rw [commandLines_append]
  exact hkeeps

/-- **Any number of prompts.** -/
theorem run_sessionInv {ps : List Prompt} {rs : List (LineRead inputMax)}
    (hrun : promptMachine.Run ShellHistory.boot ps rs h) : SessionInv rs h := by
  have hboot : SessionInv [] ShellHistory.boot :=
    ⟨reach_allPrintable (Machine.Reach.init rfl), boot_keeps⟩
  exact hrun.trace (fun _ _ _ _ _ hi _ hs => readCommand_inv hi hs) hboot

/-! ## Recalling a line -/

namespace IdealEditor

variable {cap : Nat} {entries : List (List UInt8)}

/-- What is typed plainly is the line. -/
theorem typed_plain {l : List UInt8} (hl : ∀ c ∈ l, IsPrintable c) (hlen : l.length ≤ cap) :
    typed cap entries l = ⟨Line.atEnd l, entries.length⟩ := by
  induction l using List.reverseRecOn with
  | nil => rfl
  | append_singleton l c ih =>
    rw [List.length_append, List.length_singleton] at hlen
    have hc := hl c (List.mem_append_right _ (List.mem_singleton_self c))
    have hbefore := ih (fun d hd => hl d (List.mem_append_left _ hd)) (by omega)
    unfold typed at hbefore ⊢
    rw [List.foldl_append, hbefore, List.foldl_cons, List.foldl_nil,
      EditKey.ofChar_printable hc, key,
      if_pos (by rw [Line.text_atEnd]; omega)]
    rfl

/-- **Up.**  The line is the entry that many steps back. -/
theorem typed_ups {k : Nat} (hk1 : 1 ≤ k) (hk : k ≤ entries.length) :
    typed cap entries (List.replicate k keyUpArrow) = showEntry entries (entries.length - k) := by
  induction k, hk1 using Nat.le_induction with
  | base =>
    show (if 0 < entries.length then _ else _) = _
    rw [if_pos (by omega)]
  | succ k hk1 ih =>
    have hbefore := ih (by omega)
    unfold typed at hbefore ⊢
    rw [List.replicate_succ', List.foldl_append, hbefore]
    show (if 0 < entries.length - k then showEntry entries (entries.length - k - 1) else _) = _
    rw [if_pos (by omega), Nat.sub_sub]

end IdealEditor

/-- **History.**  The rows of the table are the last ten command lines of the
session, the oldest first; any text may be such a line, and `k` times Up at the
next prompt gives the `k`-th of them from the end. -/
theorem history_recalled {ps : List Prompt} {rs : List (LineRead inputMax)}
    (hrun : promptMachine.Run ShellHistory.boot ps rs h) :
    h.historyCount = min (commandLines rs).length historyMax ∧
      h.lines = recent historyMax (commandLines rs) ∧
      (∀ p l enter rest, (∀ c ∈ l, IsPrintable c) → l.length ≤ 255 → IsEnter enter →
        p.keys = l ++ enter :: rest →
          ∃ r h', readCommand h p = some (r, h') ∧ str r.buf.bytes = l ∧ r.keys = rest) ∧
      ∀ k, 1 ≤ k → k ≤ min (commandLines rs).length historyMax → ∀ p enter rest, IsEnter enter →
        p.keys = List.replicate k keyUpArrow ++ enter :: rest →
          ∃ r h', readCommand h p = some (r, h') ∧ r.keys = rest ∧
            (commandLines rs).reverse[k - 1]? = some (str r.buf.bytes) := by
  obtain ⟨hp, hk⟩ := run_sessionInv hrun
  refine ⟨hk.count, hk.lines, ?_, ?_⟩
  · intro p l enter rest hl hlen henter hkeys
    have hplain : ∀ c ∈ l, ¬IsEnter c := fun c hc =>
      not_or.mpr ⟨(hl c hc).ne_of_lt (by decide), (hl c hc).ne_of_lt (by decide)⟩
    obtain ⟨r, h', hread, hline, hrest, _⟩ := readCommand_spec hp hk hkeys hplain henter
    refine ⟨r, h', hread, ?_, hrest⟩
    rw [hline, IdealEditor.typed_plain hl hlen, Line.text_atEnd]
  · intro k hk1 hkn p enter rest henter hkeys
    have hups : ∀ c ∈ List.replicate k keyUpArrow, ¬IsEnter c := by
      intro c hc
      rw [List.eq_of_mem_replicate hc]
      decide
    have hlen : h.entries.length = min (commandLines rs).length historyMax := by
      rw [h.length_entries, hk.count]
    obtain ⟨r, h', hread, hline, hrest, _⟩ := readCommand_spec hp hk hkeys hups henter
    refine ⟨r, h', hread, hrest, ?_⟩
    have hback := congrArg (fun past => past[k - 1]?) (reverse_recent historyMax (commandLines rs))
    have hlines : h.entries = recent historyMax (commandLines rs) := by
      rw [entries_eq_lines hk.terminated, hk.lines]
    simp only [← hlines] at hback
    rw [List.getElem?_take_of_lt (by omega), List.getElem?_reverse (by omega)] at hback
    rw [hline, IdealEditor.typed_ups hk1 (by omega), ← hback, IdealEditor.showEntry, Line.text_atEnd,
      List.getD_eq_getElem _ _ (by omega),
      show h.entries.length - 1 - (k - 1) = h.entries.length - k by omega]
    exact List.getElem?_eq_getElem _

/-- After `a` and `b`, Up twice gives `a`. -/
theorem history_recalled_ab : ∃ h r h', promptMachine.Reach h ∧
    readCommand h ⟨0, Chars.fill inputMax 0, Terminal.boot fun _ => 0,
      List.replicate 2 keyUpArrow ++ [ch '\r']⟩ = some (r, h') ∧ str r.buf.bytes = text "a" := by
  have htype : ∀ {ps rs h}, promptMachine.Run ShellHistory.boot ps rs h → ∀ l : List UInt8,
      (∀ c ∈ l, IsPrintable c) → l.length ≤ 255 → ∃ p r h',
        promptMachine.Run ShellHistory.boot (ps ++ [p]) (rs ++ [r]) h' ∧ str r.buf.bytes = l := by
    intro ps rs h hrun l hl hlen
    obtain ⟨r, h', hread, hline, _⟩ := (history_recalled hrun).2.2.1
      ⟨0, Chars.fill inputMax 0, Terminal.boot fun _ => 0, l ++ [ch '\r']⟩ l (ch '\r') [] hl hlen
      (by decide) rfl
    exact ⟨_, r, h', hrun.append (Machine.Run.single trivial hread), hline⟩
  obtain ⟨p, r, h, hrun, ha⟩ := htype (Machine.Run.nil _) (text "a") (forall_of_all (by decide))
    (by decide)
  obtain ⟨p', r', h', hrun', hb⟩ := htype hrun (text "b") (forall_of_all (by decide)) (by decide)
  have hlines : commandLines ([] ++ [r] ++ [r']) = [text "a", text "b"] := by
    show [(str r.buf.bytes).dropWhile isSpace, (str r'.buf.bytes).dropWhile isSpace].filter _ = _
    rw [ha, hb]
    decide
  obtain ⟨_, _, _, hup⟩ := history_recalled hrun'
  obtain ⟨r₂, h₂, hread, _, hback⟩ := hup 2 (by decide) (by rw [hlines]; decide)
    ⟨0, Chars.fill inputMax 0, Terminal.boot fun _ => 0, List.replicate 2 keyUpArrow ++ [ch '\r']⟩
    (ch '\r') [] (by decide) rfl
  rw [hlines] at hback
  exact ⟨h', r₂, h₂, ⟨_, _, _, rfl, hrun'⟩, hread, (Option.some.inj hback).symm⟩

end MiniOS
