import MiniOS.Lib.Recent
import MiniOS.Screen.LiveRows

/-!
# The scrolled view

`liveMachine` is the terminal that is never scrolled back, with the rows its
scrolls have pushed off the top.  Of these the terminal keeps the last 200 in
its ring (`HistoryInv`), and what it shows is a window of 24 rows in the history
kept and the live rows below it, `view_scroll` rows above the end
(`scrollback_window`).
-/

namespace MiniOS

open Lib

variable {t t₀ : Terminal} {past : List Row}

/-! ## The history -/

/-- The ring keeps the last 200 of the rows pushed off. -/
structure HistoryInv (t : Terminal) (past : List Row) : Prop where
  ring : Recent historyLines t.historyRow past
  head : t.historyHead = past.length % historyLines
  count : t.historyCount = min historyLines past.length

theorem HistoryInv.of_same {t' : Terminal} (h : HistoryInv t past)
    (hbuf : t'.historyBuf = t.historyBuf) (hhead : t'.historyHead = t.historyHead)
    (hcount : t'.historyCount = t.historyCount) : HistoryInv t' past := by
  refine ⟨?_, by rw [hhead, h.head], by rw [hcount, h.count]⟩
  have hrow : t'.historyRow = t.historyRow := by
    unfold Terminal.historyRow
    rw [hbuf]
  rw [hrow]
  exact h.ring

theorem scroll_history (h : HistoryInv t past) : HistoryInv (scroll t) (past ++ [t.row 0]) := by
  have h200 : historyLines = 200 := rfl
  refine ⟨h.ring.push ?_ ?_, ?_, ?_⟩
  · funext c
    show (if ((past.length % historyLines : Nat) : Int) = t.historyHead ∧ (c : Nat) < vgaCols
      then t.vgaBuf c else _) = t.vgaBuf (0 * vgaCols + c)
    rw [if_pos ⟨by rw [h.head], c.isLt⟩, Nat.zero_mul, Nat.zero_add]
  · intro j hj _
    funext c
    show (if (j : Int) = t.historyHead ∧ (c : Nat) < vgaCols then _ else t.historyBuf j c) = _
    rw [if_neg]
    · rfl
    · rintro ⟨heq, _⟩
      rw [h.head] at heq
      exact hj (Int.ofNat.inj heq)
  · show (t.historyHead + 1) % historyLines = _
    rw [h.head, List.length_append, List.length_singleton, Nat.mod_add_mod]
  · show (if t.historyCount < historyLines then t.historyCount + 1 else t.historyCount) = _
    rw [h.count, List.length_append, List.length_singleton]
    split
    · omega
    · omega

theorem nextLine_history (h : HistoryInv t past) :
    HistoryInv (nextLine t) (past ++ if t.termRow + 1 ≥ vgaRows then [t.row 0] else []) := by
  unfold nextLine
  by_cases hs : t.termRow + 1 ≥ vgaRows
  · simp only [if_pos hs]
    exact scroll_history (t := { t with termCol := 0, termRow := t.termRow + 1 })
      ⟨h.ring, h.head, h.count⟩
  · simp only [if_neg hs, List.append_nil]
    exact ⟨h.ring, h.head, h.count⟩

/-- Row 0 is not the one that is written before a scroll. -/
theorem putPrintable_history (h : HistoryInv t past) (c : UInt8) :
    HistoryInv (putPrintable t c)
      (past ++ if t.termCol + 1 ≥ vgaCols ∧ t.termRow + 1 ≥ vgaRows then [t.row 0] else []) := by
  have hput : ∀ col, HistoryInv { putCell t c with termCol := col } past :=
    fun col => ⟨h.ring, h.head, h.count⟩
  unfold putPrintable
  by_cases hw : t.termCol + 1 ≥ vgaCols
  · rw [if_pos (show (putCell t c).termCol + 1 ≥ vgaCols from hw)]
    by_cases hs : t.termRow + 1 ≥ vgaRows
    · have hrow : (putCell t c).row 0 = t.row 0 := by
        funext x
        have hx := x.isLt
        have h80 : vgaCols = 80 := rfl
        have h24 : vgaRows = 24 := rfl
        show Function.update t.vgaBuf (t.termRow * vgaCols + t.termCol) (makeVgaEntry c t.termColor)
          (0 * vgaCols + x) = t.vgaBuf (0 * vgaCols + x)
        rw [Function.update_of_ne]
        have := Nat.mul_le_mul_right vgaCols (show 1 ≤ t.termRow by omega)
        omega
      have := nextLine_history (hput (t.termCol + 1))
      rw [if_pos ⟨hw, hs⟩, ← hrow]
      rw [if_pos (show (putCell t c).termRow + 1 ≥ vgaRows from hs)] at this
      exact this
    · have := nextLine_history (hput (t.termCol + 1))
      rw [if_neg (fun hn => hs hn.2)]
      rw [if_neg (show ¬ (putCell t c).termRow + 1 ≥ vgaRows from hs)] at this
      exact this
  · rw [if_neg (show ¬ (putCell t c).termCol + 1 ≥ vgaCols from hw), if_neg (fun hn => hw hn.1),
      List.append_nil]
    exact hput (t.termCol + 1)

theorem putBackspace_history (h : HistoryInv t past) : HistoryInv (putBackspace t) past := by
  unfold putBackspace
  split
  · exact ⟨h.ring, h.head, h.count⟩
  · split
    · exact ⟨h.ring, h.head, h.count⟩
    · exact ⟨h.ring, h.head, h.count⟩

theorem leaveScrollback_history (h : HistoryInv t past) : HistoryInv (leaveScrollback t) past := by
  unfold leaveScrollback
  split
  · exact ⟨h.ring, h.head, h.count⟩
  · exact h

theorem scrollUp_history (h : HistoryInv t past) (lines : Int) :
    HistoryInv (terminalScrollUp t lines) past := by
  unfold terminalScrollUp
  simp only
  split <;> split <;> split <;> exact h.of_same rfl rfl rfl

theorem scrollDown_history (h : HistoryInv t past) (lines : Int) :
    HistoryInv (terminalScrollDown t lines) past := by
  unfold terminalScrollDown
  split
  · simp only
    split
    · exact ⟨h.ring, h.head, h.count⟩
    · exact ⟨h.ring, h.head, h.count⟩
  · exact h

/-! ## The window -/

/-- The index of `redraw_scroll` into the ring, for row `r`. -/
def histIdx (t : Terminal) (r : Nat) : Int :=
  (t.historyHead - t.viewScroll + r + historyLines).tmod historyLines

/-- An index of a row above the live ones. -/
theorem histIdx_eq (hv : ViewInv t) (h : HistoryInv t past) {r : Nat} (hr : r < t.viewScroll) :
    histIdx t r = ((past.length % historyLines + historyLines - t.viewScroll.toNat + r) %
      historyLines : Nat) := by
  have hle := hv.le
  have hcount := h.count
  have h200 : historyLines = 200 := rfl
  have hnat : (t.historyHead - t.viewScroll + r + historyLines : Int) =
      ((past.length % historyLines + historyLines - t.viewScroll.toNat + r : Nat) : Int) := by
    rw [h.head]
    omega
  unfold histIdx
  rw [hnat, ← Int.ofNat_tmod]

/-- **The window.**  The screen shows the rows from `view_scroll` above the live ones on. -/
theorem window_row (hv : ViewInv t) (h : HistoryInv t past) (hs : SameLive t t₀) {r : Nat}
    (hr : r < vgaRows) :
    (recent historyLines past ++ t₀.rows)[
      (recent historyLines past).length - t.viewScroll.toNat + r]? = some (t.row r) := by
  have hnn := hv.nonneg
  have hle := hv.le
  have hcount := h.count
  have hlen := length_recent historyLines past
  by_cases hz : t.viewScroll = 0
  · rw [hz, List.getElem?_append_right (by omega)]
    rw [show (recent historyLines past).length - (0 : Int).toNat + r -
        (recent historyLines past).length = r by omega,
      rows_getElem? t₀ hr, ← hs.live r hr, liveRow_of_zero hz]
  · rw [hv.shown (by omega) r hr]
    by_cases hhist : (r : Int) < t.viewScroll
    · rw [List.getElem?_append_left (by omega), h.ring.get (by omega) (by omega)]
      refine congrArg some ?_
      funext c
      unfold redrawCell redrawSource
      rw [if_neg hz, if_pos hhist, ← histIdx, histIdx_eq hv h hhist]
      rfl
    · rw [List.getElem?_append_right (by omega)]
      rw [show (recent historyLines past).length - t.viewScroll.toNat + r -
          (recent historyLines past).length = r - t.viewScroll.toNat by omega]
      rw [rows_getElem? t₀ (by omega), ← hs.live _ (by omega), liveRow_of_ne hz]
      refine congrArg some ?_
      funext c
      unfold redrawCell redrawSource
      rw [if_neg hz, if_neg hhist,
        show ((r - t.viewScroll.toNat : Nat) : Int) = r - t.viewScroll by omega]
      rfl

/-! ## The terminal that is not scrolled back -/

/-- The rows a call pushes off the top, on a terminal that is not scrolled back. -/
def pushed (t : Terminal) : TerminalCall → List Row
  | .putchar c =>
    if (c = ch '\n' ∨ (c ≠ ch '\r' ∧ c ≠ 8 ∧ c ≠ ch '\t' ∧ t.termCol + 1 ≥ vgaCols)) ∧
        t.termRow + 1 ≥ vgaRows then [t.row 0]
    else []
  | _ => []

/-- The terminal without `terminal_scroll_up` and `terminal_scroll_down`, and the rows pushed off
so far. -/
def liveMachine : Machine (Terminal × List Row) (Nat × TerminalCall) Unit where
  init s := ∃ vga, s = (terminalInit (Terminal.boot vga), [])
  legal _ _ := True
  step s e :=
    match e.2 with
    | .scrollUp _ | .scrollDown _ => some ((), s)
    | call => (call.run e.1 s.1).map fun t => ((), (t, s.2 ++ pushed s.1 call))

/-- The calls, with any amounts to scroll by that are not negative. -/
def AnyViewCall (_ : Terminal) (e : Nat × TerminalCall) : Prop :=
  match e.2 with
  | .putchar c => c ≠ ch '\t'
  | .clear | .setcursor _ _ | .setcolor _ _ => True
  | .scrollUp lines | .scrollDown lines => 0 ≤ lines ∧ lines < 2 ^ 31
  | .init | .write _ | .writestring _ | .writecolor _ _ _ => False

/-- And `view_scroll + lines` is an `int`. -/
def ViewCall (t : Terminal) (e : Nat × TerminalCall) : Prop :=
  AnyViewCall t e ∧ ∀ lines, e.2 = .scrollUp lines → t.viewScroll + lines < 2 ^ 31

/-- The terminal follows the one that is not scrolled back. -/
structure Follows (t : Terminal) (s : Terminal × List Row) : Prop where
  same : SameLive t s.1
  unscrolled : s.1.viewScroll = 0
  view : ViewInv t
  history : HistoryInv t s.2

/-- **A character.** -/
theorem putchar_follows {s : Terminal × List Row} (h : Follows t s) {c : UInt8} (hc : c ≠ ch '\t')
    {fuel : Nat} {t' : Terminal} (ht : terminalPutchar fuel t c = some t') :
    ∃ u, terminalPutchar fuel s.1 c = some u ∧ Follows t' (u, s.2 ++ pushed s.1 (.putchar c)) := by
  have hz := leaveScrollback_zero h.view
  have hs := leaveScrollback_same h.view h.same
  have hh := leaveScrollback_history h.history
  have h0 := h.unscrolled
  have hrow0 : (leaveScrollback t).row 0 = s.1.row 0 := by
    rw [← liveRow_of_zero hz, hs.live 0 (by decide)]
  unfold terminalPutchar at ht ⊢
  rw [leaveScrollback_of_le (Int.le_of_eq h0)]
  generalize leaveScrollback t = t₁ at *
  simp only at ht ⊢
  unfold pushed
  by_cases hn : c = ch '\n'
  · simp only [if_pos hn] at ht ⊢
    cases ht
    have hview : (nextLine t₁).viewScroll = 0 := by rw [nextLine_view, hz]
    refine ⟨_, rfl, hs.nextLine hz, by rw [nextLine_view, h0], ViewInv.zero hview, ?_⟩
    have := nextLine_history hh
    rw [hs.row, hrow0] at this
    simp only [hn, true_or, true_and]
    exact this
  · by_cases hr : c = ch '\r'
    · simp only [if_neg hn, if_pos hr] at ht ⊢
      cases ht
      rw [if_neg (fun hp => hp.1.elim hn fun hp => hp.1 hr), List.append_nil]
      exact ⟨_, rfl, ⟨hs.row, rfl, hs.color, hs.live⟩, h0, ViewInv.zero hz,
        ⟨hh.ring, hh.head, hh.count⟩⟩
    · by_cases hb : c = 8
      · simp only [if_neg hn, if_neg hr, if_pos hb] at ht ⊢
        cases ht
        have hview : (putBackspace t₁).viewScroll = 0 := by rw [putBackspace_view, hz]
        rw [if_neg (fun hp => hp.1.elim hn fun hp => hp.2.1 hb), List.append_nil]
        exact ⟨_, rfl, hs.putBackspace hz, by rw [putBackspace_view, h0], ViewInv.zero hview,
          putBackspace_history hh⟩
      · simp only [if_neg hn, if_neg hr, if_neg hb, if_neg hc] at ht ⊢
        cases ht
        have hview : (putPrintable t₁ c).viewScroll = 0 := by rw [putPrintable_view, hz]
        refine ⟨_, rfl, hs.putPrintable hz c, by rw [putPrintable_view, h0], ViewInv.zero hview, ?_⟩
        have := putPrintable_history hh c
        rw [hs.row, hs.col, hrow0] at this
        simp only [hn, hr, hb, hc, false_or, ne_eq, not_false_iff, true_and]
        exact this

/-- **A clear.** -/
theorem clear_follows {s : Terminal × List Row} (h : Follows t s) :
    Follows (terminalClear t) (terminalClear s.1, s.2) := by
  have hz := leaveScrollback_zero h.view
  have hs := leaveScrollback_same h.view h.same
  have hh := leaveScrollback_history h.history
  unfold terminalClear
  rw [leaveScrollback_of_le (Int.le_of_eq h.unscrolled)]
  generalize leaveScrollback t = t₁ at *
  refine ⟨⟨rfl, rfl, hs.color, ?_⟩, h.unscrolled, ViewInv.zero hz, ⟨hh.ring, hh.head, hh.count⟩⟩
  intro r hr
  rw [liveRow_of_zero (by exact hz)]
  funext c
  have hc := c.isLt
  have hin : r * vgaCols + c < vgaRowsMax * vgaCols := (cell_lt_iff hc).mpr (by
    have : vgaRows = 24 := rfl
    have : vgaRowsMax = 25 := rfl
    omega)
  show (if r * vgaCols + c < vgaRowsMax * vgaCols then _ else _) =
    if r * vgaCols + c < vgaRowsMax * vgaCols then _ else _
  rw [if_pos hin, if_pos hin, hs.color]

theorem setcursor_follows {s : Terminal × List Row} (h : Follows t s) (row col : Int) :
    Follows (terminalSetcursor t row col) (terminalSetcursor s.1 row col, s.2) := by
  obtain ⟨⟨hrow, hcol, hcolor, hlive⟩, h0, ⟨hnn, hle, hshown⟩, ⟨hring, hhead, hcount⟩⟩ := h
  unfold terminalSetcursor
  by_cases hr : row ≥ 0 ∧ row < vgaRows
  · by_cases hc : col ≥ 0 ∧ col < vgaCols
    · simp only [if_pos hr, if_pos hc]
      exact ⟨⟨rfl, rfl, hcolor, hlive⟩, h0, ⟨hnn, hle, hshown⟩, ⟨hring, hhead, hcount⟩⟩
    · simp only [if_pos hr, if_neg hc]
      exact ⟨⟨rfl, hcol, hcolor, hlive⟩, h0, ⟨hnn, hle, hshown⟩, ⟨hring, hhead, hcount⟩⟩
  · by_cases hc : col ≥ 0 ∧ col < vgaCols
    · simp only [if_neg hr, if_pos hc]
      exact ⟨⟨hrow, rfl, hcolor, hlive⟩, h0, ⟨hnn, hle, hshown⟩, ⟨hring, hhead, hcount⟩⟩
    · simp only [if_neg hr, if_neg hc]
      exact ⟨⟨hrow, hcol, hcolor, hlive⟩, h0, ⟨hnn, hle, hshown⟩, ⟨hring, hhead, hcount⟩⟩

/-! ## Runs -/

/-- **One call.** -/
theorem viewCall_follows {s : Terminal × List Row} (h : Follows t s) {e : Nat × TerminalCall}
    (hl : ViewCall t e) {o : Unit} {t' : Terminal} (ht : terminalMachine.step t e = some (o, t')) :
    ∃ s', liveMachine.step s e = some (o, s') ∧ Follows t' s' := by
  obtain ⟨fuel, call⟩ := e
  obtain ⟨hany, hint⟩ := hl
  obtain ⟨t₁, hrun, heq⟩ := Option.map_eq_some_iff.mp ht
  cases heq
  have hcount : t.historyCount < 2 ^ 31 := by
    have := h.history.count
    have : historyLines = 200 := rfl
    omega
  cases call with
  | putchar c =>
    obtain ⟨u, hu, hf⟩ := putchar_follows h hany hrun
    refine ⟨_, ?_, hf⟩
    show ((terminalPutchar fuel s.1 c).map _) = _
    rw [hu]
    rfl
  | clear =>
    cases hrun
    refine ⟨(terminalClear s.1, s.2 ++ []), rfl, ?_⟩
    rw [List.append_nil]
    exact clear_follows h
  | setcursor row col =>
    cases hrun
    refine ⟨(terminalSetcursor s.1 row col, s.2 ++ []), rfl, ?_⟩
    rw [List.append_nil]
    exact setcursor_follows h row col
  | setcolor fg bg =>
    cases hrun
    refine ⟨(terminalSetcolor s.1 fg bg, s.2 ++ []), rfl, ?_⟩
    rw [List.append_nil]
    exact ⟨⟨h.same.row, h.same.col, rfl, h.same.live⟩, h.unscrolled,
      ⟨h.view.nonneg, h.view.le, h.view.shown⟩, ⟨h.history.ring, h.history.head, h.history.count⟩⟩
  | scrollUp lines =>
    cases hrun
    exact ⟨s, rfl, scrollUp_same h.view h.same hany.1 (hint lines rfl), h.unscrolled,
      (scrollUp_inv h.view hany.1 (hint lines rfl)).1,
      scrollUp_history h.history lines⟩
  | scrollDown lines =>
    cases hrun
    exact ⟨s, rfl, scrollDown_same h.view h.same hany.1 hany.2 hcount, h.unscrolled,
      (scrollDown_inv h.view hany.1 hany.2 hcount).1, scrollDown_history h.history lines⟩
  | init | write _ | writestring _ | writecolor _ _ _ => exact absurd hany id

/-- A call comes back: only a tab may loop. -/
theorem viewCall_returns {e : Nat × TerminalCall} (h : AnyViewCall t e) :
    ∃ t', e.2.run e.1 t = some t' := by
  obtain ⟨fuel, call⟩ := e
  cases call with
  | putchar c =>
    have hc : c ≠ ch '\t' := h
    show ∃ t', terminalPutchar fuel t c = some t'
    unfold terminalPutchar
    simp only [if_neg hc]
    split
    · exact ⟨_, rfl⟩
    split
    · exact ⟨_, rfl⟩
    split
    · exact ⟨_, rfl⟩
    · exact ⟨_, rfl⟩
  | clear | setcursor _ _ | setcolor _ _ | scrollUp _ | scrollDown _ => exact ⟨_, rfl⟩
  | init | write _ | writestring _ | writecolor _ _ _ => exact absurd h id

theorem init_follows (vga : Nat → UInt16) :
    Follows (terminalInit (Terminal.boot vga)) (terminalInit (Terminal.boot vga), []) := by
  refine ⟨⟨rfl, rfl, rfl, ?_⟩, rfl, ViewInv.zero rfl, ⟨Recent.nil _ _, rfl, rfl⟩⟩
  intro r _
  exact liveRow_of_zero rfl r

/-- **Scrollback.**  After any calls the screen shows, from `view_scroll` rows above the live ones
on, the rows kept of those pushed off and the live rows; the indices into the ring are inside it,
and the test at the start of a character or a clear restores the live rows.  Every further call
comes back. -/
theorem scrollback_window {vga : Nat → UInt16} {es : List (Nat × TerminalCall)} {os : List Unit}
    (hr : (terminalMachine.restrict ViewCall).Run (terminalInit (Terminal.boot vga)) es os t) :
    ∃ t₀ past, liveMachine.Run (terminalInit (Terminal.boot vga), []) es os (t₀, past) ∧
      (0 ≤ t.viewScroll ∧ t.viewScroll ≤ (recent historyLines past).length) ∧
      (∀ r < vgaRows, (recent historyLines past ++ t₀.rows)[
        (recent historyLines past).length - t.viewScroll.toNat + r]? = some (t.row r)) ∧
      (t.historyHead < historyLines ∧
        ∀ r : Nat, r < t.viewScroll → 0 ≤ histIdx t r ∧ histIdx t r < historyLines) ∧
      ((leaveScrollback t).viewScroll = 0 ∧
        ∀ r < vgaRows, (leaveScrollback t).row r = t₀.row r) ∧
      ∀ e, AnyViewCall t e → ∃ t', terminalMachine.step t e = some ((), t') := by
  have hstep : ∀ t s e o t', Follows t s → (terminalMachine.restrict ViewCall).legal t e →
      terminalMachine.step t e = some (o, t') →
        liveMachine.legal s e ∧ ∃ s', liveMachine.step s e = some (o, s') ∧ Follows t' s' := by
    intro t s e o t' h hl hs
    exact ⟨trivial, viewCall_follows h hl.2 hs⟩
  obtain ⟨⟨t₀, past⟩, hlive, hf⟩ := hr.simulate hstep (init_follows vga)
  have h200 : 0 < historyLines := by decide
  refine ⟨t₀, past, hlive, ⟨hf.view.nonneg, ?_⟩, fun r hr => window_row hf.view hf.history hf.same hr,
    ⟨?_, ?_⟩, ⟨leaveScrollback_zero hf.view, ?_⟩, ?_⟩
  · rw [length_recent, ← hf.history.count]
    exact hf.view.le
  · rw [hf.history.head]
    exact Nat.mod_lt _ h200
  · intro r hr
    rw [histIdx_eq hf.view hf.history hr]
    exact ⟨Int.natCast_nonneg _, Int.ofNat_lt.mpr (Nat.mod_lt _ h200)⟩
  · intro r hr
    rw [← liveRow_of_zero (leaveScrollback_zero hf.view)]
    exact (leaveScrollback_same hf.view hf.same).live r hr
  · intro e he
    obtain ⟨t', ht⟩ := viewCall_returns he
    exact ⟨t', congrArg (Option.map fun t => ((), t)) ht⟩

/-- One row pushed off, and the view one row up. -/
def oneRowBack : List (Nat × TerminalCall) :=
  [(0, .setcursor 23 0), (0, .putchar (ch '\n')), (0, .scrollUp 1)]

theorem anyViewCall_oneRowBack (t : Terminal) : ∀ e ∈ oneRowBack, AnyViewCall t e := by
  intro e he
  simp only [oneRowBack, List.mem_cons, List.not_mem_nil, or_false] at he
  rcases he with rfl | rfl | rfl
  · exact trivial
  · show ch '\n' ≠ ch '\t'
    decide
  · show (0 : Int) ≤ 1 ∧ (1 : Int) < 2 ^ 31
    decide

theorem oneRowBack_run (C : Terminal → Nat × TerminalCall → Prop)
    (hC : ∀ t, ∀ e ∈ oneRowBack, t.viewScroll = 0 → C t e) :
    ∃ os t, (terminalMachine.restrict C).Run (terminalInit (Terminal.boot fun _ => 0)) oneRowBack
      os t ∧ t.viewScroll = 1 ∧ t.historyCount = 1 := by
  refine ⟨_, _, Machine.Run.cons ⟨trivial, hC _ _ (by simp [oneRowBack]) rfl⟩ rfl
    (Machine.Run.cons ⟨trivial, hC _ _ (by simp [oneRowBack]) rfl⟩ rfl
      (Machine.Run.cons ⟨trivial, hC _ _ (by simp [oneRowBack]) rfl⟩ rfl (Machine.Run.nil _))),
    rfl, rfl⟩

theorem scrollback_window_oneRowBack : ∃ (os : List Unit) (t t₀ : Terminal) (past : List Row),
    liveMachine.Run (terminalInit (Terminal.boot fun _ => 0), []) oneRowBack os (t₀, past) ∧
      t.viewScroll = 1 ∧ (recent historyLines past ++ t₀.rows)[
        (recent historyLines past).length - t.viewScroll.toNat + 0]? = some (t.row 0) := by
  obtain ⟨os, t, hrun, hview, _⟩ := oneRowBack_run ViewCall (by
    intro t e he hz
    refine ⟨anyViewCall_oneRowBack t e he, ?_⟩
    intro lines hl
    simp only [oneRowBack, List.mem_cons, List.not_mem_nil, or_false] at he
    rcases he with rfl | rfl | rfl
    · cases hl
    · cases hl
    · cases hl
      rw [hz]
      decide)
  obtain ⟨t₀, past, hlive, _, hrows, _⟩ := scrollback_window hrun
  exact ⟨os, t, t₀, past, hlive, hview, hrows 0 (by decide)⟩

/-- Scrolling up by 1 and by 2147483647 leaves `view_scroll` at -2147483648. -/
theorem scrollUp_overflow : ∃ es os t,
    (terminalMachine.restrict AnyViewCall).Run (terminalInit (Terminal.boot fun _ => 0)) es os t ∧
      t.viewScroll < 0 := by
  obtain ⟨os, t, hrun, hview, _⟩ := oneRowBack_run AnyViewCall
    fun t e he _ => anyViewCall_oneRowBack t e he
  have hlegal : AnyViewCall t (0, .scrollUp (2 ^ 31 - 1)) :=
    show (0 : Int) ≤ 2 ^ 31 - 1 ∧ (2 ^ 31 - 1 : Int) < 2 ^ 31 by decide
  refine ⟨oneRowBack ++ [(0, .scrollUp (2 ^ 31 - 1))], _, _,
    hrun.append (Machine.Run.single ⟨trivial, hlegal⟩ rfl), ?_⟩
  apply scrollUp_wraps
  · rw [hview]
    decide
  · decide
  · rw [hview]
    decide

end MiniOS
