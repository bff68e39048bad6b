import MiniOS.Screen.Terminal

/-!
# The tab loop of `terminal_putchar`

The cursor stays inside the 24 × 80 grid (`terminal_reach_inv`).  The tab loop
waits for `term_col` to reach the next tab stop; from column 72 on that stop is
80, which the cursor never shows, since the space in column 79 wraps it to
column 0.  So a character that is put comes back, at the tab stop for a tab,
exactly when it is no tab or the cursor is left of column 72
(`putchar_returns_iff`).
-/

namespace MiniOS

open Lib

/-- The cursor is inside the grid. -/
def CursorInv (t : Terminal) : Prop := t.termRow < vgaRows ∧ t.termCol < vgaCols

@[simp] theorem redrawScroll_row (t : Terminal) : (redrawScroll t).termRow = t.termRow := rfl
@[simp] theorem redrawScroll_col (t : Terminal) : (redrawScroll t).termCol = t.termCol := rfl

@[simp] theorem leaveScrollback_row (t : Terminal) : (leaveScrollback t).termRow = t.termRow := by
  unfold leaveScrollback
  split <;> rfl

@[simp] theorem leaveScrollback_col (t : Terminal) : (leaveScrollback t).termCol = t.termCol := by
  unfold leaveScrollback
  split <;> rfl

theorem leaveScrollback_inv {t : Terminal} (h : CursorInv t) : CursorInv (leaveScrollback t) := by
  unfold CursorInv
  rw [leaveScrollback_row, leaveScrollback_col]
  exact h

/-! ## The cursor after one character -/

/-- A new line: column 0 of the next row, or of the last row after a scroll. -/
theorem nextLine_spec (t : Terminal) (h : t.termRow < vgaRows) :
    (nextLine t).termCol = 0 ∧
      (nextLine t).termRow = if t.termRow + 1 < vgaRows then t.termRow + 1 else t.termRow := by
  have h24 : vgaRows = 24 := rfl
  unfold nextLine
  by_cases hr : t.termRow + 1 ≥ vgaRows
  · simp only [if_pos hr, if_neg (Nat.not_lt.mpr hr)]
    refine ⟨rfl, ?_⟩
    show vgaRows - 1 = t.termRow
    omega
  · simp only [if_neg hr, if_pos (Nat.lt_of_not_le hr)]
    exact ⟨trivial, trivial⟩

theorem putPrintable_spec (t : Terminal) (c : UInt8) (h : CursorInv t) :
    (t.termCol + 1 < vgaCols → (putPrintable t c).termCol = t.termCol + 1 ∧
        (putPrintable t c).termRow = t.termRow) ∧
      (t.termCol + 1 = vgaCols → (putPrintable t c).termCol = 0) ∧
      CursorInv (putPrintable t c) := by
  obtain ⟨hrow, hcol⟩ := h
  unfold putPrintable
  by_cases hw : t.termCol + 1 ≥ vgaCols
  · obtain ⟨h1, h2⟩ :=
      nextLine_spec { putCell t c with termCol := (putCell t c).termCol + 1 } hrow
    rw [if_pos (show (putCell t c).termCol + 1 ≥ vgaCols from hw)]
    refine ⟨fun h => by omega, fun _ => h1, ?_, ?_⟩
    · rw [h2]
      split
      · assumption
      · exact hrow
    · rw [h1]
      decide
  · rw [if_neg (show ¬ (putCell t c).termCol + 1 ≥ vgaCols from hw)]
    exact ⟨fun _ => ⟨rfl, rfl⟩, fun h => by omega, hrow, Nat.lt_of_not_le hw⟩

theorem nextLine_inv {t : Terminal} (h : CursorInv t) : CursorInv (nextLine t) := by
  obtain ⟨h1, h2⟩ := nextLine_spec t h.1
  refine ⟨?_, by rw [h1]; decide⟩
  rw [h2]
  split
  · assumption
  · exact h.1

theorem putBackspace_inv {t : Terminal} (h : CursorInv t) : CursorInv (putBackspace t) := by
  obtain ⟨hrow, hcol⟩ := h
  have h80 : vgaCols = 80 := rfl
  unfold putBackspace
  by_cases hc : t.termCol > 0
  · rw [if_pos hc]
    refine ⟨hrow, ?_⟩
    show t.termCol - 1 < vgaCols
    omega
  · rw [if_neg hc]
    by_cases hr : t.termRow > 0
    · rw [if_pos hr]
      refine ⟨?_, ?_⟩
      · show t.termRow - 1 < vgaRows
        omega
      · show vgaCols - 1 < vgaCols
        omega
    · rw [if_neg hr]
      exact ⟨hrow, hcol⟩

/-! ## The tab loop -/

/-- One more round: the cursor stays inside the grid. -/
theorem tabBody_next {n : Nat} {t t' : Terminal} (h : tabBody n t = .inl t') (hi : CursorInv t) :
    t.termCol < n ∧ t' = putPrintable (leaveScrollback t) (ch ' ') ∧ CursorInv t' := by
  unfold tabBody at h
  split at h
  · cases h
    exact ⟨by assumption, rfl, (putPrintable_spec _ _ (leaveScrollback_inv hi)).2.2⟩
  · cases h

theorem tabBody_done {n : Nat} {t t' : Terminal} (h : tabBody n t = .inr t') :
    n ≤ t.termCol ∧ t' = t := by
  unfold tabBody at h
  split at h
  · cases h
  · cases h
    exact ⟨by omega, rfl⟩

/-- Whatever bound the loop comes back with, the cursor is inside the grid. -/
theorem tabLoop_inv {n fuel : Nat} {t t' : Terminal} (hi : CursorInv t)
    (h : loop (tabBody n) fuel t = some t') : CursorInv t' := by
  induction fuel generalizing t with
  | zero => cases h
  | succ fuel ih =>
    cases hb : tabBody n t with
    | inl t₁ =>
      rw [loop_next hb] at h
      exact ih (tabBody_next hb hi).2.2 h
    | inr t₁ =>
      rw [loop_done hb] at h
      cases h
      rw [(tabBody_done hb).2]
      exact hi

/-- A stop left of the right edge is reached, in the same row. -/
theorem tabLoop_returns {n fuel : Nat} (hn : n < vgaCols) (hfuel : n < fuel) {t : Terminal}
    (hi : CursorInv t) (hcol : t.termCol ≤ n) :
    ∃ t', loop (tabBody n) fuel t = some t' ∧ t'.termCol = n ∧ t'.termRow = t.termRow := by
  refine loop_total
    (fun s : Terminal => CursorInv s ∧ s.termCol ≤ n ∧ s.termRow = t.termRow)
    (fun s => n - s.termCol) (fun s : Terminal => s.termCol = n ∧ s.termRow = t.termRow) ?_ ?_
    fuel t ⟨hi, hcol, rfl⟩ (by omega)
  · rintro s s' ⟨hs, hle, hrow⟩ hb
    obtain ⟨hlt, rfl, hs'⟩ := tabBody_next hb hs
    obtain ⟨hstay, _, _⟩ := putPrintable_spec _ (ch ' ') (leaveScrollback_inv hs)
    rw [leaveScrollback_col, leaveScrollback_row] at hstay
    obtain ⟨h1, h2⟩ := hstay (by omega)
    exact ⟨⟨hs', by omega, by omega⟩, by omega⟩
  · rintro s s' ⟨_, hle, hrow⟩ hb
    obtain ⟨hge, rfl⟩ := tabBody_done hb
    exact ⟨by omega, hrow⟩

/-- The right edge is never reached: the loop does not come back. -/
theorem tabLoop_diverges {t : Terminal} (hi : CursorInv t) (fuel : Nat) :
    loop (tabBody vgaCols) fuel t = none := by
  refine loop_diverges CursorInv ?_ fuel t hi
  intro s hs
  refine ⟨putPrintable (leaveScrollback s) (ch ' '), ?_, ?_⟩
  · unfold tabBody
    rw [if_pos hs.2]
  · exact (putPrintable_spec _ _ (leaveScrollback_inv hs)).2.2

theorem nextTab_eq : ∀ c < vgaCols, nextTab c = (c / 8 + 1) * 8 := by decide

/-! ## Runs -/

theorem putchar_inv {fuel : Nat} {t t' : Terminal} {c : UInt8} (hi : CursorInv t)
    (h : terminalPutchar fuel t c = some t') : CursorInv t' := by
  have hi' := leaveScrollback_inv hi
  unfold terminalPutchar at h
  simp only at h
  split at h
  · cases h
    exact nextLine_inv hi'
  · split at h
    · cases h
      exact ⟨hi'.1, Nat.zero_lt_succ 79⟩
    · split at h
      · cases h
        exact putBackspace_inv hi'
      · split at h
        · exact tabLoop_inv hi' h
        · cases h
          exact (putPrintable_spec _ _ hi').2.2

/-- What each character keeps, a text keeps. -/
theorem write_keeps {P : Terminal → Prop} {fuel : Nat}
    (hput : ∀ t c t', P t → terminalPutchar fuel t c = some t' → P t') {data : List UInt8}
    {t t' : Terminal} (ht : P t) (h : terminalWrite fuel t data = some t') : P t' := by
  induction data generalizing t with
  | nil =>
    cases h
    exact ht
  | cons c data ih =>
    rw [terminalWrite, Option.bind_eq_bind, Option.bind_eq_some_iff] at h
    obtain ⟨t₁, h1, h2⟩ := h
    exact ih (hput t c t₁ ht h1) h2

theorem write_inv {fuel : Nat} {data : List UInt8} {t t' : Terminal} (hi : CursorInv t)
    (h : terminalWrite fuel t data = some t') : CursorInv t' :=
  write_keeps (fun _ _ _ => putchar_inv) hi h

theorem writestring_eq_write (fuel : Nat) (t : Terminal) (s : List UInt8) :
    terminalWritestring fuel t s = terminalWrite fuel t (str s) := by
  induction s generalizing t with
  | nil => rfl
  | cons c s ih =>
    rw [terminalWritestring]
    by_cases hc : c = 0
    · rw [if_pos hc, hc, str_zero]
      rfl
    · rw [if_neg hc, str_cons hc, terminalWrite]
      congr 1
      funext t
      exact ih t

theorem writestring_inv {fuel : Nat} {s : List UInt8} {t t' : Terminal} (hi : CursorInv t)
    (h : terminalWritestring fuel t s = some t') : CursorInv t' := by
  rw [writestring_eq_write] at h
  exact write_inv hi h

theorem terminalClear_inv (t : Terminal) : CursorInv (terminalClear t) :=
  ⟨Nat.zero_lt_succ 23, Nat.zero_lt_succ 79⟩

theorem setcursor_inv {t : Terminal} (hi : CursorInv t) (row col : Int) :
    CursorInv (terminalSetcursor t row col) := by
  obtain ⟨hrow, hcol⟩ := hi
  unfold terminalSetcursor CursorInv
  by_cases h1 : row ≥ 0 ∧ row < vgaRows
  · by_cases h2 : col ≥ 0 ∧ col < vgaCols
    · simp only [if_pos h1, if_pos h2]
      omega
    · simp only [if_pos h1, if_neg h2]
      exact ⟨by omega, hcol⟩
  · by_cases h2 : col ≥ 0 ∧ col < vgaCols
    · simp only [if_neg h1, if_pos h2]
      exact ⟨hrow, by omega⟩
    · simp only [if_neg h1, if_neg h2]
      exact ⟨hrow, hcol⟩

theorem scrollUp_cursor (t : Terminal) (lines : Int) :
    (terminalScrollUp t lines).termRow = t.termRow ∧
      (terminalScrollUp t lines).termCol = t.termCol := by
  unfold terminalScrollUp
  refine ⟨?_, ?_⟩ <;> (simp only; split <;> split <;> split <;> rfl)

theorem scrollDown_cursor (t : Terminal) (lines : Int) :
    (terminalScrollDown t lines).termRow = t.termRow ∧
      (terminalScrollDown t lines).termCol = t.termCol := by
  unfold terminalScrollDown
  split
  · refine ⟨?_, ?_⟩ <;> (simp only [redrawScroll_row, redrawScroll_col]; split <;> rfl)
  · exact ⟨rfl, rfl⟩

theorem run_inv {fuel : Nat} {t t' : Terminal} {e : TerminalCall} (hi : CursorInv t)
    (h : e.run fuel t = some t') : CursorInv t' := by
  cases e with
  | init | clear =>
    cases h
    exact terminalClear_inv _
  | setcolor fg bg =>
    cases h
    exact hi
  | putchar c => exact putchar_inv hi h
  | write data => exact write_inv hi h
  | writestring s => exact writestring_inv hi h
  | writecolor s fg bg =>
    simp only [TerminalCall.run, terminalWritecolor, Option.bind_eq_bind,
      Option.bind_eq_some_iff] at h
    obtain ⟨t₁, h1, h2⟩ := h
    cases h2
    have h3 : CursorInv t₁ := writestring_inv (t := { t with termColor := makeColor fg bg }) hi h1
    exact h3
  | setcursor row col =>
    cases h
    exact setcursor_inv hi row col
  | scrollUp lines =>
    cases h
    obtain ⟨h1, h2⟩ := scrollUp_cursor t lines
    exact ⟨by rw [h1]; exact hi.1, by rw [h2]; exact hi.2⟩
  | scrollDown lines =>
    cases h
    obtain ⟨h1, h2⟩ := scrollDown_cursor t lines
    exact ⟨by rw [h1]; exact hi.1, by rw [h2]; exact hi.2⟩

theorem terminal_reach_inv {t : Terminal} (h : terminalMachine.Reach t) : CursorInv t := by
  refine h.invariant (I := CursorInv) ?_ ?_
  · rintro _ ⟨vga, rfl⟩
    exact terminalClear_inv _
  · intro t e o t' hi _ hs
    obtain ⟨t₁, h1, h2⟩ := Option.map_eq_some_iff.mp hs
    cases h2
    exact run_inv hi h1

/-! ## When a character comes back -/

/-- The cursor is at the next multiple of 8, or at column 0 of the next row where
that stop is the right edge. -/
def AtTabStop (t t' : Terminal) : Prop :=
  if (t.termCol / 8 + 1) * 8 < vgaCols then
    t'.termCol = (t.termCol / 8 + 1) * 8 ∧ t'.termRow = t.termRow
  else
    t'.termCol = 0 ∧
      t'.termRow = if t.termRow + 1 < vgaRows then t.termRow + 1 else t.termRow

/-- **When `terminal_putchar` comes back.**  In every state reachable by terminal
calls a character comes back, a tab at its tab stop, exactly if it is no tab or
the cursor is left of column 72. -/
theorem putchar_returns_iff {t : Terminal} (h : terminalMachine.Reach t) (c : UInt8) :
    (∃ fuel t', terminalPutchar fuel t c = some t' ∧ (c = ch '\t' → AtTabStop t t')) ↔
      (c ≠ ch '\t' ∨ t.termCol < 72) := by
  have h80 : vgaCols = 80 := rfl
  have hi := terminal_reach_inv h
  have hi' := leaveScrollback_inv hi
  have htab : ∀ fuel, terminalPutchar fuel t (ch '\t') =
      loop (tabBody ((t.termCol / 8 + 1) * 8)) fuel (leaveScrollback t) := by
    intro fuel
    rw [← nextTab_eq _ hi.2, ← leaveScrollback_col t]
    rfl
  constructor
  · rintro ⟨fuel, t', hput, _⟩
    by_cases hc : c = ch '\t'
    · refine .inr ?_
      by_contra hge
      -- the stop is the right edge
      have hedge : (t.termCol / 8 + 1) * 8 = vgaCols := by
        have := hi.2
        omega
      rw [hc, htab, hedge, tabLoop_diverges hi'] at hput
      cases hput
    · exact .inl hc
  · intro hcond
    by_cases hc : c = ch '\t'
    · have hlt : t.termCol < 72 := by
        rcases hcond with h | h
        · exact absurd hc h
        · exact h
      have hn : (t.termCol / 8 + 1) * 8 < vgaCols := by omega
      obtain ⟨t', ht', hcol, hrow⟩ :=
        tabLoop_returns hn (Nat.lt_succ_self _) hi' (by rw [leaveScrollback_col]; omega)
      rw [leaveScrollback_row] at hrow
      refine ⟨_, t', by rw [hc, htab, ht'], fun _ => ?_⟩
      unfold AtTabStop
      rw [if_pos hn]
      exact ⟨hcol, hrow⟩
    · have hput : ∃ t', terminalPutchar 0 t c = some t' := by
        unfold terminalPutchar
        simp only [if_neg hc]
        split
        · exact ⟨_, rfl⟩
        · split
          · exact ⟨_, rfl⟩
          · split <;> exact ⟨_, rfl⟩
      obtain ⟨t', ht'⟩ := hput
      exact ⟨0, t', ht', fun h => absurd h hc⟩

/-- The terminal after `terminal_init` and `terminal_setcursor(0, col)`. -/
def terminalAtCol (col : Nat) : Terminal :=
  terminalSetcursor (terminalInit (Terminal.boot fun _ => 0)) 0 col

theorem terminalAtCol_reach (col : Nat) : terminalMachine.Reach (terminalAtCol col) :=
  (Machine.Reach.init (M := terminalMachine) ⟨_, rfl⟩).step (e := (0, .setcursor 0 col)) trivial rfl

theorem putchar_returns_iff_col3 :
    ∃ fuel t', terminalPutchar fuel (terminalAtCol 3) (ch '\t') = some t' ∧
      AtTabStop (terminalAtCol 3) t' := by
  obtain ⟨fuel, t', h1, h2⟩ :=
    (putchar_returns_iff (terminalAtCol_reach 3) (ch '\t')).mpr (.inr (by decide))
  exact ⟨fuel, t', h1, h2 rfl⟩

/-- A tab at column 72 never comes back. -/
theorem putchar_tab_hangs :
    terminalMachine.Reach (terminalAtCol 72) ∧
      ∀ fuel, terminalPutchar fuel (terminalAtCol 72) (ch '\t') = none := by
  refine ⟨terminalAtCol_reach 72, fun fuel => ?_⟩
  have hi : CursorInv (terminalAtCol 72) := ⟨by decide, by decide⟩
  exact tabLoop_diverges (leaveScrollback_inv hi) fuel

end MiniOS
