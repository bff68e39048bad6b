import MiniOS.Lib.TextPage
import MiniOS.Screen.Bounds
import MiniOS.Screen.Characters

/-!
# The page that is printed

What is printed behind a `terminal_clear` is a page of text, of which the screen
shows the last rows and the ring keeps those that a scroll pushed off
(`Showing`).  A character is typed on both alike (`putchar_showing`), so while
the ring has room no text is lost (`print_keepsPage`).
-/

namespace MiniOS

open Lib

variable {t t' : Terminal} {past gone : List Row} {p : TextPage UInt8} {attr : UInt8}

/-! ## The ring, after any calls -/

theorem history_kept : Kept fun t => ∃ past, HistoryInv t past where
  same t t' h hbuf hhead hcount _ := by
    obtain ⟨past, h⟩ := h
    exact ⟨past, h.of_same hbuf hhead hcount⟩
  leave t h := by
    obtain ⟨past, h⟩ := h
    exact ⟨past, leaveScrollback_history h⟩
  scroll t h := by
    obtain ⟨past, h⟩ := h
    exact ⟨_, scroll_history h⟩

theorem reach_history (h : terminalMachine.Reach t) : ∃ past, HistoryInv t past := by
  refine h.invariant (I := fun t => ∃ past, HistoryInv t past) ?_ ?_
  · rintro _ ⟨vga, rfl⟩
    exact ⟨[], (init_follows vga).history⟩
  · intro t e o t' hi _ hs
    obtain ⟨t₁, h1, h2⟩ := Option.map_eq_some_iff.mp hs
    cases h2
    obtain ⟨past, hp⟩ := hi
    exact history_kept.run ⟨past, hp⟩ (fun lines _ => ⟨past, scrollUp_history hp lines⟩)
      (fun lines _ => ⟨past, scrollDown_history hp lines⟩) h1

/-! ## The page on the screen -/

/-- A row with these characters from column 0 on, and blank behind them. -/
def textRow (attr : UInt8) (cs : List UInt8) : Row :=
  fun c => makeVgaEntry (cs.getD c (ch ' ')) attr

/-- The rows `gone` off the screen and the rows down to the cursor are the rows of the page. -/
structure Showing (t : Terminal) (past gone : List Row) (attr : UInt8) (p : TextPage UInt8) :
    Prop where
  view : t.viewScroll ≤ 0
  color : t.termColor = attr
  history : HistoryInv t (past ++ gone)
  col : t.termCol = p.last.length
  above : gone ++ (List.range t.termRow).map t.row = p.above.map (textRow attr)
  last : t.row t.termRow = textRow attr p.last
  below : ∀ r, t.termRow < r → r < vgaRows → t.row r = textRow attr []

theorem textRow_put (cs : List UInt8) (x : UInt8) (c : Fin vgaCols) :
    textRow attr (cs ++ [x]) c =
      if (c : Nat) = cs.length then makeVgaEntry x attr else textRow attr cs c := by
  unfold textRow
  rw [List.getD_eq_getElem?_getD, List.getD_eq_getElem?_getD]
  by_cases heq : (c : Nat) = cs.length
  · rw [if_pos heq, heq, List.getElem?_concat_length]
    rfl
  · rw [if_neg heq]
    by_cases hlt : (c : Nat) < cs.length
    · rw [List.getElem?_append_left hlt]
    · rw [List.getElem?_eq_none (Nat.not_lt.mp hlt), List.getElem?_eq_none]
      rw [List.length_append, List.length_singleton]
      omega

/-- The cell at the cursor is in the row of the cursor. -/
theorem putCell_row (hc : CursorInv t) (x : UInt8) {r : Nat} :
    (putCell t x).row r = fun c : Fin vgaCols =>
      if r = t.termRow ∧ (c : Nat) = t.termCol then makeVgaEntry x t.termColor else t.row r c := by
  funext c
  show Function.update t.vgaBuf _ _ (r * vgaCols + c) = _
  by_cases heq : r = t.termRow ∧ (c : Nat) = t.termCol
  · rw [if_pos heq, heq.1, heq.2, Function.update_self]
  · rw [if_neg heq, Function.update_of_ne]
    · rfl
    · intro hcell
      refine heq ⟨?_, ?_⟩
      · rw [← cell_div (r := r) c.isLt, hcell, cell_div hc.2]
      · rw [← cell_mod (r := r) c.isLt, hcell, cell_mod hc.2]

theorem putCell_row_of_ne (hc : CursorInv t) (x : UInt8) {r : Nat} (hr : r ≠ t.termRow) :
    (putCell t x).row r = t.row r := by
  rw [putCell_row hc]
  funext c
  exact if_neg fun h => hr h.1

/-- **A cell.** -/
theorem putCell_showing (hc : CursorInv t) (h : Showing t past gone attr p) (x : UInt8) :
    Showing { putCell t x with termCol := t.termCol + 1 } past gone attr (p.put x) where
  view := h.view
  color := h.color
  history := h.history.of_same rfl rfl rfl
  col := by
    show t.termCol + 1 = (p.last ++ [x]).length
    rw [h.col, List.length_append, List.length_singleton]
  above := by
    show gone ++ (List.range t.termRow).map (putCell t x).row = p.above.map (textRow attr)
    rw [← h.above]
    congr 1
    refine List.map_congr_left ?_
    intro r hr
    exact putCell_row_of_ne hc x (Nat.ne_of_lt (List.mem_range.mp hr))
  last := by
    show (putCell t x).row t.termRow = textRow attr (p.last ++ [x])
    rw [putCell_row hc]
    funext c
    rw [textRow_put, h.last, h.color, h.col]
    simp only [true_and]
  below := by
    intro r hlt hr
    show (putCell t x).row r = _
    rw [putCell_row_of_ne hc x (Nat.ne_of_gt hlt)]
    exact h.below r hlt hr

/-- **A row.**  On the last one the page moves up. -/
theorem nextLine_showing {t : Terminal} (hrow : t.termRow < vgaRows) (h : Showing t past gone attr p) :
    Showing (nextLine t) past (gone ++ if t.termRow + 1 ≥ vgaRows then [t.row 0] else []) attr
      p.newRow := by
  have hhist := nextLine_history h.history
  rw [List.append_assoc] at hhist
  have hrows : gone ++ (List.range (t.termRow + 1)).map t.row =
      p.newRow.above.map (textRow attr) := by
    rw [List.range_succ, List.map_append, ← List.append_assoc, h.above]
    show _ ++ [t.row t.termRow] = (p.above ++ [p.last]).map (textRow attr)
    rw [h.last, List.map_append]
    rfl
  unfold nextLine at hhist ⊢
  by_cases hs : t.termRow + 1 ≥ vgaRows
  · simp only [if_pos hs] at hhist ⊢
    have hlast : t.termRow = 23 := by
      have : vgaRows = 24 := rfl
      omega
    have hmoved : ∀ row r, r < vgaRows → (scroll { t with termCol := 0, termRow := row }).row r =
        if r + 1 < vgaRows then t.row (r + 1) else textRow attr [] := by
      intro row r hr
      rw [scroll_row _ hr, ← h.color]
      rfl
    refine ⟨h.view, h.color, hhist, rfl, ?_, ?_, ?_⟩
    · rw [← hrows, hlast, List.append_assoc]
      congr 1
      rw [List.range_succ_eq_map, List.map_cons, List.map_map]
      show t.row 0 :: (List.range 23).map _ = t.row 0 :: (List.range 23).map _
      congr 1
      refine List.map_congr_left ?_
      intro r hr
      have hr23 := List.mem_range.mp hr
      have h24 : vgaRows = 24 := rfl
      rw [hmoved _ r (by omega), if_pos (by omega)]
      rfl
    · show (scroll _).row 23 = _
      rw [hmoved _ 23 (by decide), if_neg (by decide)]
      rfl
    · intro r hlt hr
      have : (scroll { t with termCol := 0, termRow := t.termRow + 1 }).termRow = 23 := rfl
      have : vgaRows = 24 := rfl
      omega
  · simp only [if_neg hs] at hhist ⊢
    refine ⟨h.view, h.color, hhist, rfl, ?_, ?_, ?_⟩
    · rw [List.append_nil]
      exact hrows
    · exact h.below _ (Nat.lt_succ_self _) (Nat.lt_of_not_le hs)
    · intro r hlt hr
      exact h.below r (Nat.lt_of_succ_lt hlt) hr

/-- **A character.**  It is typed on the screen as on the page. -/
theorem putchar_showing (fuel : Nat) (hc : CursorInv t) (h : Showing t past gone attr p) {c : UInt8}
    (hplain : c = ch '\n' ∨ 32 ≤ c) :
    ∃ t', terminalPutchar fuel t c = some t' ∧
      Showing t' past (gone ++ pushed t (.putchar c)) attr (p.type vgaCols (ch '\n') c) := by
  unfold terminalPutchar pushed TextPage.type
  rw [leaveScrollback_of_le h.view]
  by_cases hn : c = ch '\n'
  · simp only [if_pos hn]
    refine ⟨_, rfl, ?_⟩
    have := nextLine_showing hc.1 h
    simp only [hn, true_or, true_and]
    exact this
  · have h32 : 32 ≤ c := hplain.resolve_left hn
    have hother : ∀ x : UInt8, x < 32 → c ≠ x := by
      rintro x hx rfl
      exact absurd h32 (UInt8.not_le.mpr hx)
    have hr := hother (ch '\r') (by decide)
    have hb := hother 8 (by decide)
    have ht := hother (ch '\t') (by decide)
    simp only [if_neg hn, if_neg hr, if_neg hb, if_neg ht]
    refine ⟨_, rfl, ?_⟩
    have hcell := putCell_showing hc h c
    have hcol := hc.2
    unfold putPrintable
    by_cases hw : t.termCol + 1 ≥ vgaCols
    · rw [if_pos (show (putCell t c).termCol + 1 ≥ vgaCols from hw)]
      have hline := nextLine_showing (t := { putCell t c with termCol := t.termCol + 1 }) hc.1 hcell
      rw [if_pos (show p.last.length + 1 = vgaCols by rw [← h.col]; omega)]
      simp only [hn, hr, hb, ht, hw, ne_eq, not_false_iff, true_and, or_true]
      have hgone : (if t.termRow + 1 ≥ vgaRows then [(putCell t c).row 0] else []) =
          if t.termRow + 1 ≥ vgaRows then [t.row 0] else [] := by
        -- row 0 is not the one that is written before a scroll
        split
        · have : vgaRows = 24 := rfl
          rw [putCell_row_of_ne hc c (by omega)]
        · rfl
      rw [← hgone]
      exact hline
    · rw [if_neg (show ¬ (putCell t c).termCol + 1 ≥ vgaCols from hw),
        if_neg (show ¬ p.last.length + 1 = vgaCols by rw [← h.col]; omega)]
      simp only [hn, hw, and_false, or_false, false_and, if_false, List.append_nil]
      exact hcell

/-! ## A text -/

/-- The scrolls of a text. -/
def scrolls (fuel : Nat) (t : Terminal) : List UInt8 → Nat
  | [] => 0
  | c :: data =>
    (pushed t (.putchar c)).length +
      match terminalPutchar fuel t c with
      | some t => scrolls fuel t data
      | none => 0

/-- The last `k` rows saved in the ring, the oldest first. -/
def savedRows (t : Terminal) (k : Nat) : List Row :=
  (List.range k).map fun i => t.historyRow ((t.historyHead + historyLines - k + i) % historyLines)

/-- **A text.** -/
theorem write_showing (fuel : Nat) {data : List UInt8} (hc : CursorInv t)
    (h : Showing t past gone attr p) (hplain : ∀ c ∈ data, c = ch '\n' ∨ 32 ≤ c) :
    ∃ t' more, terminalWrite fuel t data = some t' ∧ more.length = scrolls fuel t data ∧
      Showing t' past (gone ++ more) attr (p.typeAll vgaCols (ch '\n') data) := by
  induction data generalizing t gone p with
  | nil => exact ⟨t, [], rfl, rfl, by rw [List.append_nil]; exact h⟩
  | cons c data ih =>
    obtain ⟨hplain_c, hplain⟩ := List.forall_mem_cons.mp hplain
    obtain ⟨t₁, hput, h₁⟩ := putchar_showing fuel hc h hplain_c
    obtain ⟨t', more, hwrite, hlen, h'⟩ := ih (putchar_inv hc hput) h₁ hplain
    refine ⟨t', pushed t (.putchar c) ++ more, ?_, ?_, ?_⟩
    · rw [terminalWrite, hput]
      exact hwrite
    · rw [List.length_append, hlen, scrolls, hput]
    · rw [← List.append_assoc, TextPage.typeAll_cons]
      exact h'

theorem leaveScrollback_color (t : Terminal) : (leaveScrollback t).termColor = t.termColor := by
  unfold leaveScrollback
  split
  · rfl
  · rfl

/-- A cleared screen shows the first row of a page. -/
theorem clear_showing (h : HistoryInv t past) :
    Showing (terminalClear t) past [] t.termColor ⟨[], []⟩ := by
  have hrow : ∀ r, r < vgaRows → (terminalClear t).row r = textRow t.termColor [] := by
    intro r hr
    funext c
    have hin : r * vgaCols + c < vgaRowsMax * vgaCols :=
      (cell_lt_iff c.isLt).mpr (Nat.lt_succ_of_lt hr)
    show (if r * vgaCols + c < vgaRowsMax * vgaCols then _ else _) = _
    rw [if_pos hin, leaveScrollback_color]
    rfl
  refine ⟨leaveScrollback_view t, leaveScrollback_color t, ?_, rfl, rfl, hrow 0 (by decide), ?_⟩
  · rw [List.append_nil]
    exact (leaveScrollback_history h).of_same rfl rfl rfl
  · intro r _ hr
    exact hrow r hr

/-- The ring holds the rows pushed off last. -/
theorem savedRows_eq (h : HistoryInv t (past ++ gone)) (hlen : gone.length ≤ historyLines) :
    savedRows t gone.length = gone := by
  refine List.ext_getElem? ?_
  intro i
  unfold savedRows
  rw [List.getElem?_map]
  by_cases hi : i < gone.length
  · rw [List.getElem?_range hi]
    have hlast : (past ++ gone).length = past.length + gone.length := List.length_append
    have hslot : ((past ++ gone).length % historyLines + historyLines - gone.length + i) %
        historyLines = ((past ++ gone).length - gone.length + i) % historyLines :=
      slot_back hlen (by omega)
    show some (t.historyRow ((t.historyHead + historyLines - gone.length + i) % historyLines)) = _
    rw [h.head, hslot, List.getElem?_eq_getElem hi]
    refine congrArg some (h.ring _ _ ?_ (by omega))
    rw [List.getElem?_append_right (by omega), ← List.getElem?_eq_getElem hi]
    congr 1
    omega
  · rw [List.getElem?_eq_none (by rw [List.length_range]; omega), List.getElem?_eq_none (by omega)]
    rfl

/-- **The page.**  The rows saved by the scrolls and the screen down to the cursor are the layout
of what is printed. -/
theorem print_keepsPage (h : terminalMachine.Reach t) (fuel : Nat) {data : List UInt8}
    (hplain : ∀ c ∈ data, c = ch '\n' ∨ 32 ≤ c) :
    ∃ t', terminalWrite fuel (terminalClear t) data = some t' ∧
      terminalWritestring fuel (terminalClear t) data = some t' ∧
      (scrolls fuel (terminalClear t) data ≤ historyLines →
        savedRows t' (scrolls fuel (terminalClear t) data) ++
            (List.range (t'.termRow + 1)).map t'.row =
          (layout vgaCols (ch '\n') [] data).map (textRow t.termColor)) ∧
      t'.termCol = ((layout vgaCols (ch '\n') [] data).getLastD []).length := by
  obtain ⟨past, hp⟩ := reach_history h
  obtain ⟨t', gone, hwrite, hlen, hs⟩ := write_showing fuel (terminalClear_inv t) (clear_showing hp)
    hplain
  have hstr : str data = data := by
    refine str_of_not_mem ?_
    intro h0
    rcases hplain 0 h0 with hz | hz
    · exact absurd hz (by decide)
    · exact absurd hz (by decide)
  have hrows : (TextPage.typeAll vgaCols (ch '\n') ⟨[], []⟩ data).rows =
      layout vgaCols (ch '\n') [] data := TextPage.rows_typeAll ⟨[], []⟩ data
  rw [List.nil_append] at hs
  refine ⟨t', hwrite, ?_, ?_, ?_⟩
  · rw [writestring_eq_write, hstr]
    exact hwrite
  · intro hroom
    rw [← hlen] at hroom ⊢
    rw [savedRows_eq hs.history hroom, List.range_succ, List.map_append, ← List.append_assoc,
      hs.above, ← hrows]
    unfold TextPage.rows
    rw [List.map_append]
    show _ ++ [t'.row t'.termRow] = _
    rw [hs.last]
    rfl
  · rw [hs.col, ← hrows]
    unfold TextPage.rows
    rw [List.getLastD_concat]

/-- A line at the top, 22 empty ones, and one of 82 characters, which is wrapped and pushes the top
line off. -/
def longPage : List UInt8 :=
  ch 'b' :: List.replicate 23 (ch '\n') ++ List.replicate 82 (ch 'a')

theorem print_keepsPage_wraps : ∃ t t', terminalMachine.Reach t ∧
    terminalWrite 0 (terminalClear t) longPage = some t' ∧
      savedRows t' 1 ++ (List.range 24).map t'.row =
        ([[ch 'b']] ++ List.replicate 22 [] ++
          [List.replicate 80 (ch 'a'), [ch 'a', ch 'a']]).map (textRow 7) := by
  let t := terminalInit (Terminal.boot fun _ => 0)
  have ht : terminalMachine.Reach t := ⟨_, [], [], ⟨_, rfl⟩, Machine.Run.nil _⟩
  have hplain : ∀ c ∈ longPage, c = ch '\n' ∨ 32 ≤ c := forall_of_all (by decide)
  have hscrolls : scrolls 0 (terminalClear t) longPage = 1 := by decide +kernel
  have hend : (terminalWrite 0 (terminalClear t) longPage).map Terminal.termRow = some 23 := by
    decide +kernel
  have hlayout : layout vgaCols (ch '\n') [] longPage = [[ch 'b']] ++ List.replicate 22 [] ++
      [List.replicate 80 (ch 'a'), [ch 'a', ch 'a']] := by decide +kernel
  obtain ⟨t', hwrite, _, hrows, _⟩ := print_keepsPage ht 0 hplain
  rw [hwrite] at hend
  have hrow : t'.termRow = 23 := Option.some.inj hend
  rw [hscrolls, hrow, hlayout] at hrows
  exact ⟨t, t', ht, hwrite, hrows (by decide)⟩

end MiniOS
