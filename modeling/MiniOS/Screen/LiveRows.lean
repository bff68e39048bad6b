import MiniOS.Screen.TabStops

/-!
# The live rows

With `view_scroll` raised the screen shows rows of the history, and the live
rows are in the snapshot `terminal_scroll_up` took.  `SameLive t t₀` says that
`t` has the live rows, the cursor and the colour of `t₀`, which is not scrolled
back.  The view leaves them as they are (`scrollUp_inv`, `scrollDown_inv`),
a character or a clear first brings them back (`leaveScrollback_same`), and what
is then drawn is drawn alike (`SameLive.nextLine`, `SameLive.putPrintable`, ..).

The amount scrolled by is added before it is compared with the rows there are,
so these are amounts that keep `view_scroll` in an `int`.
-/

namespace MiniOS

open Lib

/-! ## Rows -/

abbrev Row := Fin vgaCols → UInt16

/-- Row `r` of the VGA buffer. -/
def Terminal.row (t : Terminal) (r : Nat) : Row := fun c => t.vgaBuf (r * vgaCols + c)

/-- The 24 rows on the screen. -/
def Terminal.rows (t : Terminal) : List Row := (List.range vgaRows).map t.row

def Terminal.historyRow (t : Terminal) (i : Nat) : Row := fun c => t.historyBuf i c

/-- Row `r` as it is when the view is back at 0. -/
def Terminal.liveRow (t : Terminal) (r : Nat) : Row :=
  if t.viewScroll = 0 then t.row r else fun c => t.liveSnapshot r c

theorem rows_getElem? (t : Terminal) {r : Nat} (hr : r < vgaRows) : t.rows[r]? = some (t.row r) := by
  unfold Terminal.rows
  rw [List.getElem?_map, List.getElem?_range hr]
  rfl

/-- A cell of row `r` lies before the row `n` exactly if `r` does. -/
theorem cell_lt_iff {r n c : Nat} (hc : c < vgaCols) :
    r * vgaCols + c < n * vgaCols ↔ r < n := by
  have h80 : vgaCols = 80 := rfl
  rw [h80] at hc ⊢
  omega

theorem cell_div {r c : Nat} (hc : c < vgaCols) : (r * vgaCols + c) / vgaCols = r := by
  rw [Nat.mul_comm, Nat.mul_add_div (by decide), Nat.div_eq_of_lt hc, Nat.add_zero]

theorem cell_mod {r c : Nat} (hc : c < vgaCols) : (r * vgaCols + c) % vgaCols = c := by
  rw [Nat.mul_comm, Nat.mul_add_mod, Nat.mod_eq_of_lt hc]

theorem redraw_row (t : Terminal) {r : Nat} (hr : r < vgaRows) :
    (redrawScroll t).row r = fun c : Fin vgaCols => redrawCell t r c := by
  funext c
  have hc := c.isLt
  show (if r * vgaCols + c < vgaRows * vgaCols then _ else _) = _
  rw [if_pos ((cell_lt_iff hc).mpr hr), cell_div hc, cell_mod hc]

/-- What is shown is not read: it is the same once it is shown. -/
theorem redraw_shown (t : Terminal) {r : Nat} (hr : r < vgaRows) :
    (redrawScroll t).row r = fun c : Fin vgaCols => redrawCell (redrawScroll t) r c := by
  rw [redraw_row t hr]
  funext c
  show t.read (redrawSource t.historyHead t.viewScroll r c) =
    (redrawScroll t).read (redrawSource t.historyHead t.viewScroll r c)
  unfold redrawSource
  split
  · rfl
  · split
    · rfl
    · rfl

/-- A scroll moves every row up. -/
theorem scroll_row (t : Terminal) {r : Nat} (hr : r < vgaRows) :
    (scroll t).row r =
      if r + 1 < vgaRows then t.row (r + 1) else fun _ => makeVgaEntry (ch ' ') t.termColor := by
  funext c
  have hc := c.isLt
  show (if r * vgaCols + c < (vgaRows - 1) * vgaCols then t.vgaBuf (r * vgaCols + c + vgaCols)
    else if r * vgaCols + c < vgaRows * vgaCols then makeVgaEntry (ch ' ') t.termColor
    else t.vgaBuf (r * vgaCols + c)) = _
  by_cases h : r + 1 < vgaRows
  · rw [if_pos ((cell_lt_iff hc).mpr (by omega)), if_pos h]
    show t.vgaBuf _ = t.vgaBuf _
    congr 1
    rw [Nat.succ_mul]
    omega
  · rw [if_neg (fun hlt => h (by have := (cell_lt_iff hc).mp hlt; omega)),
      if_pos ((cell_lt_iff hc).mpr hr), if_neg h]

/-! ## The same live screen -/

/-- What `t` shows once its view is back at 0 is what `t₀` shows. -/
structure SameLive (t t₀ : Terminal) : Prop where
  row : t.termRow = t₀.termRow
  col : t.termCol = t₀.termCol
  color : t.termColor = t₀.termColor
  live : ∀ r < vgaRows, t.liveRow r = t₀.row r

variable {t t₀ : Terminal}

theorem liveRow_of_zero (hv : t.viewScroll = 0) (r : Nat) : t.liveRow r = t.row r := if_pos hv

theorem liveRow_of_ne (hv : t.viewScroll ≠ 0) (r : Nat) :
    t.liveRow r = fun c : Fin vgaCols => t.liveSnapshot r c := if_neg hv

namespace SameLive

theorem putCell (h : SameLive t t₀) (hv : t.viewScroll = 0) (c : UInt8) :
    SameLive (putCell t c) (putCell t₀ c) := by
  refine ⟨h.row, h.col, h.color, ?_⟩
  intro r hr
  have hlive := h.live r hr
  rw [liveRow_of_zero hv] at hlive
  rw [liveRow_of_zero (by exact hv)]
  funext x
  show Function.update t.vgaBuf _ _ _ = Function.update t₀.vgaBuf _ _ _
  rw [h.row, h.col, h.color, Function.update_apply, Function.update_apply]
  split
  · rfl
  · exact congrFun hlive x

theorem nextLine (h : SameLive t t₀) (hv : t.viewScroll = 0) :
    SameLive (nextLine t) (nextLine t₀) := by
  have hlive : ∀ r < vgaRows, t.row r = t₀.row r := by
    intro r hr
    rw [← h.live r hr, liveRow_of_zero hv]
  unfold MiniOS.nextLine
  simp only [h.row]
  by_cases hs : t₀.termRow + 1 ≥ vgaRows
  · simp only [if_pos hs]
    refine ⟨rfl, rfl, h.color, ?_⟩
    intro r hr
    rw [liveRow_of_zero (by exact hv), scroll_row _ hr, scroll_row _ hr]
    split
    · exact hlive (r + 1) (by assumption)
    · funext x
      show makeVgaEntry (ch ' ') t.termColor = makeVgaEntry (ch ' ') t₀.termColor
      rw [h.color]
  · simp only [if_neg hs]
    refine ⟨rfl, rfl, h.color, ?_⟩
    intro r hr
    rw [liveRow_of_zero (by exact hv)]
    exact hlive r hr

theorem putPrintable (h : SameLive t t₀) (hv : t.viewScroll = 0) (c : UInt8) :
    SameLive (putPrintable t c) (putPrintable t₀ c) := by
  have hput := h.putCell hv c
  have hnext : SameLive { MiniOS.putCell t c with termCol := t.termCol + 1 }
      { MiniOS.putCell t₀ c with termCol := t₀.termCol + 1 } :=
    ⟨h.row, congrArg (· + 1) h.col, h.color, hput.live⟩
  unfold MiniOS.putPrintable
  by_cases hw : t₀.termCol + 1 ≥ vgaCols
  · rw [if_pos (show (MiniOS.putCell t₀ c).termCol + 1 ≥ vgaCols from hw),
      if_pos (show (MiniOS.putCell t c).termCol + 1 ≥ vgaCols from h.col ▸ hw)]
    exact hnext.nextLine hv
  · rw [if_neg (show ¬ (MiniOS.putCell t₀ c).termCol + 1 ≥ vgaCols from hw),
      if_neg (show ¬ (MiniOS.putCell t c).termCol + 1 ≥ vgaCols from h.col ▸ hw)]
    exact hnext

theorem putBackspace (h : SameLive t t₀) (hv : t.viewScroll = 0) :
    SameLive (putBackspace t) (putBackspace t₀) := by
  unfold MiniOS.putBackspace
  simp only [h.row, h.col]
  have hmove : ∀ row col, SameLive { t with termRow := row, termCol := col }
      { t₀ with termRow := row, termCol := col } :=
    fun row col => ⟨rfl, rfl, h.color, h.live⟩
  by_cases hc : t₀.termCol > 0
  · simp only [if_pos hc]
    have := (hmove t.termRow (t₀.termCol - 1)).putCell hv (ch ' ')
    rw [h.row] at this
    exact this
  · by_cases hr : t₀.termRow > 0
    · simp only [if_neg hc, if_pos hr]
      exact (hmove (t₀.termRow - 1) (vgaCols - 1)).putCell hv (ch ' ')
    · simp only [if_neg hc, if_neg hr]
      exact h.putCell hv (ch ' ')

end SameLive

/-! ## The view -/

theorem nextLine_view (t : Terminal) : (nextLine t).viewScroll = t.viewScroll := by
  unfold nextLine
  simp only
  split
  · rfl
  · rfl

theorem putPrintable_view (t : Terminal) (c : UInt8) :
    (putPrintable t c).viewScroll = t.viewScroll := by
  unfold putPrintable
  simp only
  split
  · exact nextLine_view _
  · rfl

theorem putBackspace_view (t : Terminal) : (putBackspace t).viewScroll = t.viewScroll := by
  unfold putBackspace
  simp only
  split
  · rfl
  · split
    · rfl
    · rfl

/-- The view is between the live rows and the oldest row kept, and shows what `redraw_scroll` draws. -/
structure ViewInv (t : Terminal) : Prop where
  nonneg : 0 ≤ t.viewScroll
  le : t.viewScroll ≤ t.historyCount
  shown : 0 < t.viewScroll → ∀ r < vgaRows, t.row r = fun c : Fin vgaCols => redrawCell t r c

theorem ViewInv.zero (hv : t.viewScroll = 0) : ViewInv t :=
  ⟨by omega, by omega, fun h => by omega⟩

/-- The live rows, from the snapshot. -/
theorem redraw_zero (hv : t.viewScroll = 0) {r : Nat} (hr : r < vgaRows) :
    (redrawScroll t).row r = fun c : Fin vgaCols => t.liveSnapshot r c := by
  rw [redraw_row t hr]
  funext c
  unfold redrawCell redrawSource
  rw [if_pos hv]
  rfl

theorem leaveScrollback_of_le (hv : t.viewScroll ≤ 0) : leaveScrollback t = t := by
  unfold leaveScrollback
  rw [if_neg (by omega)]

theorem leaveScrollback_zero (h : ViewInv t) : (leaveScrollback t).viewScroll = 0 := by
  have := h.nonneg
  unfold leaveScrollback
  split
  · rfl
  · omega

/-- **Back to the live rows.** -/
theorem leaveScrollback_same (h : ViewInv t) (hs : SameLive t t₀) :
    SameLive (leaveScrollback t) t₀ := by
  have := h.nonneg
  unfold leaveScrollback
  by_cases hv : t.viewScroll > 0
  · rw [if_pos hv]
    refine ⟨hs.row, hs.col, hs.color, ?_⟩
    intro r hr
    rw [← hs.live r hr, liveRow_of_zero rfl, liveRow_of_ne (by omega)]
    exact redraw_zero rfl hr
  · rw [if_neg hv]
    exact hs

/-- The snapshot `terminal_scroll_up` takes of the live rows. -/
def takeSnapshot (t : Terminal) : Terminal :=
  if t.viewScroll = 0 then
    { t with
      liveSnapshot := fun r c =>
        if 0 ≤ r ∧ r < vgaRows ∧ c < vgaCols then t.vgaBuf (r.toNat * vgaCols + c)
        else t.liveSnapshot r c }
  else t

theorem takeSnapshot_row (t : Terminal) {r : Nat} (hr : r < vgaRows) :
    (fun c : Fin vgaCols => (takeSnapshot t).liveSnapshot r c) = t.liveRow r := by
  unfold takeSnapshot
  by_cases hv : t.viewScroll = 0
  · rw [if_pos hv, liveRow_of_zero hv]
    funext c
    show (if (0 : Int) ≤ r ∧ (r : Int) < vgaRows ∧ (c : Nat) < vgaCols then _ else _) = _
    rw [if_pos ⟨by omega, by omega, c.isLt⟩, Int.toNat_natCast]
    rfl
  · rw [if_neg hv, liveRow_of_ne hv]

/-- What a view at `v` rows back shows of `t`. -/
def scrolledTo (t : Terminal) (v : Int) : Terminal :=
  let t := { takeSnapshot t with viewScroll := v }
  if v > 0 then redrawScroll t else t

theorem takeSnapshot_fields (t : Terminal) :
    (takeSnapshot t).termRow = t.termRow ∧ (takeSnapshot t).termCol = t.termCol ∧
      (takeSnapshot t).termColor = t.termColor ∧ (takeSnapshot t).vgaBuf = t.vgaBuf ∧
      (takeSnapshot t).viewScroll = t.viewScroll ∧
      (takeSnapshot t).historyCount = t.historyCount ∧
      (takeSnapshot t).historyHead = t.historyHead ∧
      (takeSnapshot t).historyBuf = t.historyBuf := by
  unfold takeSnapshot
  split
  · exact ⟨rfl, rfl, rfl, rfl, rfl, rfl, rfl, rfl⟩
  · exact ⟨rfl, rfl, rfl, rfl, rfl, rfl, rfl, rfl⟩

/-- `terminal_scroll_up` behind the snapshot. -/
theorem terminalScrollUp_eq (t : Terminal) (lines : Int) : terminalScrollUp t lines =
    (fun s : Terminal =>
      let s := { s with viewScroll := i32 (s.viewScroll + lines) }
      let s := if s.viewScroll > s.historyCount then { s with viewScroll := s.historyCount } else s
      if s.viewScroll > 0 then redrawScroll s else s) (takeSnapshot t) := rfl

/-- A sum that is no `int` turns negative. -/
theorem scrollUp_wraps {lines : Int} (hle : t.viewScroll < 2 ^ 31) (hint : lines < 2 ^ 31)
    (hover : 2 ^ 31 ≤ t.viewScroll + lines) : (terminalScrollUp t lines).viewScroll < 0 := by
  obtain ⟨_, _, _, _, hview, _, _, _⟩ := takeSnapshot_fields t
  have hi32 : i32 (t.viewScroll + lines) = t.viewScroll + lines - 2 ^ 32 :=
    i32_of_ge hover (by omega)
  rw [terminalScrollUp_eq]
  simp only [hview, hi32]
  have hclamp : ¬ t.viewScroll + lines - 2 ^ 32 > ((takeSnapshot t).historyCount : Int) := by omega
  simp only [if_neg hclamp, if_neg (show ¬ t.viewScroll + lines - 2 ^ 32 > 0 by omega)]
  show t.viewScroll + lines - 2 ^ 32 < 0
  omega

/-- `terminal_scroll_up`, for an amount that keeps the view in an `int`. -/
theorem scrollUp_eq (h : ViewInv t) {lines : Int} (h0 : 0 ≤ lines)
    (hint : t.viewScroll + lines < 2 ^ 31) :
    terminalScrollUp t lines = scrolledTo t (min (t.viewScroll + lines) t.historyCount) := by
  have hnn := h.nonneg
  obtain ⟨_, _, _, _, hview, hcount, _, _⟩ := takeSnapshot_fields t
  have hi32 : i32 (t.viewScroll + lines) = t.viewScroll + lines := i32_of_lt (by omega) hint
  rw [terminalScrollUp_eq]
  unfold scrolledTo
  simp only [hview, hcount, hi32]
  by_cases hc : t.viewScroll + lines > t.historyCount
  · have hmin : min (t.viewScroll + lines) (t.historyCount : Int) = t.historyCount := by omega
    simp only [if_pos hc, hmin]
  · have hmin : min (t.viewScroll + lines) (t.historyCount : Int) = t.viewScroll + lines := by omega
    simp only [if_neg hc, hmin]

/-- `terminal_scroll_down` redraws also where it ends at the live rows. -/
theorem scrollDown_eq (h : ViewInv t) {lines : Int} (h0 : 0 ≤ lines) (hint : lines < 2 ^ 31)
    (hv : t.viewScroll > 0) (hcount : t.historyCount < 2 ^ 31) :
    terminalScrollDown t lines =
      redrawScroll { t with viewScroll := max (t.viewScroll - lines) 0 } := by
  have hle := h.le
  have hi32 : i32 (t.viewScroll - lines) = t.viewScroll - lines := i32_of_lt (by omega) (by omega)
  unfold terminalScrollDown
  simp only [if_pos hv, hi32]
  by_cases hc : t.viewScroll - lines < 0
  · have hmax : max (t.viewScroll - lines) 0 = 0 := by omega
    simp only [if_pos hc, hmax]
  · have hmax : max (t.viewScroll - lines) 0 = t.viewScroll - lines := by omega
    simp only [if_neg hc, hmax]

/-- The view at any height keeps the live rows. -/
theorem scrolledTo_inv (h : ViewInv t) {v : Int} (h0 : 0 ≤ v) (hle : v ≤ t.historyCount)
    (hup : t.viewScroll = 0 ∨ 0 < v) :
    ViewInv (scrolledTo t v) ∧ (scrolledTo t v).viewScroll = v ∧
      ∀ r < vgaRows, (scrolledTo t v).liveRow r = t.liveRow r := by
  have hnn := h.nonneg
  have hsnap : ∀ r < vgaRows, _ = _ := fun r hr => takeSnapshot_row t (r := r) hr
  obtain ⟨_, _, _, hbuf, _, hcount, _, _⟩ := takeSnapshot_fields t
  unfold scrolledTo
  generalize takeSnapshot t = s at *
  by_cases hv : v > 0
  · simp only [if_pos hv]
    refine ⟨⟨h0, ?_, ?_⟩, rfl, ?_⟩
    · show v ≤ (s.historyCount : Int)
      rw [hcount]
      exact hle
    · intro _ r hr
      exact redraw_shown _ hr
    · intro r hr
      rw [liveRow_of_ne (show v ≠ 0 by omega)]
      exact hsnap r hr
  · have hz : v = 0 := by omega
    have hview : t.viewScroll = 0 := by omega
    simp only [if_neg hv]
    refine ⟨ViewInv.zero hz, trivial, ?_⟩
    intro r _
    rw [liveRow_of_zero hview, liveRow_of_zero (show v = 0 from hz)]
    unfold Terminal.row
    rw [hbuf]

theorem scrollUp_inv (h : ViewInv t) {lines : Int} (h0 : 0 ≤ lines)
    (hint : t.viewScroll + lines < 2 ^ 31) :
    ViewInv (terminalScrollUp t lines) ∧
      ∀ r < vgaRows, (terminalScrollUp t lines).liveRow r = t.liveRow r := by
  have hnn := h.nonneg
  have hle := h.le
  obtain ⟨h1, _, h2⟩ := scrolledTo_inv h (v := min (t.viewScroll + lines) t.historyCount)
    (by omega) (by omega) (by omega)
  rw [scrollUp_eq h h0 hint]
  exact ⟨h1, h2⟩

theorem scrollDown_inv (h : ViewInv t) {lines : Int} (h0 : 0 ≤ lines) (hint : lines < 2 ^ 31)
    (hcount : t.historyCount < 2 ^ 31) :
    ViewInv (terminalScrollDown t lines) ∧
      ∀ r < vgaRows, (terminalScrollDown t lines).liveRow r = t.liveRow r := by
  have hle := h.le
  by_cases hv : t.viewScroll > 0
  · rw [scrollDown_eq h h0 hint hv hcount]
    refine ⟨⟨?_, ?_, ?_⟩, ?_⟩
    · show 0 ≤ max (t.viewScroll - lines) 0
      omega
    · show max (t.viewScroll - lines) 0 ≤ (t.historyCount : Int)
      omega
    · intro _ r hr
      exact redraw_shown _ hr
    · intro r hr
      rw [liveRow_of_ne (show t.viewScroll ≠ 0 by omega)]
      by_cases hz : max (t.viewScroll - lines) 0 = 0
      · rw [liveRow_of_zero (show _ = (0 : Int) from hz)]
        exact redraw_zero hz hr
      · rw [liveRow_of_ne (show _ ≠ (0 : Int) from hz)]
        rfl
  · unfold terminalScrollDown
    rw [if_neg hv]
    exact ⟨h, fun r _ => rfl⟩

theorem scrollUp_color (t : Terminal) (lines : Int) :
    (terminalScrollUp t lines).termColor = t.termColor := by
  unfold terminalScrollUp
  simp only
  split <;> split <;> split <;> rfl

theorem scrollDown_color (t : Terminal) (lines : Int) :
    (terminalScrollDown t lines).termColor = t.termColor := by
  unfold terminalScrollDown
  split
  · show Terminal.termColor (if _ then _ else _) = _
    split <;> rfl
  · rfl

theorem scrollUp_same (h : ViewInv t) (hs : SameLive t t₀) {lines : Int} (h0 : 0 ≤ lines)
    (hint : t.viewScroll + lines < 2 ^ 31) : SameLive (terminalScrollUp t lines) t₀ := by
  obtain ⟨hrow, hcol⟩ := scrollUp_cursor t lines
  obtain ⟨_, hlive⟩ := scrollUp_inv h h0 hint
  refine ⟨by rw [hrow, hs.row], by rw [hcol, hs.col], by rw [scrollUp_color, hs.color], ?_⟩
  intro r hr
  rw [hlive r hr, hs.live r hr]

theorem scrollDown_same (h : ViewInv t) (hs : SameLive t t₀) {lines : Int} (h0 : 0 ≤ lines)
    (hint : lines < 2 ^ 31) (hcount : t.historyCount < 2 ^ 31) :
    SameLive (terminalScrollDown t lines) t₀ := by
  obtain ⟨hrow, hcol⟩ := scrollDown_cursor t lines
  obtain ⟨_, hlive⟩ := scrollDown_inv h h0 hint hcount
  refine ⟨by rw [hrow, hs.row], by rw [hcol, hs.col], by rw [scrollDown_color, hs.color], ?_⟩
  intro r hr
  rw [hlive r hr, hs.live r hr]

end MiniOS
