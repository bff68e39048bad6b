import MiniOS.Lib.TextGrid
import MiniOS.Screen.LiveRows

/-!
# The characters on the screen

Without the colours, the 24 × 80 cells and the cursor are a text grid
(`Terminal.grid`).  `typeChar` says what `terminal_putchar` does to it, and
`typeText` what it does with one byte after the other; the tab loop is a run of
blanks, and has no outcome from column 72 on.  The calls that print follow them
(`putchar_onScreen`, `write_onScreen`).

A view that is scrolled back is left by the first character, so the grid that
counts before it is that of the live rows (`liveGrid`).
-/

namespace MiniOS

open Lib TextGrid

/-- `VGA_ROWS * VGA_COLS`. -/
def screenCells : Nat := vgaRows * vgaCols

/-- The character of cell `i`. -/
def Terminal.charAt (t : Terminal) (i : Nat) : UInt8 := (t.vgaBuf i).toUInt8

/-- The characters and the cursor; below the last row there is nothing. -/
def Terminal.grid (t : Terminal) : TextGrid UInt8 where
  cell i := if i < screenCells then t.charAt i else ch ' '
  pos := t.termRow * vgaCols + t.termCol

/-- The grid once the view is back at the live rows. -/
def liveGrid (t : Terminal) : TextGrid UInt8 := (leaveScrollback t).grid

/-- `terminal_putchar` on the characters. -/
def typeChar (g : TextGrid UInt8) (c : UInt8) : Option (TextGrid UInt8) :=
  if c = ch '\n' then some (newline vgaCols screenCells g)
  else if c = ch '\r' then some (carriage vgaCols g)
  else if c = 8 then some (back (ch ' ') g)
  else if c = ch '\t' then
    if g.pos % vgaCols < 72 then
      some (puts vgaCols screenCells g (List.replicate (8 - g.pos % 8) (ch ' ')))
    else none
  else some (put vgaCols screenCells g c)

def typeText (g : TextGrid UInt8) (cs : List UInt8) : Option (TextGrid UInt8) :=
  cs.foldlM typeChar g

variable {t t' : Terminal} {g : TextGrid UInt8}

theorem makeVgaEntry_char (c color : UInt8) : (makeVgaEntry c color).toUInt8 = c := by
  have hcolor : (color.toUInt16 <<< 8).toUInt8 = 0 := by
    apply UInt8.toNat_inj.mp
    simp [UInt16.toNat_shiftLeft, Nat.shiftLeft_eq]
  unfold makeVgaEntry
  rw [UInt16.toUInt8_or, UInt8.toUInt8_toUInt16, hcolor]
  exact UInt8.zero_or

theorem grid_cell_of_lt (t : Terminal) {i : Nat} (hi : i < screenCells) :
    t.grid.cell i = t.charAt i := if_pos hi

theorem grid_cell_of_ge (t : Terminal) {i : Nat} (hi : screenCells ≤ i) :
    t.grid.cell i = ch ' ' := if_neg (Nat.not_lt.mpr hi)

/-! ## The cursor -/

theorem CursorInv.pos_lt (h : CursorInv t) : t.grid.pos < screenCells := (cell_lt_iff h.2).mpr h.1

theorem CursorInv.pos_mod (h : CursorInv t) : t.grid.pos % vgaCols = t.termCol := cell_mod h.2

theorem CursorInv.pos_div (h : CursorInv t) : t.grid.pos / vgaCols = t.termRow := cell_div h.2

theorem grid_setCursor (t : Terminal) (row col : Nat) :
    Terminal.grid { t with termRow := row, termCol := col } = ⟨t.grid.cell, row * vgaCols + col⟩ :=
  rfl

theorem liveGrid_pos (t : Terminal) : (liveGrid t).pos = t.grid.pos := by
  show (leaveScrollback t).termRow * vgaCols + (leaveScrollback t).termCol = _
  rw [leaveScrollback_row, leaveScrollback_col]
  rfl

theorem liveGrid_of_le (hv : t.viewScroll ≤ 0) : liveGrid t = t.grid := by
  unfold liveGrid
  rw [leaveScrollback_of_le hv]

theorem leaveScrollback_view (t : Terminal) : (leaveScrollback t).viewScroll ≤ 0 := by
  unfold leaveScrollback
  split
  · exact Int.le_refl 0
  · omega

/-! ## One character -/

theorem grid_putCell (hi : CursorInv t) (c : UInt8) :
    (putCell t c).grid = ⟨Function.update t.grid.cell t.grid.pos c, t.grid.pos⟩ := by
  refine TextGrid.ext ?_ rfl
  funext i
  show (if i < screenCells then (Function.update t.vgaBuf t.grid.pos _ i).toUInt8 else _) =
    Function.update t.grid.cell t.grid.pos c i
  by_cases h : i = t.grid.pos
  · rw [h, if_pos hi.pos_lt, Function.update_self, Function.update_self, makeVgaEntry_char]
  · rw [Function.update_of_ne h, Function.update_of_ne h]
    rfl

/-- `term_row++` and the scroll below the last row. -/
theorem grid_nextLine (hrow : t.termRow < vgaRows) :
    (nextLine t).grid = wrap vgaCols screenCells ⟨t.grid.cell, (t.termRow + 1) * vgaCols⟩ := by
  have h24 : vgaRows = 24 := rfl
  have h80 : vgaCols = 80 := rfl
  have hcells : screenCells = 1920 := rfl
  unfold nextLine
  by_cases hr : t.termRow + 1 ≥ vgaRows
  · have hlast : t.termRow + 1 = 24 := by omega
    simp only [if_pos hr]
    rw [hlast, wrap_of_ge (show screenCells ≤ 24 * vgaCols by decide)]
    refine TextGrid.ext ?_ rfl
    funext i
    show (if i < screenCells then UInt16.toUInt8 (if i < 23 * 80 then t.vgaBuf (i + 80)
      else if i < 24 * 80 then makeVgaEntry (ch ' ') t.termColor else t.vgaBuf i) else ch ' ') =
        t.grid.cell (i + 80)
    by_cases h1 : i < 23 * 80
    · rw [if_pos (by omega), if_pos h1, grid_cell_of_lt t (by omega)]
      rfl
    · rw [if_neg h1, grid_cell_of_ge t (by omega)]
      by_cases h2 : i < 24 * 80
      · rw [if_pos (by omega), if_pos h2, makeVgaEntry_char]
      · rw [if_neg (by omega)]
  · simp only [if_neg hr]
    rw [wrap_of_lt (show (t.termRow + 1) * vgaCols < screenCells by rw [h80]; omega)]
    rfl

theorem grid_newline (hi : CursorInv t) :
    (nextLine t).grid = newline vgaCols screenCells t.grid := by
  rw [grid_nextLine hi.1]
  unfold newline
  rw [hi.pos_div]

theorem grid_putPrintable (hi : CursorInv t) (c : UInt8) :
    (putPrintable t c).grid = put vgaCols screenCells t.grid c := by
  have hput := grid_putCell hi c
  have hcell : (putCell t c).grid.cell = Function.update t.grid.cell t.grid.pos c := by rw [hput]
  have h80 : vgaCols = 80 := rfl
  obtain ⟨hrow, hcol⟩ := hi
  unfold putPrintable TextGrid.put
  by_cases hw : t.termCol + 1 ≥ vgaCols
  · rw [if_pos (show (putCell t c).termCol + 1 ≥ vgaCols from hw),
      grid_nextLine (t := { putCell t c with termCol := (putCell t c).termCol + 1 }) hrow]
    show wrap _ _ (TextGrid.mk (putCell t c).grid.cell ((t.termRow + 1) * vgaCols)) = _
    rw [hcell]
    congr 2
    show _ = t.termRow * vgaCols + t.termCol + 1
    rw [Nat.succ_mul]
    omega
  · rw [if_neg (show ¬ (putCell t c).termCol + 1 ≥ vgaCols from hw),
      wrap_of_lt ((cell_lt_iff (c := t.termCol + 1) (by omega)).mpr hrow), ← hcell]
    rfl

theorem grid_putBackspace (hi : CursorInv t) : (putBackspace t).grid = back (ch ' ') t.grid := by
  obtain ⟨hrow, hcol⟩ := hi
  have h80 : vgaCols = 80 := rfl
  have hstep : ∀ row col, row < vgaRows → col < vgaCols → row * vgaCols + col = t.grid.pos - 1 →
      (putCell { t with termRow := row, termCol := col } (ch ' ')).grid = back (ch ' ') t.grid := by
    intro row col hr hc hpos
    rw [grid_putCell ⟨hr, hc⟩, grid_setCursor]
    unfold back
    rw [← hpos]
  have hpos : t.grid.pos = t.termRow * 80 + t.termCol := rfl
  rw [h80] at hstep hcol
  unfold putBackspace
  by_cases h1 : t.termCol > 0
  · rw [if_pos h1]
    exact hstep t.termRow (t.termCol - 1) hrow (by omega) (by omega)
  · rw [if_neg h1]
    by_cases h2 : t.termRow > 0
    · rw [if_pos h2]
      exact hstep (t.termRow - 1) 79 (by omega) (by omega) (by omega)
    · rw [if_neg h2]
      exact hstep t.termRow t.termCol hrow hcol (by omega)

theorem grid_carriage (hi : CursorInv t) :
    Terminal.grid { t with termCol := 0 } = carriage vgaCols t.grid := by
  unfold carriage
  rw [hi.pos_div]
  rfl

/-! ## What is printed -/

/-- The terminal shows the grid, on its live rows. -/
structure OnScreen (t : Terminal) (g : TextGrid UInt8) : Prop where
  cursor : CursorInv t
  view : t.viewScroll ≤ 0
  grid : t.grid = g

theorem OnScreen.live (h : OnScreen t g) : liveGrid t = g := by
  rw [liveGrid_of_le h.view, h.grid]

/-- The blanks up to a tab stop left of the right edge. -/
theorem tabLoop_onScreen {n k fuel : Nat} (hi : CursorInv t) (hv : t.viewScroll ≤ 0) (hn : n < vgaCols)
    (hk : t.termCol + k = n) (h : loop (tabBody n) fuel t = some t') :
    OnScreen t' (puts vgaCols screenCells t.grid (List.replicate k (ch ' '))) := by
  induction fuel generalizing t k with
  | zero => cases h
  | succ fuel ih =>
    cases hb : tabBody n t with
    | inl t₁ =>
      rw [loop_next hb] at h
      obtain ⟨hlt, ht₁, hi₁⟩ := tabBody_next hb hi
      rw [leaveScrollback_of_le hv] at ht₁
      obtain ⟨hcol, _⟩ := (putPrintable_spec t (ch ' ') hi).1 (by omega)
      rw [← ht₁] at hcol
      have hv₁ : t₁.viewScroll ≤ 0 := by
        rw [ht₁, putPrintable_view]
        exact hv
      obtain ⟨k, rfl⟩ : ∃ j, k = j + 1 := ⟨k - 1, by omega⟩
      have := ih (k := k) hi₁ hv₁ (by omega) h
      rw [ht₁, grid_putPrintable hi] at this
      exact this
    | inr t₁ =>
      rw [loop_done hb] at h
      cases h
      obtain ⟨hge, rfl⟩ := tabBody_done hb
      obtain rfl : k = 0 := by omega
      exact ⟨hi, hv, rfl⟩

/-- **A character.**  What is left shows what `typeChar` says. -/
theorem putchar_onScreen (safe : Prop) (fuel : Nat) (hi : CursorInv t) {c : UInt8}
    (hsafe : safe → c = ch '\t' → vgaCols ≤ fuel ∧ t.termCol < 72) :
    Yields safe (terminalPutchar fuel t c) fun t' =>
      ∃ g, typeChar (liveGrid t) c = some g ∧ OnScreen t' g := by
  have hi' := leaveScrollback_inv hi
  have hv' := leaveScrollback_view t
  unfold terminalPutchar typeChar liveGrid
  by_cases h1 : c = ch '\n'
  · simp only [if_pos h1]
    exact .some ⟨_, rfl, nextLine_inv hi', by rw [nextLine_view]; exact hv', grid_newline hi'⟩
  by_cases h2 : c = ch '\r'
  · simp only [if_neg h1, if_pos h2]
    exact .some ⟨_, rfl, ⟨hi'.1, Nat.zero_lt_succ 79⟩, hv', grid_carriage hi'⟩
  by_cases h3 : c = 8
  · simp only [if_neg h1, if_neg h2, if_pos h3]
    exact .some ⟨_, rfl, putBackspace_inv hi', by rw [putBackspace_view]; exact hv',
      grid_putBackspace hi'⟩
  by_cases h4 : c = ch '\t'
  · simp only [if_neg h1, if_neg h2, if_neg h3, if_pos h4]
    have hcol' := leaveScrollback_col t
    have h80 : vgaCols = 80 := rfl
    have hlt := hi'.2
    rw [hi'.pos_mod]
    generalize leaveScrollback t = u at *
    rw [nextTab_eq _ hlt]
    have hmod : u.grid.pos % 8 = u.termCol % 8 := by
      show (u.termRow * 80 + u.termCol) % 8 = _
      omega
    constructor
    · intro t' ht'
      by_cases hcol : u.termCol < 72
      · rw [if_pos hcol]
        exact ⟨_, rfl, tabLoop_onScreen hi' hv' (by omega) (by omega) ht'⟩
      · rw [show (u.termCol / 8 + 1) * 8 = vgaCols by omega, tabLoop_diverges hi'] at ht'
        cases ht'
    · intro hs
      obtain ⟨hfuel, hcol⟩ := hsafe hs h4
      obtain ⟨t', ht', _⟩ := tabLoop_returns (n := (u.termCol / 8 + 1) * 8)
        (by omega) (show _ < fuel by omega) hi' (by omega)
      exact ⟨t', ht'⟩
  · simp only [if_neg h1, if_neg h2, if_neg h3, if_neg h4]
    exact .some ⟨_, rfl, (putPrintable_spec _ _ hi').2.2, by rw [putPrintable_view]; exact hv',
      grid_putPrintable hi' c⟩

theorem typeText_cons (g : TextGrid UInt8) (c : UInt8) (cs : List UInt8) :
    typeText g (c :: cs) = (typeChar g c).bind fun g => typeText g cs := List.foldlM_cons

theorem typeText_append (g : TextGrid UInt8) (as bs : List UInt8) :
    typeText g (as ++ bs) = (typeText g as).bind fun g => typeText g bs := List.foldlM_append

theorem typeChar_pos_lt (hpos : g.pos < screenCells) {c : UInt8} {g' : TextGrid UInt8}
    (h : typeChar g c = some g') : g'.pos < screenCells := by
  have h80 : 0 < vgaCols := by decide
  have hle : vgaCols ≤ screenCells := by decide
  unfold typeChar at h
  split at h
  · cases h
    exact newline_pos_lt h80 (by decide) hpos
  split at h
  · cases h
    exact Nat.lt_of_le_of_lt (Nat.div_mul_le_self _ _) hpos
  split at h
  · cases h
    exact Nat.lt_of_le_of_lt (Nat.sub_le _ _) hpos
  split at h
  · split at h
    · cases h
      exact puts_pos_lt h80 hle hpos _
    · cases h
  · cases h
    exact put_pos_lt h80 hle hpos c

theorem typeText_pos_lt (hpos : g.pos < screenCells) {cs : List UInt8} {g' : TextGrid UInt8}
    (h : typeText g cs = some g') : g'.pos < screenCells := by
  induction cs generalizing g with
  | nil =>
    cases h
    exact hpos
  | cons c cs ih =>
    obtain ⟨g₁, h1, h2⟩ := Option.bind_eq_some_iff.mp h
    exact ih (typeChar_pos_lt hpos h1) h2

theorem typeChar_returns (g : TextGrid UInt8) {c : UInt8} (hc : c ≠ ch '\t') :
    ∃ g', typeChar g c = some g' := by
  unfold typeChar
  rw [if_neg hc]
  split
  · exact ⟨_, rfl⟩
  split
  · exact ⟨_, rfl⟩
  split
  · exact ⟨_, rfl⟩
  · exact ⟨_, rfl⟩

theorem typeText_singleton (g : TextGrid UInt8) (c : UInt8) : typeText g [c] = typeChar g c := by
  rw [typeText_cons]
  exact Option.bind_fun_some _

/-- A tab has an outcome left of column 72 only. -/
theorem typeChar_tab {c : UInt8} (hc : c = ch '\t') {g' : TextGrid UInt8}
    (h : typeChar g c = some g') : g.pos % vgaCols < 72 := by
  subst hc
  by_contra hge
  have : typeChar g (ch '\t') = none := by
    show (if g.pos % vgaCols < 72 then _ else none) = none
    exact if_neg hge
  rw [this] at h
  cases h

/-- **Bytes**, one after the other. -/
theorem write_onScreen (safe : Prop) (fuel : Nat) (h : OnScreen t g) {cs : List UInt8}
    (hsafe : safe → vgaCols ≤ fuel ∧ ∃ g', typeText g cs = some g') :
    Yields safe (terminalWrite fuel t cs) fun t' => ∃ g', typeText g cs = some g' ∧ OnScreen t' g' := by
  induction cs generalizing t g with
  | nil => exact .some ⟨g, rfl, h⟩
  | cons c cs ih =>
    have hput := putchar_onScreen safe fuel (c := c) h.cursor ?_
    · rw [h.live] at hput
      rw [terminalWrite]
      refine hput.bind ?_
      rintro t₁ ⟨g₁, hg₁, h₁⟩
      rw [typeText_cons, hg₁] at hsafe ⊢
      exact ih h₁ hsafe
    · intro hs hc
      obtain ⟨hfuel, g', hg'⟩ := hsafe hs
      obtain ⟨g₁, hg₁, _⟩ := Option.bind_eq_some_iff.mp hg'
      have := typeChar_tab hc hg₁
      rw [← h.grid, h.cursor.pos_mod] at this
      exact ⟨hfuel, this⟩

/-! ## Calls -/

def runCalls (fuel : Nat) (t : Terminal) (calls : List TerminalCall) : Option Terminal :=
  calls.foldlM (TerminalCall.run fuel) t

/-- The bytes a call prints. -/
def TerminalCall.bytes : TerminalCall → List UInt8
  | .putchar c => [c]
  | .write data => data
  | .writestring s | .writecolor s _ _ => str s
  | _ => []

/-- The calls that print, or set the colour to print in. -/
def TerminalCall.Prints : TerminalCall → Prop
  | .setcolor _ _ | .putchar _ | .write _ | .writestring _ => True
  | _ => False

theorem call_onScreen (safe : Prop) (fuel : Nat) (h : OnScreen t g) {call : TerminalCall}
    (hcall : call.Prints)
    (hsafe : safe → vgaCols ≤ fuel ∧ ∃ g', typeText g call.bytes = some g') :
    Yields safe (call.run fuel t) fun t' =>
      ∃ g', typeText g call.bytes = some g' ∧ OnScreen t' g' := by
  cases call with
  | setcolor fg bg => exact .some ⟨g, rfl, h.cursor, h.view, h.grid⟩
  | putchar c =>
    have hone : terminalWrite fuel t [c] = TerminalCall.run fuel t (.putchar c) :=
      Option.bind_fun_some _
    rw [← hone]
    exact write_onScreen safe fuel h hsafe
  | write data => exact write_onScreen safe fuel h hsafe
  | writestring s =>
    rw [TerminalCall.run, writestring_eq_write]
    exact write_onScreen safe fuel h hsafe
  | init | clear | writecolor _ _ _ | setcursor _ _ | scrollUp _ | scrollDown _ => cases hcall

/-- **Calls**, one after the other. -/
theorem runCalls_onScreen (safe : Prop) (fuel : Nat) (h : OnScreen t g)
    {calls : List TerminalCall}
    (hcalls : ∀ call ∈ calls, call.Prints)
    (hsafe : safe → vgaCols ≤ fuel ∧ ∃ g', typeText g (calls.flatMap TerminalCall.bytes) = some g') :
    Yields safe (runCalls fuel t calls) fun t' =>
      ∃ g', typeText g (calls.flatMap TerminalCall.bytes) = some g' ∧ OnScreen t' g' := by
  induction calls generalizing t g with
  | nil => exact .some ⟨g, rfl, h⟩
  | cons call calls ih =>
    rw [List.forall_mem_cons] at hcalls
    have hfirst := call_onScreen safe fuel h hcalls.1 ?_
    · unfold runCalls
      rw [List.foldlM_cons]
      refine hfirst.bind ?_
      rintro t₁ ⟨g₁, hg₁, h₁⟩
      rw [List.flatMap_cons, typeText_append, hg₁] at hsafe ⊢
      exact ih h₁ hcalls.2 hsafe
    · intro hs
      obtain ⟨hfuel, g', hg'⟩ := hsafe hs
      rw [List.flatMap_cons, typeText_append] at hg'
      obtain ⟨g₁, hg₁, _⟩ := Option.bind_eq_some_iff.mp hg'
      exact ⟨hfuel, g₁, hg₁⟩

/-- The screen after `terminal_clear`. -/
def blankGrid : TextGrid UInt8 := ⟨fun _ => ch ' ', 0⟩

theorem clear_onScreen (t : Terminal) : OnScreen (terminalClear t) blankGrid := by
  refine ⟨terminalClear_inv t, leaveScrollback_view t, TextGrid.ext ?_ rfl⟩
  funext i
  by_cases hi : i < screenCells
  · rw [grid_cell_of_lt _ hi]
    have h25 : i < vgaRowsMax * vgaCols := Nat.lt_of_lt_of_le hi (by decide)
    show UInt16.toUInt8 (if i < vgaRowsMax * vgaCols then makeVgaEntry (ch ' ') _ else _) = ch ' '
    rw [if_pos h25, makeVgaEntry_char]
  · exact grid_cell_of_ge _ (Nat.le_of_not_lt hi)

/-! ## The same characters -/

/-- The same characters in all cells, and the same cursor. -/
def SameCharacters (t t' : Terminal) : Prop :=
  (∀ i < vgaRows * vgaCols, t.charAt i = t'.charAt i) ∧
    t.termRow = t'.termRow ∧ t.termCol = t'.termCol

theorem sameCharacters_iff (h : CursorInv t) (h' : CursorInv t') :
    SameCharacters t t' ↔ t.grid = t'.grid := by
  constructor
  · rintro ⟨hchars, hrow, hcol⟩
    refine TextGrid.ext ?_ ?_
    · funext i
      by_cases hi : i < screenCells
      · rw [grid_cell_of_lt t hi, grid_cell_of_lt t' hi]
        exact hchars i hi
      · rw [grid_cell_of_ge t (Nat.le_of_not_lt hi), grid_cell_of_ge t' (Nat.le_of_not_lt hi)]
    · show t.termRow * vgaCols + t.termCol = t'.termRow * vgaCols + t'.termCol
      rw [hrow, hcol]
  · intro hg
    refine ⟨?_, ?_, ?_⟩
    · intro i hi
      rw [← grid_cell_of_lt t hi, hg]
      exact grid_cell_of_lt t' hi
    · rw [← h.pos_div, hg, h'.pos_div]
    · rw [← h.pos_mod, hg, h'.pos_mod]

end MiniOS
