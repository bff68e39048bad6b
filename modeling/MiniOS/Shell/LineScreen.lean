import MiniOS.Screen.Characters
import MiniOS.Shell.LineRefinement

/-!
# The line on the screen

The command line stands in the cells around the cursor: the text before it ends
in the cell before, the text after it starts in its cell (`LineAt`).  Each key
reprints what it moves and puts the cursor back by row and column.

The cell that `shell_readline` works out for an inserted character is right as
long as the line before it does not fill the screen to its last cell with text
behind the cursor: the reprint then moves the rows up, and the cursor is left one
row too low (`KeepsLine`).  With any other keys the screen shows the line
(`line_mirrored`).
-/

namespace MiniOS

open Lib TextGrid

variable {g : TextGrid UInt8} {l : Line UInt8}

/-! ## A line on the grid -/

/-- The line stands around the cursor, and ends above the last cell. -/
def LineAt (g : TextGrid UInt8) (l : Line UInt8) : Prop :=
  ∃ p, g.pos = p + l.before.length ∧ Shows g.cell p l.text ∧ p + l.text.length < screenCells

theorem LineAt.behind (h : LineAt g l) : Behind g l.before := by
  obtain ⟨p, hp, hshows, _⟩ := h
  exact ⟨p, hp, (shows_append.mp hshows).1⟩

theorem LineAt.pos_lt (h : LineAt g l) : g.pos + l.after.length < screenCells := by
  obtain ⟨p, hp, _, hroom⟩ := h
  rw [l.length_text] at hroom
  omega

/-- The cursor, back from the end of the text and `xs`. -/
theorem LineAt.of_behind {xs : List UInt8} (h : Behind g (l.text ++ xs))
    (hpos : g.pos < screenCells) :
    LineAt ⟨g.cell, g.pos - (l.after.length + xs.length)⟩ l := by
  obtain ⟨p, hp, hshows⟩ := h
  rw [List.length_append] at hp
  have hlen := l.length_text
  refine ⟨p, ?_, (shows_append.mp hshows).1, by omega⟩
  show g.pos - (l.after.length + xs.length) = p + l.before.length
  omega

/-- The cursor moved within the text. -/
theorem LineAt.move {l' : Line UInt8} (h : LineAt g l) (ht : l'.text = l.text) {q : Nat}
    (hq : q + l.before.length = g.pos + l'.before.length) : LineAt ⟨g.cell, q⟩ l' := by
  obtain ⟨p, hp, hshows, hroom⟩ := h
  refine ⟨p, ?_, by rw [ht]; exact hshows, by rw [ht]; exact hroom⟩
  show q = p + l'.before.length
  omega

/-- Text of a line, put behind text that ends at the cursor. -/
theorem behind_puts {xs ys : List UInt8} (h : Behind g xs) (hpos : g.pos < screenCells)
    (hlen : xs.length + ys.length ≤ 256) :
    Behind (puts vgaCols screenCells g ys) (xs ++ ys) := by
  have h80 : vgaCols = 80 := rfl
  have hcells : screenCells = 1920 := rfl
  exact h.puts (by decide) hpos (by omega)

theorem pos_puts_lt (hpos : g.pos < screenCells) (xs : List UInt8) :
    (puts vgaCols screenCells g xs).pos < screenCells :=
  puts_pos_lt (by decide) (by decide) hpos xs

/-- **Insert.**  The text is reprinted from the cursor on. -/
theorem LineAt.insert (h : LineAt g l) (hlen : l.text.length < 255) (c : UInt8) :
    LineAt ⟨(puts vgaCols screenCells g (c :: l.after)).cell,
      (puts vgaCols screenCells g (c :: l.after)).pos - l.after.length⟩ (l.insert c) := by
  have htext := l.length_text
  have hpos := h.pos_lt
  have hbehind : Behind (puts vgaCols screenCells g (c :: l.after)) (l.before ++ c :: l.after) :=
    behind_puts h.behind (by omega) (by rw [List.length_cons]; omega)
  have hins : (l.insert c).text ++ [] = l.before ++ c :: l.after := by
    rw [List.append_nil]
    exact (List.append_cons l.before c l.after).symm
  rw [← hins] at hbehind
  exact of_behind hbehind (pos_puts_lt (by omega) _)

/-- Where the cursor belongs: one cell on, or at the start of the last row. -/
theorem insert_pos (hpos : g.pos + l.after.length < screenCells) (c : UInt8)
    (hkeep : l.after = [] ∨ g.pos + l.after.length + 1 < screenCells) :
    (puts vgaCols screenCells g (c :: l.after)).pos - l.after.length =
      if g.pos + 1 < screenCells then g.pos + 1 else screenCells - vgaCols := by
  by_cases hfit : g.pos + l.after.length + 1 < screenCells
  · obtain ⟨hend, _⟩ := puts_fits (W := vgaCols)
      (show g.pos + (c :: l.after).length < screenCells by rw [List.length_cons]; omega)
    rw [hend, List.length_cons, if_pos (by omega)]
    omega
  · have hnil : l.after = [] := hkeep.resolve_right hfit
    rw [hnil, List.length_nil] at hfit ⊢
    rw [puts_cons, puts_nil, TextGrid.put_last (by omega), if_neg (by omega)]
    rfl

/-- A row higher than one cell on: the last cell has been filled. -/
theorem insert_pos_last (hlast : g.pos + l.after.length + 1 = screenCells) (c : UInt8) :
    (puts vgaCols screenCells g (c :: l.after)).pos - l.after.length = g.pos + 1 - vgaCols := by
  rw [puts_pos_last (List.cons_ne_nil _ _) (by rw [List.length_cons]; omega)]
  omega

/-- **Backspace.**  A blank behind the text wipes its last character. -/
theorem LineAt.backspace (h : LineAt g l) (hlen : l.text.length ≤ 255) (hne : l.before ≠ []) :
    LineAt ⟨(puts vgaCols screenCells (back (ch ' ') g) (l.after ++ [ch ' '])).cell, g.pos - 1⟩
      l.backspace := by
  have htext := l.length_text
  have hpos := h.pos_lt
  have hlt := List.length_pos_iff.mpr hne
  have hdrop : l.before.dropLast.length = l.before.length - 1 := List.length_dropLast
  obtain ⟨p, hp, hshows⟩ := h.behind
  have hback : (back (ch ' ') g).pos = g.pos - 1 := rfl
  have hlen' : (l.after ++ [ch ' ']).length = l.after.length + 1 := by
    rw [List.length_append, List.length_singleton]
  have hbehind : Behind (back (ch ' ') g) l.before.dropLast := by
    rw [← List.dropLast_append_getLast hne, shows_append] at hshows
    refine ⟨p, by omega, hshows.1.congr fun i _ hi => ?_⟩
    exact Function.update_of_ne (by omega) _ _
  have hputs : Behind (puts vgaCols screenCells (back (ch ' ') g) (l.after ++ [ch ' ']))
      (l.backspace.text ++ [ch ' ']) := by
    rw [show l.backspace.text = l.before.dropLast ++ l.after from rfl, List.append_assoc]
    exact behind_puts hbehind (by omega) (by omega)
  obtain ⟨hend, _⟩ := puts_fits (W := vgaCols)
    (show (back (ch ' ') g).pos + (l.after ++ [ch ' ']).length < screenCells by omega)
  have hline := LineAt.of_behind hputs (pos_puts_lt (by omega) _)
  rw [hend, hlen', List.length_singleton, show l.backspace.after = l.after from rfl,
    Nat.add_sub_cancel] at hline
  exact hline

/-- **A new line** behind the cursor. -/
theorem lineAt_puts (hpos : g.pos < screenCells) {s : List UInt8} (hlen : s.length ≤ 255) :
    LineAt (puts vgaCols screenCells g s) (Line.atEnd s) := by
  have hbehind : Behind (puts vgaCols screenCells g s) ((Line.atEnd s).text ++ []) := by
    rw [List.append_nil, Line.text_atEnd]
    exact behind_puts (behind_nil g) hpos (by rw [List.length_nil]; omega)
  exact LineAt.of_behind hbehind (pos_puts_lt hpos s)

/-! ## What is echoed -/

variable {n fuel i k : Nat} {t t' t'' : Terminal} {xs ys : List UInt8} {c : UInt8}

/-- `xs` is put on the live rows, and a view that is scrolled back is left. -/
structure Echoes (t : Terminal) (xs : List UInt8) (t' : Terminal) : Prop where
  cursor : CursorInv t'
  grid : liveGrid t' = puts vgaCols screenCells (liveGrid t) xs
  view : xs ≠ [] ∨ t.viewScroll ≤ 0 → t'.viewScroll ≤ 0

theorem Echoes.nil (hi : CursorInv t) : Echoes t [] t :=
  ⟨hi, rfl, fun h => h.resolve_left (fun hne => hne rfl)⟩

theorem Echoes.append (h : Echoes t xs t') (h' : Echoes t' ys t'') : Echoes t (xs ++ ys) t'' := by
  refine ⟨h'.cursor, by rw [h'.grid, h.grid, puts_append], fun hview => ?_⟩
  by_cases hys : ys = []
  · rw [hys, List.append_nil] at hview
    exact h'.view (.inr (h.view hview))
  · exact h'.view (.inl hys)

theorem typeChar_printable (g : TextGrid UInt8) (hc : IsPrintable c) :
    typeChar g c = some (put vgaCols screenCells g c) := by
  unfold typeChar
  rw [if_neg (hc.ne_of_lt (by decide)), if_neg (hc.ne_of_lt (by decide)),
    if_neg (hc.ne_of_lt (by decide)), if_neg (hc.ne_of_lt (by decide))]

theorem putchar_echoes (hi : CursorInv t) (hc : IsPrintable c)
    (h : terminalPutchar fuel t c = some t') : Echoes t [c] t' := by
  obtain ⟨g, hg, ht'⟩ := (putchar_onScreen False fuel hi False.elim).correct t' h
  rw [typeChar_printable _ hc] at hg
  cases hg
  exact ⟨ht'.cursor, ht'.live, fun _ => ht'.view⟩

theorem echoChars_echoes {buf : Chars n} (hi : CursorInv t) (hxs : ∀ c ∈ xs, IsPrintable c)
    (hbuf : Shows buf.get i xs) (h : echoChars fuel buf i xs.length t = some t') :
    Echoes t xs t' := by
  induction xs generalizing t i with
  | nil =>
    cases h
    exact .nil hi
  | cons x xs ih =>
    rw [List.forall_mem_cons] at hxs
    rw [show x :: xs = [x] ++ xs from rfl, shows_append, shows_singleton] at hbuf
    obtain ⟨t₁, h1, h2⟩ := Option.bind_eq_some_iff.mp h
    rw [hbuf.1] at h1
    have hput := putchar_echoes hi hxs.1 h1
    exact hput.append (ih hput.cursor hxs.2 hbuf.2 h2)

theorem write_echoes (hi : CursorInv t) (hxs : ∀ c ∈ xs, IsPrintable c)
    (h : terminalWrite fuel t xs = some t') : Echoes t xs t' := by
  induction xs generalizing t with
  | nil =>
    cases h
    exact .nil hi
  | cons x xs ih =>
    rw [List.forall_mem_cons] at hxs
    obtain ⟨t₁, h1, h2⟩ := Option.bind_eq_some_iff.mp h
    have hput := putchar_echoes hi hxs.1 h1
    exact hput.append (ih hput.cursor hxs.2 h2)

/-- The bytes of a line that an array holds. -/
theorem holds_shows {buf : Chars n} (h : Holds buf l) : Shows buf.get 0 l.text := by
  obtain ⟨rest, hb⟩ := h.bytes
  intro j x hj
  obtain ⟨hlt, _⟩ := List.getElem?_eq_some_iff.mp hj
  rw [Nat.zero_add]
  unfold Chars.get
  rw [hb, List.getD_eq_getElem?_getD, List.getElem?_append_left hlt, hj]
  rfl

theorem holds_shows_after {buf : Chars n} (h : Holds buf l) :
    Shows buf.get l.before.length l.after := by
  have := (shows_append.mp (holds_shows h)).2
  rw [Nat.zero_add] at this
  exact this

/-! ## Cells -/

/-- The number of a cell in row-major order. -/
def cellPos (cell : Nat × Nat) : Nat := cell.1 * vgaCols + cell.2

def OnGrid (cell : Nat × Nat) : Prop := cell.1 < vgaRows ∧ cell.2 < vgaCols

variable {cell : Nat × Nat}

theorem cell_pos (t : Terminal) : cellPos t.cell = (liveGrid t).pos := (liveGrid_pos t).symm

theorem setCell_eq (t : Terminal) (h : OnGrid cell) :
    setCell t cell = { t with termRow := cell.1, termCol := cell.2 } := by
  obtain ⟨hrow, hcol⟩ := h
  unfold setCell terminalSetcursor
  simp only [if_pos (show (cell.1 : Int) ≥ 0 ∧ (cell.1 : Int) < vgaRows by omega),
    if_pos (show (cell.2 : Int) ≥ 0 ∧ (cell.2 : Int) < vgaCols by omega), Int.toNat_natCast]

theorem setCell_liveGrid (t : Terminal) (h : OnGrid cell) :
    liveGrid (setCell t cell) = ⟨(liveGrid t).cell, cellPos cell⟩ := by
  rw [setCell_eq t h]
  unfold liveGrid leaveScrollback
  split
  · rfl
  · rfl

theorem setCell_cursor (t : Terminal) (h : OnGrid cell) : CursorInv (setCell t cell) := by
  rw [setCell_eq t h]
  exact h

theorem setCell_view (t : Terminal) (h : OnGrid cell) :
    (setCell t cell).viewScroll = t.viewScroll := by
  rw [setCell_eq t h]

theorem cellBefore_spec (h : OnGrid cell) (hpos : 0 < cellPos cell) :
    OnGrid (cellBefore cell) ∧ cellPos (cellBefore cell) = cellPos cell - 1 := by
  have h80 : vgaCols = 80 := rfl
  obtain ⟨r, col⟩ := cell
  obtain ⟨hrow, hcol⟩ := h
  unfold cellPos OnGrid cellBefore at *
  simp only [h80] at *
  by_cases hc : col > 0
  · rw [if_pos hc]
    exact ⟨⟨hrow, by omega⟩, by omega⟩
  · rw [if_neg hc, if_pos (show r > 0 by omega)]
    exact ⟨⟨by omega, by omega⟩, by omega⟩

theorem cellBefore_iterate (h : OnGrid cell) (hk : k ≤ cellPos cell) :
    OnGrid (cellBefore^[k] cell) ∧ cellPos (cellBefore^[k] cell) = cellPos cell - k := by
  induction k generalizing cell with
  | zero => exact ⟨h, rfl⟩
  | succ k ih =>
    obtain ⟨h1, hpos⟩ := cellBefore_spec h (by omega)
    obtain ⟨h2, hpos'⟩ := ih h1 (by omega)
    rw [Function.iterate_succ_apply]
    exact ⟨h2, by omega⟩

theorem cellAfter_spec (h : OnGrid cell) (hpos : cellPos cell + 1 < screenCells) :
    OnGrid (cellAfter cell) ∧ cellPos (cellAfter cell) = cellPos cell + 1 := by
  have h80 : vgaCols = 80 := rfl
  have h24 : vgaRows = 24 := rfl
  have hcells : screenCells = 1920 := rfl
  obtain ⟨r, col⟩ := cell
  obtain ⟨hrow, hcol⟩ := h
  unfold cellPos OnGrid cellAfter at *
  simp only [h80, h24] at *
  by_cases hc : col < 79
  · rw [if_pos hc]
    exact ⟨⟨hrow, by omega⟩, by omega⟩
  · rw [if_neg hc]
    exact ⟨⟨by omega, by omega⟩, by omega⟩

/-- One cell on, and from the last cell to the start of the last row. -/
theorem cellTyped_spec (h : OnGrid cell) : OnGrid (cellTyped cell) ∧
    cellPos (cellTyped cell) =
      if cellPos cell + 1 < screenCells then cellPos cell + 1 else screenCells - vgaCols := by
  have h80 : vgaCols = 80 := rfl
  have h24 : vgaRows = 24 := rfl
  have hcells : screenCells = 1920 := rfl
  obtain ⟨r, col⟩ := cell
  obtain ⟨hrow, hcol⟩ := h
  unfold cellPos OnGrid cellTyped at *
  simp only [h80, h24, hcells] at *
  by_cases hc : col + 1 ≥ 80
  · simp only [if_pos hc]
    by_cases hr : r + 1 ≥ 24
    · rw [if_pos hr, if_neg (by omega)]
      exact ⟨⟨by omega, by omega⟩, by omega⟩
    · rw [if_neg hr, if_pos (by omega)]
      exact ⟨⟨by omega, by omega⟩, by omega⟩
  · simp only [if_neg hc]
    rw [if_neg (by omega), if_pos (by omega)]
    exact ⟨⟨by omega, by omega⟩, by omega⟩

/-! ## Keys -/

/-- The screen shows the line around the cursor; an empty line may still be scrolled back. -/
structure LineOn (t : Terminal) (l : Line UInt8) : Prop where
  cursor : CursorInv t
  view : l.text ≠ [] → t.viewScroll ≤ 0
  line : LineAt (liveGrid t) l

/-- The cursor set to a cell of the line. -/
theorem LineOn.setCell (hcell : OnGrid cell) (hview : l.text ≠ [] → t.viewScroll ≤ 0)
    (hline : LineAt ⟨(liveGrid t).cell, cellPos cell⟩ l) : LineOn (setCell t cell) l :=
  ⟨setCell_cursor t hcell, fun hne => by rw [setCell_view t hcell]; exact hview hne,
    by rw [setCell_liveGrid t hcell]; exact hline⟩

variable {h : ShellHistory} {e e' : LineEdit inputMax} {i : IdealEditor}

/-- What a key handler starts from. -/
structure LineInv (h : ShellHistory) (e : LineEdit inputMax) (i : IdealEditor) : Prop where
  edits : Edits h e i
  printable : ∀ c ∈ i.line.text, IsPrintable c
  screen : LineOn e.term i.line

theorem LineInv.onGrid (hi : LineInv h e i) : OnGrid e.term.cell := hi.screen.cursor

theorem LineInv.bounds (hi : LineInv h e i) : i.line.before.length ≤ cellPos e.term.cell ∧
    cellPos e.term.cell + i.line.after.length < screenCells := by
  rw [cell_pos]
  obtain ⟨p, hp, _⟩ := hi.screen.line.behind
  exact ⟨by omega, hi.screen.line.pos_lt⟩

theorem lineLeft_on (hi : LineInv h e i) : LineOn (lineLeft e).term i.line.left := by
  have hcur := hi.edits.cursorPos
  have hpos := hi.bounds.1
  unfold lineLeft
  by_cases hnil : i.line.before = []
  · rw [Line.left_nil hnil, if_neg (by rw [hcur, hnil]; exact Int.lt_irrefl 0)]
    exact hi.screen
  · have hlt := List.length_pos_iff.mpr hnil
    obtain ⟨xs, c, hl⟩ := Line.eq_snoc hnil
    have hleft : i.line.left.before.length + 1 = i.line.before.length := by
      rw [hl, Line.left_snoc, List.length_append, List.length_singleton]
    obtain ⟨hcell, hcpos⟩ := cellBefore_spec hi.onGrid (by omega)
    rw [if_pos (by omega)]
    refine .setCell hcell (fun hne => hi.screen.view (by rw [← i.line.text_left]; exact hne)) ?_
    refine hi.screen.line.move i.line.text_left ?_
    rw [hcpos, ← cell_pos]
    omega

theorem lineRight_on (hi : LineInv h e i) : LineOn (lineRight e).term i.line.right := by
  have hlen := i.line.length_text
  have hcur := hi.edits.cursorPos
  have hll := hi.edits.lineLen
  have hpos := hi.bounds.2
  unfold lineRight
  cases hafter : i.line.after with
  | nil =>
    rw [hafter, List.length_nil] at hlen
    have hright : i.line.right = i.line := by
      unfold Line.right
      rw [hafter]
    rw [hright, if_neg (by omega)]
    exact hi.screen
  | cons c after =>
    rw [hafter, List.length_cons] at hlen hpos
    have hright : i.line.right.before.length = i.line.before.length + 1 := by
      unfold Line.right
      rw [hafter, List.length_append, List.length_singleton]
    obtain ⟨hcell, hcpos⟩ := cellAfter_spec hi.onGrid (by omega)
    rw [if_pos (by omega)]
    refine .setCell hcell (fun hne => hi.screen.view (by rw [← i.line.text_right]; exact hne)) ?_
    refine hi.screen.line.move i.line.text_right ?_
    rw [hcpos, ← cell_pos]
    omega

theorem lineBackspace_on (hi : LineInv h e i) (hk : lineBackspace fuel e = some e') :
    LineOn e'.term i.line.backspace := by
  have hedits := (lineBackspace_edits hi.edits).correct e' hk
  have hlen := i.line.length_text
  have hcur := hi.edits.cursorPos
  have hll := hi.edits.lineLen
  have h255 : i.line.text.length < 256 := hi.edits.holds.length_lt
  unfold lineBackspace at hk
  by_cases hnil : i.line.before = []
  · rw [if_neg (by rw [hcur, hnil]; exact Int.lt_irrefl 0)] at hk
    cases hk
    rw [Line.backspace_nil hnil]
    exact hi.screen
  · have hlt := List.length_pos_iff.mpr hnil
    have hbefore : i.line.backspace.before.length = i.line.before.length - 1 :=
      List.length_dropLast
    have h1 : (e.cursorPos - 1).toNat = i.line.backspace.before.length := by omega
    have h2 : (e.lineLen - 1 - (e.cursorPos - 1)).toNat = i.line.backspace.after.length := by
      show _ = i.line.after.length
      omega
    rw [if_pos (by omega)] at hk
    simp only [h1, h2] at hk
    obtain ⟨b₁, _, hk⟩ := Option.bind_eq_some_iff.mp hk
    obtain ⟨b₂, _, hk⟩ := Option.bind_eq_some_iff.mp hk
    obtain ⟨t₁, ht₁, hk⟩ := Option.bind_eq_some_iff.mp hk
    obtain ⟨t₂, ht₂, hk⟩ := Option.bind_eq_some_iff.mp hk
    obtain ⟨t₃, ht₃, hk⟩ := Option.bind_eq_some_iff.mp hk
    cases hk
    obtain ⟨g, hg, hs₁⟩ :=
      (putchar_onScreen False fuel hi.screen.cursor False.elim).correct t₁ ht₁
    cases hg
    have hafter : ∀ c ∈ i.line.backspace.after, IsPrintable c :=
      fun c hc => hi.printable c (List.mem_append_right _ hc)
    have htail := echoChars_echoes hs₁.cursor hafter (holds_shows_after hedits.holds) ht₂
    have hblank := putchar_echoes htail.cursor (c := ch ' ') ⟨by decide, by decide⟩ ht₃
    have hecho := htail.append hblank
    have hgrid := hecho.grid
    rw [hs₁.live] at hgrid
    have hback : LineAt ⟨(liveGrid t₃).cell, (liveGrid e.term).pos - 1⟩ i.line.backspace := by
      rw [hgrid]
      exact hi.screen.line.backspace (by omega) hnil
    have hcell : cellPos t₁.cell = (liveGrid e.term).pos - 1 := by
      rw [cell_pos, hs₁.live]
      rfl
    rw [← hcell] at hback
    exact .setCell hs₁.cursor (fun _ => hecho.view (.inr hs₁.view)) hback

/-- **An inserted character.**  The line stands around the cell `insert_pos` is about, and the
cursor is put in the cell `cellTyped` says. -/
theorem lineInsert_on (hi : LineInv h e i) (hc : IsPrintable c) (hroom : i.line.text.length < 255)
    (hk : linePrintable fuel inputMax c e = some e') :
    CursorInv e'.term ∧ e'.term.viewScroll ≤ 0 ∧
      cellPos e'.term.cell = (if cellPos e.term.cell + 1 < screenCells then
        cellPos e.term.cell + 1 else screenCells - vgaCols) ∧
      LineAt ⟨(liveGrid e'.term).cell,
        (puts vgaCols screenCells (liveGrid e.term) (c :: i.line.after)).pos -
          i.line.after.length⟩ (i.line.insert c) := by
  have hedits := (linePrintable_edits hi.edits hc.1).correct e' hk
  have hlen := i.line.length_text
  have hcur := hi.edits.cursorPos
  have hll := hi.edits.lineLen
  have hmax : i32 inputMax - 1 = 255 := by decide
  have h1 : e.cursorPos.toNat = i.line.before.length := by omega
  have h2 : (e.lineLen + 1 - e.cursorPos).toNat = (c :: i.line.after).length := by
    rw [List.length_cons]
    omega
  unfold linePrintable at hk
  rw [hmax, if_pos (by omega)] at hk
  simp only [h1, h2] at hk
  obtain ⟨b₁, _, hk⟩ := Option.bind_eq_some_iff.mp hk
  obtain ⟨b₂, _, hk⟩ := Option.bind_eq_some_iff.mp hk
  obtain ⟨b₃, _, hk⟩ := Option.bind_eq_some_iff.mp hk
  obtain ⟨t₁, ht₁, hk⟩ := Option.bind_eq_some_iff.mp hk
  cases hk
  have htail : ∀ x ∈ c :: i.line.after, IsPrintable x := by
    rw [List.forall_mem_cons]
    exact ⟨hc, fun x hx => hi.printable x (List.mem_append_right _ hx)⟩
  have hshows : Shows b₃.get i.line.before.length (c :: i.line.after) := by
    have hholds := hedits.holds
    simp only [IdealEditor.key, if_pos hroom] at hholds
    have := holds_shows hholds
    rw [show (i.line.insert c).text = i.line.before ++ c :: i.line.after from
      (List.append_cons _ _ _).symm, shows_append, Nat.zero_add] at this
    exact this.2
  have hecho := echoChars_echoes hi.screen.cursor htail hshows ht₁
  obtain ⟨hcell, hcpos⟩ := cellTyped_spec hi.onGrid
  refine ⟨setCell_cursor t₁ hcell, ?_, ?_, ?_⟩
  · rw [setCell_view t₁ hcell]
    exact hecho.view (.inl (List.cons_ne_nil _ _))
  · rw [cell_pos, setCell_liveGrid t₁ hcell]
    exact hcpos
  · rw [setCell_liveGrid t₁ hcell, hecho.grid]
    exact hi.screen.line.insert hroom c

/-- **A line from the history**, over the blanks that wipe the old one. -/
theorem loadHistory_on (hi : LineInv h e i) (hh : h.AllPrintable) (hk : k ≤ h.historyCount)
    (hl : loadHistory fuel h inputMax { e with historyIdx := k } = some e') :
    LineOn e'.term (IdealEditor.showEntry h.entries k).line := by
  have hedits := (loadHistory_edits hk).correct e' hl
  have hstr : str e'.buf.bytes = h.entries.getD k [] := by
    rw [hedits.holds.str_eq]
    exact Line.text_atEnd _
  have hlen : (h.entries.getD k []).length < 256 := by
    have := hedits.holds.length_lt
    unfold IdealEditor.showEntry at this
    rw [Line.text_atEnd] at this
    exact this
  have hcur := hi.edits.cursorPos
  obtain ⟨hcell, _⟩ := cellBefore_iterate (k := e.cursorPos.toNat) hi.onGrid
    (by have := hi.bounds.1; omega)
  unfold loadHistory at hl
  simp only at hl
  generalize cellBefore^[e.cursorPos.toNat] e.term.cell = start at hcell hl
  obtain ⟨t₁, ht₁, hl⟩ := Option.bind_eq_some_iff.mp hl
  have hpos : (liveGrid (setCell t₁ start)).pos < screenCells := by
    rw [liveGrid_pos]
    exact (setCell_cursor t₁ hcell).pos_lt
  by_cases hnew : (k : Int) = h.historyCount
  · rw [if_pos hnew] at hl
    obtain ⟨b, _, hl⟩ := Option.bind_eq_some_iff.mp hl
    cases hl
    have hnil : h.entries.getD k [] = [] :=
      List.getD_eq_default _ _ (by rw [h.length_entries]; omega)
    unfold IdealEditor.showEntry
    rw [hnil]
    have hempty := lineAt_puts hpos (s := []) (Nat.zero_le _)
    rw [puts_nil] at hempty
    exact ⟨setCell_cursor t₁ hcell, fun hne => absurd rfl hne, hempty⟩
  · rw [if_neg hnew] at hl
    obtain ⟨row, _, hl⟩ := Option.bind_eq_some_iff.mp hl
    obtain ⟨b, _, hl⟩ := Option.bind_eq_some_iff.mp hl
    obtain ⟨b', _, hl⟩ := Option.bind_eq_some_iff.mp hl
    obtain ⟨t₂, ht₂, hl⟩ := Option.bind_eq_some_iff.mp hl
    cases hl
    rw [writestring_eq_write, hstr] at ht₂
    have hecho := write_echoes (setCell_cursor t₁ hcell) (getD_printable hh.entries k) ht₂
    refine ⟨hecho.cursor, fun hne => hecho.view (.inl ?_), ?_⟩
    · unfold IdealEditor.showEntry at hne
      rw [Line.text_atEnd] at hne
      exact hne
    · rw [hecho.grid]
      exact lineAt_puts hpos (by omega)

theorem lineUp_on (hi : LineInv h e i) (hh : h.AllPrintable)
    (hk : lineUp fuel h inputMax e = some e') :
    LineOn e'.term (i.key 255 h.entries .older).line := by
  have hidx := hi.edits.historyIdx
  have hle := hi.edits.idx_le
  unfold lineUp at hk
  by_cases hpos : 0 < i.idx
  · simp only [IdealEditor.key, if_pos hpos]
    rw [if_pos (by omega), show e.historyIdx - 1 = ((i.idx - 1 : Nat) : Int) by omega] at hk
    exact loadHistory_on hi hh (by omega) hk
  · simp only [IdealEditor.key, if_neg hpos]
    rw [if_neg (by omega)] at hk
    cases hk
    exact hi.screen

theorem lineDown_on (hi : LineInv h e i) (hh : h.AllPrintable)
    (hk : lineDown fuel h inputMax e = some e') :
    LineOn e'.term (i.key 255 h.entries .newer).line := by
  have hidx := hi.edits.historyIdx
  unfold lineDown at hk
  by_cases hlt : i.idx < h.historyCount
  · simp only [IdealEditor.key, h.length_entries, if_pos hlt]
    rw [if_pos (by omega), show e.historyIdx + 1 = ((i.idx + 1 : Nat) : Int) by omega] at hk
    exact loadHistory_on hi hh hlt hk
  · simp only [IdealEditor.key, h.length_entries, if_neg hlt]
    rw [if_neg (by omega)] at hk
    cases hk
    exact hi.screen

/-! ## The mirror -/

/-- Around cell `q` the screen shows the line: `buf[0..cursor_pos)` before it, and
`buf[cursor_pos..line_len)` from it on. -/
def MirrorsAt (e : LineEdit n) (q : Nat) : Prop :=
  e.cursorPos ≤ q ∧ q + (e.lineLen - e.cursorPos) ≤ (vgaRows * vgaCols : Nat) ∧
    ∀ k : Nat, k < e.lineLen → e.term.charAt (q - e.cursorPos.toNat + k) = e.buf.get k

/-- Around the terminal's cursor. -/
def Mirrors (e : LineEdit n) : Prop := MirrorsAt e (cellPos e.term.cell)

/-- The key does not insert a character before others so that the line ends with the screen. -/
def KeepsLine (e : LineEdit n) (c : UInt8) : Prop :=
  32 ≤ c ∧ c < 127 ∧ e.lineLen < (inputMax : Int) - 1 ∧ e.cursorPos < e.lineLen →
    cellPos e.term.cell + (e.lineLen - e.cursorPos) + 1 ≠ (vgaRows * vgaCols : Nat)

theorem mirrorsAt_of (he : Edits h e i) (hview : i.line.text ≠ [] → e.term.viewScroll ≤ 0) {q : Nat}
    (hline : LineAt ⟨(liveGrid e.term).cell, q⟩ i.line) : MirrorsAt e q := by
  have hlen := i.line.length_text
  have hcur := he.cursorPos
  have hll := he.lineLen
  have hcells : screenCells = vgaRows * vgaCols := rfl
  obtain ⟨p, hp, hshows, hroom⟩ := hline
  have hp : q = p + i.line.before.length := hp
  refine ⟨by omega, by omega, fun k hk => ?_⟩
  have hk : k < i.line.text.length := by omega
  have hchar := hshows k _ (List.getElem?_eq_getElem hk)
  have hbuf := holds_shows he.holds k _ (List.getElem?_eq_getElem hk)
  rw [Nat.zero_add] at hbuf
  rw [hbuf, ← hchar, liveGrid_of_le (hview (List.ne_nil_of_length_pos (by omega))),
    grid_cell_of_lt _ (show p + k < screenCells by omega)]
  congr 1
  omega

theorem LineInv.mirrors (hi : LineInv h e i) : Mirrors e :=
  mirrorsAt_of hi.edits hi.screen.view (by rw [cell_pos]; exact hi.screen.line)

/-- A printable key that keeps the line. -/
theorem linePrintable_on (hi : LineInv h e i) (hc : IsPrintable c) (hkeep : KeepsLine e c)
    (hk : linePrintable fuel inputMax c e = some e') :
    LineOn e'.term (i.key 255 h.entries (.insert c)).line := by
  have hlen := i.line.length_text
  have hcur := hi.edits.cursorPos
  have hll := hi.edits.lineLen
  have hmax : i32 inputMax - 1 = 255 := by decide
  have h256 : inputMax = 256 := rfl
  have hcells : screenCells = vgaRows * vgaCols := rfl
  by_cases hroom : i.line.text.length < 255
  · simp only [IdealEditor.key, if_pos hroom]
    obtain ⟨hcursor, hview, hcell, hline⟩ := lineInsert_on hi hc hroom hk
    have hpos := hi.bounds.2
    rw [cell_pos e.term] at hpos hcell
    have hfit : i.line.after = [] ∨ (liveGrid e.term).pos + i.line.after.length + 1 < screenCells := by
      by_cases hnil : i.line.after = []
      · exact .inl hnil
      · have := List.length_pos_iff.mpr hnil
        have := hkeep ⟨hc.1, hc.2, by omega, by omega⟩
        rw [cell_pos e.term] at this
        exact .inr (by omega)
    rw [insert_pos hpos c hfit, ← hcell, cell_pos] at hline
    exact ⟨hcursor, fun _ => hview, hline⟩
  · simp only [IdealEditor.key, if_neg hroom]
    unfold linePrintable at hk
    rw [hmax, if_neg (by omega)] at hk
    cases hk
    exact hi.screen

/-- **The other keys** leave the cursor a row below the line. -/
theorem linePrintable_below (hi : LineInv h e i) (hkeep : ¬ KeepsLine e c)
    (hk : linePrintable fuel inputMax c e = some e') :
    MirrorsAt e' (cellPos e'.term.cell - vgaCols) := by
  have hlen := i.line.length_text
  have hcur := hi.edits.cursorPos
  have hll := hi.edits.lineLen
  have h256 : inputMax = 256 := rfl
  have hcells : screenCells = vgaRows * vgaCols := rfl
  unfold KeepsLine at hkeep
  rw [Classical.not_imp, Ne, Classical.not_not] at hkeep
  obtain ⟨⟨h32, h127, hroom, htail⟩, hlast⟩ := hkeep
  rw [cell_pos e.term] at hlast
  obtain ⟨_, hview, hcell, hline⟩ := lineInsert_on hi ⟨h32, h127⟩ (by omega) hk
  rw [cell_pos e.term, if_pos (by omega)] at hcell
  rw [insert_pos_last (by omega), ← hcell] at hline
  have hedits := (linePrintable_edits hi.edits h32).correct e' hk
  simp only [IdealEditor.key, if_pos (show i.line.text.length < 255 by omega)] at hedits
  exact mirrorsAt_of hedits (fun _ => hview) hline

/-! ## Runs -/

/-- `shell_readline` from any cell of the grid, and any keys but Enter. -/
def lineMachine (fuel : Nat) (h : ShellHistory) : Machine (LineEdit inputMax) UInt8 Unit where
  init e := ∃ buf t, CursorInv t ∧ lineStart h buf t = some e
  legal _ c := ¬ IsEnter c
  step e c := (shellKey fuel h inputMax e c).map fun e => ((), e)

/-- The line editor and keys that keep the line. -/
def lineKeeper (fuel : Nat) (h : ShellHistory) : Machine (LineEdit inputMax) UInt8 Unit :=
  (lineMachine fuel h).restrict KeepsLine

theorem lineStart_inv {buf : Chars inputMax} (hi : CursorInv t) (hs : lineStart h buf t = some e) :
    LineInv h e ⟨Line.atEnd [], h.entries.length⟩ := by
  have hedits : Edits h e ⟨Line.atEnd [], h.entries.length⟩ := by
    refine (lineAfter_edits 0 h buf t []).correct e ?_
    unfold lineAfter
    rw [hs]
    rfl
  rw [lineStart, Option.bind_eq_bind, Option.bind_eq_some_iff] at hs
  obtain ⟨b, _, hs⟩ := hs
  cases hs
  have hpos : (liveGrid t).pos < screenCells := by
    rw [liveGrid_pos]
    exact hi.pos_lt
  have hempty := lineAt_puts hpos (s := []) (Nat.zero_le _)
  rw [puts_nil] at hempty
  exact ⟨hedits, fun c hc => absurd hc List.not_mem_nil, hi, fun hne => absurd rfl hne, hempty⟩

/-- **One key** that keeps the line. -/
theorem shellKey_inv (hi : LineInv h e i) (hh : h.AllPrintable) (hkeep : KeepsLine e c)
    (hk : shellKey fuel h inputMax e c = some e') :
    LineInv h e' (i.key 255 h.entries (.ofChar c)) := by
  refine ⟨(shellKey_edits hi.edits c).correct e' hk,
    IdealEditor.key_printable hh.entries hi.printable c, ?_⟩
  unfold shellKey at hk
  unfold EditKey.ofChar
  by_cases h1 : c = 8 ∨ c = 127
  · rw [if_pos h1] at hk ⊢
    exact lineBackspace_on hi hk
  rw [if_neg h1] at hk ⊢
  by_cases h2 : c = keyLeftArrow
  · rw [if_pos h2] at hk ⊢
    cases hk
    exact lineLeft_on hi
  rw [if_neg h2] at hk ⊢
  by_cases h3 : c = keyRightArrow
  · rw [if_pos h3] at hk ⊢
    cases hk
    exact lineRight_on hi
  rw [if_neg h3] at hk ⊢
  by_cases h4 : c = keyUpArrow
  · rw [if_pos h4] at hk ⊢
    exact lineUp_on hi hh hk
  rw [if_neg h4] at hk ⊢
  by_cases h5 : c = keyDownArrow
  · rw [if_pos h5] at hk ⊢
    exact lineDown_on hi hh hk
  rw [if_neg h5] at hk ⊢
  by_cases h6 : 32 ≤ c ∧ c < 127
  · rw [if_pos h6] at hk ⊢
    exact linePrintable_on hi h6 hkeep hk
  · rw [if_neg h6] at hk ⊢
    cases hk
    exact hi.screen

theorem lineKeeper_inv (hh : h.AllPrintable) (hr : (lineKeeper fuel h).Reach e) :
    ∃ i, LineInv h e i := by
  refine hr.invariant (I := fun e => ∃ i, LineInv h e i) ?_ ?_
  · rintro e ⟨buf, t, ht, hs⟩
    exact ⟨_, lineStart_inv ht hs⟩
  · rintro e c o e' ⟨i, hi⟩ ⟨_, hkeep⟩ hstep
    obtain ⟨e₁, hk, he⟩ := Option.map_eq_some_iff.mp hstep
    cases he
    exact ⟨_, shellKey_inv hi hh hkeep hk⟩

theorem shellKey_printable (fuel : Nat) (h : ShellHistory) (e : LineEdit inputMax)
    (hc : IsPrintable c) : shellKey fuel h inputMax e c = linePrintable fuel inputMax c e := by
  have h127 : c ≠ 127 := by
    rintro rfl
    exact absurd hc.2 (by decide)
  unfold shellKey
  rw [if_neg (not_or.mpr ⟨hc.ne_of_lt (by decide), h127⟩), if_neg (hc.ne_of_lt (by decide)),
    if_neg (hc.ne_of_lt (by decide)), if_neg (hc.ne_of_lt (by decide)),
    if_neg (hc.ne_of_lt (by decide))]
  exact if_pos hc

/-- **The mirror.**  At any prompt, in every run whose keys keep the line, the screen shows the line
around the cursor.  From there every key comes back; one that does not keep the line leaves the
cursor a row below the line. -/
theorem line_mirrored (hh : promptMachine.Reach h) (hr : (lineKeeper fuel h).Reach e) :
    Mirrors e ∧ ∀ c, ¬ IsEnter c → ∃ e', (lineMachine fuel h).step e c = some ((), e') ∧
      (KeepsLine e c → Mirrors e') ∧
        (¬ KeepsLine e c → MirrorsAt e' (cellPos e'.term.cell - vgaCols)) := by
  have hp := reach_allPrintable hh
  obtain ⟨i, hi⟩ := lineKeeper_inv hp hr
  refine ⟨hi.mirrors, fun c _ => ?_⟩
  obtain ⟨e', he'⟩ := (shellKey_edits hi.edits c).returns hp.tabFree
  refine ⟨e', congrArg (Option.map fun e => ((), e)) he', ?_, ?_⟩
  · intro hkeep
    exact (shellKey_inv hi hp hkeep he').mirrors
  · intro hkeep
    have hc : IsPrintable c := by
      unfold KeepsLine at hkeep
      rw [Classical.not_imp] at hkeep
      exact ⟨hkeep.1.1, hkeep.1.2.1⟩
    rw [shellKey_printable fuel h e hc] at he'
    exact linePrintable_below hi hkeep he'

/-- The machine makes the rounds of the loop. -/
theorem foldlM_reach (hr : (lineMachine fuel h).Reach e) {keys : List UInt8}
    (hkeys : ∀ c ∈ keys, ¬ IsEnter c) (hk : keys.foldlM (shellKey fuel h inputMax) e = some e') :
    (lineMachine fuel h).Reach e' := by
  induction keys generalizing e with
  | nil =>
    cases hk
    exact hr
  | cons c keys ih =>
    rw [List.forall_mem_cons] at hkeys
    rw [List.foldlM_cons, Option.bind_eq_bind, Option.bind_eq_some_iff] at hk
    obtain ⟨e₁, h1, h2⟩ := hk
    exact ih (hr.step hkeys.1 (congrArg (Option.map fun e => ((), e)) h1)) hkeys.2 h2

theorem lineAfter_reach {buf : Chars inputMax} (ht : CursorInv t) {keys : List UInt8}
    (hkeys : ∀ c ∈ keys, ¬ IsEnter c) (ha : lineAfter fuel h buf inputMax t keys = some e) :
    (lineMachine fuel h).Reach e := by
  rw [lineAfter, Option.bind_eq_bind, Option.bind_eq_some_iff] at ha
  obtain ⟨e₀, hs, hk⟩ := ha
  exact foldlM_reach (Machine.Reach.init ⟨buf, t, ht, hs⟩) hkeys hk

/-- The terminal after `terminal_init` and `terminal_setcursor(row, col)`. -/
def terminalAt (row col : Nat) : Terminal :=
  terminalSetcursor (terminalInit (Terminal.boot fun _ => 0)) row col

theorem terminalAt_cursor (row col : Nat) : CursorInv (terminalAt row col) :=
  setcursor_inv (terminalClear_inv _) row col

/-- `a` in the last cell: the screen scrolls. -/
theorem line_mirrored_a : ∃ e, (lineKeeper 0 ShellHistory.boot).Reach e ∧
    e.buf.bytes.take 1 = text "a" ∧ e.term.cell = (23, 0) ∧ Mirrors e := by
  have hval : ((lineStart ShellHistory.boot (Chars.fill inputMax 0) (terminalAt 23 79)).bind
      fun e => shellKey 0 ShellHistory.boot inputMax e 97).map
        (fun e => (e.buf.bytes.take 1, e.term.cell)) = some (text "a", (23, 0)) := by
    decide +kernel
  obtain ⟨e, he, hfields⟩ := Option.map_eq_some_iff.mp hval
  obtain ⟨e₀, hs, hk⟩ := Option.bind_eq_some_iff.mp he
  rw [Prod.mk.injEq] at hfields
  have hkeep : KeepsLine e₀ 97 := by
    rw [lineStart, Option.bind_eq_bind, Option.bind_eq_some_iff] at hs
    obtain ⟨b, _, hs⟩ := hs
    cases hs
    exact fun h => absurd h.2.2.2 (Int.lt_irrefl 0)
  have hr : (lineKeeper 0 ShellHistory.boot).Reach e :=
    (Machine.Reach.init (M := lineKeeper 0 ShellHistory.boot)
      ⟨_, _, terminalAt_cursor 23 79, hs⟩).step ⟨show ¬ IsEnter 97 by decide, hkeep⟩
      (congrArg (Option.map fun e => ((), e)) hk)
  exact ⟨e, hr, hfields.1, hfields.2, (line_mirrored (Machine.Reach.init rfl) hr).1⟩

/-- `a`, `b`, Left and `c` from three cells before the end of the screen: the last cell is filled,
and the cursor stays in the last row, below the line. -/
theorem insert_below : ∃ e, (lineMachine 0 ShellHistory.boot).Reach e ∧
    lineAfter 0 ShellHistory.boot (Chars.fill inputMax 0) inputMax (terminalAt 23 77)
      [97, 98, keyLeftArrow, 99] = some e ∧
    e.buf.bytes.take 3 = text "acb" ∧ e.term.cell = (23, 79) ∧ ¬ Mirrors e := by
  have hval : (lineAfter 0 ShellHistory.boot (Chars.fill inputMax 0) inputMax (terminalAt 23 77)
      [97, 98, keyLeftArrow, 99]).map (fun e => (e.buf.bytes.take 3, e.term.cell, e.lineLen,
        e.cursorPos, e.term.charAt 1917, e.buf.get 0)) =
      some (text "acb", (23, 79), 3, 2, ch ' ', 97) := by decide +kernel
  obtain ⟨e, he, hfields⟩ := Option.map_eq_some_iff.mp hval
  simp only [Prod.mk.injEq] at hfields
  obtain ⟨hbuf, hcell, hlen, hcur, hchar, hget⟩ := hfields
  refine ⟨e, lineAfter_reach (terminalAt_cursor 23 77) ?_ he, he, hbuf, hcell, ?_⟩
  · simp only [List.forall_mem_cons]
    exact ⟨by decide, by decide, by decide, by decide, fun _ h => absurd h List.not_mem_nil⟩
  · rintro ⟨_, _, hcells⟩
    have := hcells 0 (by omega)
    rw [hcell, hcur, hget] at this
    exact absurd (hchar.symm.trans this) (by decide)

end MiniOS
