import MiniOS.Screen.Characters

/-!
# When calls come back

`terminal_putchar` comes back from a tab left of column 72 only
(`putchar_returns_iff`), so whether a text can be printed depends on where its
tabs stand.  `cursorAfter` follows the cursor through a text, and has no outcome
where a tab is printed at column 72 or behind it; `callsCursor` follows it
through calls.  Calls come back exactly if their cursor can be followed
(`callsReturn_iff`), and those that only print exactly if the tabs of their text
fit (`printed_returns_iff`).
-/

namespace MiniOS

open Lib TextGrid

/-- The characters the calls show. -/
def printedText (calls : List TerminalCall) : List UInt8 := calls.flatMap TerminalCall.bytes

theorem printedText_append (xs ys : List TerminalCall) :
    printedText (xs ++ ys) = printedText xs ++ printedText ys := List.flatMap_append

theorem printedText_cons (call : TerminalCall) (calls : List TerminalCall) :
    printedText (call :: calls) = call.bytes ++ printedText calls := List.flatMap_cons

theorem printedText_putchars (cs : List UInt8) : printedText (cs.map .putchar) = cs := by
  unfold printedText
  rw [List.flatMap_map]
  exact List.flatMap_singleton' cs

/-- The calls come back on the terminal, and with them a function that makes them. -/
def CallsReturn (t : Terminal) (calls : List TerminalCall) : Prop :=
  ∃ fuel t', runCalls fuel t calls = some t'

/-! ## The cursor through a text -/

/-- The cell of the cursor once the rows have moved up. -/
def wrappedCell (pos : Nat) : Nat := if pos < screenCells then pos else pos - vgaCols

/-- The cell of the cursor behind a character printed at cell `pos`. -/
def cursorStep (pos : Nat) (c : UInt8) : Option Nat :=
  if c = ch '\n' then some (wrappedCell ((pos / vgaCols + 1) * vgaCols))
  else if c = ch '\r' then some (pos / vgaCols * vgaCols)
  else if c = 8 then some (pos - 1)
  else if c = ch '\t' then
    if pos % vgaCols < 72 then some (pos + (8 - pos % 8)) else none
  else some (wrappedCell (pos + 1))

/-- The cell of the cursor behind a text; none if a tab is printed at column 72 or behind it. -/
def cursorAfter (pos : Nat) (cs : List UInt8) : Option Nat := cs.foldlM cursorStep pos

/-- No tab of the text is printed at column 72 or behind it. -/
def TabsFit (pos : Nat) (cs : List UInt8) : Prop := (cursorAfter pos cs).isSome

instance (pos : Nat) (cs : List UInt8) : Decidable (TabsFit pos cs) := by
  unfold TabsFit
  infer_instance

variable {pos : Nat} {as bs cs : List UInt8}

theorem cursorAfter_cons (pos : Nat) (c : UInt8) (cs : List UInt8) :
    cursorAfter pos (c :: cs) = (cursorStep pos c).bind fun p => cursorAfter p cs := List.foldlM_cons

theorem cursorAfter_append (pos : Nat) (as bs : List UInt8) :
    cursorAfter pos (as ++ bs) = (cursorAfter pos as).bind fun p => cursorAfter p bs :=
  List.foldlM_append

theorem cursorStep_plain (pos : Nat) {c : UInt8} (hc : c ≠ ch '\t') :
    ∃ p, cursorStep pos c = some p := by
  unfold cursorStep
  rw [if_neg hc]
  split
  · exact ⟨_, rfl⟩
  split
  · exact ⟨_, rfl⟩
  split
  · exact ⟨_, rfl⟩
  · exact ⟨_, rfl⟩

/-- A text without tabs. -/
theorem cursorAfter_plain (h : ch '\t' ∉ cs) (pos : Nat) : ∃ p, cursorAfter pos cs = some p := by
  induction cs generalizing pos with
  | nil => exact ⟨pos, rfl⟩
  | cons c cs ih =>
    rw [List.mem_cons, not_or] at h
    obtain ⟨p, hp⟩ := cursorStep_plain pos (Ne.symm h.1)
    rw [cursorAfter_cons, hp]
    exact ih h.2 p

theorem tabsFit_iff : TabsFit pos cs ↔ ∃ p, cursorAfter pos cs = some p := Option.isSome_iff_exists

theorem tabsFit_nil (pos : Nat) : TabsFit pos [] := rfl

theorem tabsFit_plain (h : ch '\t' ∉ cs) (pos : Nat) : TabsFit pos cs :=
  tabsFit_iff.mpr (cursorAfter_plain h pos)

theorem tabsFit_append : TabsFit pos (as ++ bs) ↔ ∃ p, cursorAfter pos as = some p ∧ TabsFit p bs := by
  simp only [tabsFit_iff, cursorAfter_append, Option.bind_eq_some_iff]
  constructor
  · rintro ⟨q, p, hp, hq⟩
    exact ⟨p, hp, q, hq⟩
  · rintro ⟨p, hp, q, hq⟩
    exact ⟨q, p, hp, hq⟩

theorem TabsFit.left (h : TabsFit pos (as ++ bs)) : TabsFit pos as := by
  obtain ⟨p, hp, _⟩ := tabsFit_append.mp h
  exact tabsFit_iff.mpr ⟨p, hp⟩

/-- Behind the tabs nothing more can go wrong. -/
theorem tabsFit_append_plain (hb : ch '\t' ∉ bs) : TabsFit pos (as ++ bs) ↔ TabsFit pos as := by
  refine ⟨TabsFit.left, fun h => ?_⟩
  obtain ⟨p, hp⟩ := tabsFit_iff.mp h
  exact tabsFit_append.mpr ⟨p, hp, tabsFit_plain hb p⟩

/-! ### Columns -/

/-- A character that is stored in a cell. -/
def Printable (c : UInt8) : Prop := c ≠ ch '\n' ∧ c ≠ ch '\r' ∧ c ≠ 8 ∧ c ≠ ch '\t'

instance (c : UInt8) : Decidable (Printable c) := by
  unfold Printable
  infer_instance

theorem wrappedCell_mod (pos : Nat) : wrappedCell pos % vgaCols = pos % vgaCols := by
  have hcells : screenCells = 1920 := rfl
  unfold wrappedCell
  split
  · rfl
  · rw [← Nat.mod_eq_sub_mod (by rw [show vgaCols = 80 from rfl]; omega)]

theorem cursorStep_column {p q : Nat} (h : p % vgaCols = q % vgaCols) {c : UInt8} (hc : c ≠ 8) :
    (cursorStep p c).map (· % vgaCols) = (cursorStep q c).map (· % vgaCols) := by
  have h80 : vgaCols = 80 := rfl
  unfold cursorStep
  rw [if_neg hc, if_neg hc]
  split
  · rw [Option.map_some, Option.map_some, wrappedCell_mod, wrappedCell_mod, Nat.mul_mod_left,
      Nat.mul_mod_left]
  split
  · rw [Option.map_some, Option.map_some, Nat.mul_mod_left, Nat.mul_mod_left]
  split
  · rw [h]
    split
    · rw [h80] at h
      simp only [Option.map_some, h80, Option.some.injEq]
      omega
    · rfl
  · rw [Option.map_some, Option.map_some, wrappedCell_mod, wrappedCell_mod, Nat.add_mod, h,
      ← Nat.add_mod]

/-- Without backspaces a text takes the same columns in every row. -/
theorem cursorAfter_column (h8 : 8 ∉ cs) {p q : Nat} (h : p % vgaCols = q % vgaCols) :
    (cursorAfter p cs).map (· % vgaCols) = (cursorAfter q cs).map (· % vgaCols) := by
  induction cs generalizing p q with
  | nil => exact congrArg some h
  | cons c cs ih =>
    rw [List.mem_cons, not_or] at h8
    have hstep := cursorStep_column h (Ne.symm h8.1)
    rw [cursorAfter_cons, cursorAfter_cons]
    cases hp : cursorStep p c with
    | none =>
      rw [hp, Option.map_none, eq_comm, Option.map_eq_none_iff] at hstep
      rw [hstep]
    | some p' =>
      rw [hp, Option.map_some, eq_comm, Option.map_eq_some_iff] at hstep
      obtain ⟨q', hq, hmod⟩ := hstep
      rw [hq]
      exact ih h8.2 hmod.symm

theorem tabsFit_column (h8 : 8 ∉ cs) {p q : Nat} (h : p % vgaCols = q % vgaCols) :
    TabsFit p cs ↔ TabsFit q cs := by
  have hmap := congrArg Option.isSome (cursorAfter_column h8 h)
  rw [Option.isSome_map, Option.isSome_map] at hmap
  unfold TabsFit
  rw [hmap]

/-- Behind a newline the cursor is in column 0. -/
theorem cursorAfter_newline {p : Nat} (h : cursorAfter pos (cs ++ [ch '\n']) = some p) :
    p % vgaCols = 0 := by
  rw [cursorAfter_append] at h
  obtain ⟨q, _, hq⟩ := Option.bind_eq_some_iff.mp h
  have hp : wrappedCell ((q / vgaCols + 1) * vgaCols) = p := Option.some.inj hq
  rw [← hp, wrappedCell_mod]
  exact Nat.mul_mod_left _ _

/-- Lines fit one by one. -/
theorem tabsFit_lines {ι : Type*} {f : ι → List UInt8} {l : List ι}
    (hf : ∀ i ∈ l, ∃ body, 8 ∉ body ∧ f i = body ++ [ch '\n']) (hpos : pos % vgaCols = 0) :
    TabsFit pos (l.flatMap f) ↔ ∀ i ∈ l, TabsFit 0 (f i) := by
  induction l generalizing pos with
  | nil => exact iff_of_true (tabsFit_nil pos) fun i hi => absurd hi List.not_mem_nil
  | cons i l ih =>
    obtain ⟨⟨body, h8, hi⟩, hl⟩ := List.forall_mem_cons.mp hf
    have h8' : 8 ∉ f i := by
      rw [hi, List.mem_append, not_or]
      exact ⟨h8, by decide⟩
    rw [List.flatMap_cons, tabsFit_append, List.forall_mem_cons,
      ← tabsFit_column h8' (show pos % vgaCols = 0 % vgaCols from hpos), tabsFit_iff]
    constructor
    · rintro ⟨p, hp, hrest⟩
      rw [ih hl (cursorAfter_newline (hi ▸ hp))] at hrest
      exact ⟨⟨p, hp⟩, hrest⟩
    · rintro ⟨⟨p, hp⟩, hrest⟩
      rw [← ih hl (cursorAfter_newline (hi ▸ hp))] at hrest
      exact ⟨p, hp, hrest⟩

theorem cursorAfter_cells (hcs : ∀ c ∈ cs, Printable c) (hpos : pos + cs.length < screenCells) :
    cursorAfter pos cs = some (pos + cs.length) := by
  induction cs generalizing pos with
  | nil => rfl
  | cons c cs ih =>
    obtain ⟨⟨hn, hr, h8, ht⟩, hrest⟩ := List.forall_mem_cons.mp hcs
    rw [List.length_cons] at hpos ⊢
    rw [cursorAfter_cons, cursorStep, if_neg hn, if_neg hr, if_neg h8, if_neg ht, wrappedCell,
      if_pos (by omega), Option.bind_some, ih hrest (by omega)]
    congr 1
    omega

/-- Behind characters that take a cell each. -/
theorem tabsFit_cells (has : ∀ c ∈ as, Printable c) (hpos : pos + as.length < screenCells) :
    TabsFit pos (as ++ bs) ↔ TabsFit (pos + as.length) bs := by
  rw [tabsFit_append, cursorAfter_cells has hpos]
  constructor
  · rintro ⟨p, hp, h⟩
    cases hp
    exact h
  · exact fun h => ⟨_, rfl, h⟩

/-! ## The cursor of the grid -/

variable {t t' : Terminal} {g : TextGrid UInt8}

theorem wrap_pos (g : TextGrid UInt8) : (wrap vgaCols screenCells g).pos = wrappedCell g.pos := by
  unfold wrap wrappedCell
  split
  · rfl
  · rfl

theorem typeChar_cursor (hpos : g.pos < screenCells) (c : UInt8) :
    (typeChar g c).map TextGrid.pos = cursorStep g.pos c := by
  have hcells : screenCells = 1920 := rfl
  have h80 : vgaCols = 80 := rfl
  unfold typeChar cursorStep
  split
  · exact congrArg some (wrap_pos _)
  split
  · rfl
  split
  · rfl
  split
  · split
    · -- the blanks end in the same row, at column 72 at most
      have hfits : g.pos + (List.replicate (8 - g.pos % 8) (ch ' ')).length < screenCells := by
        have hcol : g.pos % 80 < 72 := by assumption
        rw [List.length_replicate]
        omega
      rw [Option.map_some, (puts_fits hfits).1, List.length_replicate]
    · rfl
  · exact congrArg some (wrap_pos _)

/-! ## The cursor through calls -/

/-- The cell of the cursor behind a call. -/
def callCursor (pos : Nat) : TerminalCall → Option Nat
  | .init | .clear => some 0
  | .setcursor row col =>
    let termRow := if row ≥ 0 ∧ row < vgaRows then row.toNat else pos / vgaCols
    let termCol := if col ≥ 0 ∧ col < vgaCols then col.toNat else pos % vgaCols
    some (termRow * vgaCols + termCol)
  | call => cursorAfter pos call.bytes

def callsCursor (pos : Nat) (calls : List TerminalCall) : Option Nat := calls.foldlM callCursor pos

theorem putchar_cursor (safe : Prop) (fuel : Nat) (hi : CursorInv t) {c : UInt8}
    (hsafe : safe → vgaCols ≤ fuel ∧ ∃ p, cursorStep t.grid.pos c = some p) :
    Yields safe (terminalPutchar fuel t c) fun t' =>
      CursorInv t' ∧ cursorStep t.grid.pos c = some t'.grid.pos := by
  have hpos : (liveGrid t).pos < screenCells := by
    rw [liveGrid_pos]
    exact hi.pos_lt
  have hstep := typeChar_cursor hpos c
  rw [liveGrid_pos] at hstep
  have hput := putchar_onScreen safe fuel hi (c := c) ?_
  · refine ⟨fun t' ht' => ?_, hput.returns⟩
    obtain ⟨g, hg, hs⟩ := hput.correct t' ht'
    rw [hg] at hstep
    exact ⟨hs.cursor, by rw [← hstep, ← hs.grid]; rfl⟩
  · intro h hc
    obtain ⟨hfuel, p, hp⟩ := hsafe h
    rw [hp] at hstep
    obtain ⟨g, hg, _⟩ := Option.map_eq_some_iff.mp hstep
    have hcol := typeChar_tab hc hg
    rw [liveGrid_pos, hi.pos_mod] at hcol
    exact ⟨hfuel, hcol⟩

theorem write_cursor (safe : Prop) (fuel : Nat) (hi : CursorInv t) {cs : List UInt8}
    (hsafe : safe → vgaCols ≤ fuel ∧ ∃ p, cursorAfter t.grid.pos cs = some p) :
    Yields safe (terminalWrite fuel t cs) fun t' =>
      CursorInv t' ∧ cursorAfter t.grid.pos cs = some t'.grid.pos := by
  induction cs generalizing t with
  | nil => exact .some ⟨hi, rfl⟩
  | cons c cs ih =>
    have hput := putchar_cursor safe fuel (c := c) hi ?_
    · rw [terminalWrite]
      refine hput.bind ?_
      rintro t₁ ⟨h₁, hp₁⟩
      rw [cursorAfter_cons, hp₁] at hsafe ⊢
      exact ih h₁ hsafe
    · intro hs
      obtain ⟨hfuel, p, hp⟩ := hsafe hs
      obtain ⟨q, hq, _⟩ := Option.bind_eq_some_iff.mp hp
      exact ⟨hfuel, q, hq⟩

theorem setcursor_cursor (hi : CursorInv t) (row col : Int) :
    callCursor t.grid.pos (.setcursor row col) = some (terminalSetcursor t row col).grid.pos := by
  unfold callCursor
  rw [hi.pos_div, hi.pos_mod]
  unfold terminalSetcursor Terminal.grid
  by_cases hrow : row ≥ 0 ∧ row < vgaRows
  · by_cases hcol : col ≥ 0 ∧ col < vgaCols
    · simp only [if_pos hrow, if_pos hcol]
    · simp only [if_pos hrow, if_neg hcol]
  · by_cases hcol : col ≥ 0 ∧ col < vgaCols
    · simp only [if_neg hrow, if_pos hcol]
    · simp only [if_neg hrow, if_neg hcol]

/-- **A call** comes back with the cursor that `callCursor` says, or not at all. -/
theorem call_cursor (safe : Prop) (fuel : Nat) (hi : CursorInv t) (call : TerminalCall)
    (hsafe : safe → vgaCols ≤ fuel ∧ ∃ p, callCursor t.grid.pos call = some p) :
    Yields safe (call.run fuel t) fun t' =>
      CursorInv t' ∧ callCursor t.grid.pos call = some t'.grid.pos := by
  cases call with
  | init | clear => exact .some ⟨terminalClear_inv _, rfl⟩
  | setcolor fg bg => exact .some ⟨hi, rfl⟩
  | putchar c =>
    have hone : terminalWrite fuel t [c] = TerminalCall.run fuel t (.putchar c) :=
      Option.bind_fun_some _
    rw [← hone]
    exact write_cursor safe fuel hi hsafe
  | write data => exact write_cursor safe fuel hi hsafe
  | writestring s =>
    rw [TerminalCall.run, writestring_eq_write]
    exact write_cursor safe fuel hi hsafe
  | writecolor s fg bg =>
    rw [TerminalCall.run, terminalWritecolor]
    simp only [writestring_eq_write]
    refine (write_cursor safe fuel (t := { t with termColor := makeColor fg bg }) hi hsafe).bind ?_
    rintro t₁ ⟨h₁, hp₁⟩
    exact .some ⟨h₁, hp₁⟩
  | setcursor row col => exact .some ⟨setcursor_inv hi row col, setcursor_cursor hi row col⟩
  | scrollUp lines =>
    obtain ⟨hrow, hcol⟩ := scrollUp_cursor t lines
    refine .some ⟨?_, ?_⟩
    · rw [CursorInv, hrow, hcol]
      exact hi
    · show some t.grid.pos = some (_ * vgaCols + _)
      rw [hrow, hcol]
      rfl
  | scrollDown lines =>
    obtain ⟨hrow, hcol⟩ := scrollDown_cursor t lines
    refine .some ⟨?_, ?_⟩
    · rw [CursorInv, hrow, hcol]
      exact hi
    · show some t.grid.pos = some (_ * vgaCols + _)
      rw [hrow, hcol]
      rfl

theorem runCalls_cursor (safe : Prop) (fuel : Nat) (hi : CursorInv t) {calls : List TerminalCall}
    (hsafe : safe → vgaCols ≤ fuel ∧ ∃ p, callsCursor t.grid.pos calls = some p) :
    Yields safe (runCalls fuel t calls) fun t' =>
      CursorInv t' ∧ callsCursor t.grid.pos calls = some t'.grid.pos := by
  induction calls generalizing t with
  | nil => exact .some ⟨hi, rfl⟩
  | cons call calls ih =>
    have hfirst := call_cursor safe fuel hi call ?_
    · unfold runCalls
      rw [List.foldlM_cons]
      refine hfirst.bind ?_
      rintro t₁ ⟨h₁, hp₁⟩
      rw [callsCursor, List.foldlM_cons, hp₁] at hsafe ⊢
      exact ih h₁ hsafe
    · intro hs
      obtain ⟨hfuel, p, hp⟩ := hsafe hs
      obtain ⟨q, hq, _⟩ := Option.bind_eq_some_iff.mp hp
      exact ⟨hfuel, q, hq⟩

/-- **Calls** come back exactly if their cursor can be followed. -/
theorem callsReturn_iff (hi : CursorInv t) {calls : List TerminalCall} :
    CallsReturn t calls ↔ (callsCursor t.grid.pos calls).isSome := by
  rw [Option.isSome_iff_exists]
  constructor
  · rintro ⟨fuel, t', ht'⟩
    exact ⟨_, ((runCalls_cursor False fuel hi False.elim).correct t' ht').2⟩
  · intro h
    obtain ⟨t', ht'⟩ := (runCalls_cursor True vgaCols hi fun _ => ⟨Nat.le_refl _, h⟩).returns trivial
    exact ⟨vgaCols, t', ht'⟩

/-! ## Calls that print -/

theorem callCursor_prints {call : TerminalCall} (h : call.Prints) (pos : Nat) :
    callCursor pos call = cursorAfter pos call.bytes := by
  cases call with
  | setcolor _ _ | putchar _ | write _ | writestring _ => rfl
  | init | clear | writecolor _ _ _ | setcursor _ _ | scrollUp _ | scrollDown _ => cases h

theorem callsCursor_prints {calls : List TerminalCall} (h : ∀ call ∈ calls, call.Prints) (pos : Nat) :
    callsCursor pos calls = cursorAfter pos (printedText calls) := by
  induction calls generalizing pos with
  | nil => rfl
  | cons call calls ih =>
    rw [List.forall_mem_cons] at h
    rw [callsCursor, List.foldlM_cons, callCursor_prints h.1, printedText_cons, cursorAfter_append]
    congr 1
    funext p
    exact ih h.2 p

/-- **Calls that print** come back exactly if the tabs of their text fit. -/
theorem printed_returns_iff (hi : CursorInv t) {calls : List TerminalCall}
    (h : ∀ call ∈ calls, call.Prints) :
    CallsReturn t calls ↔ TabsFit t.grid.pos (printedText calls) := by
  rw [callsReturn_iff hi, callsCursor_prints h]
  rfl

/-- The calls only print, and these bytes. -/
structure Displays (calls : List TerminalCall) (cs : List UInt8) : Prop where
  prints : ∀ call ∈ calls, call.Prints
  text_eq : printedText calls = cs

variable {calls xs ys : List TerminalCall}

theorem displays_nil : Displays [] [] := ⟨fun _ h => absurd h List.not_mem_nil, rfl⟩

theorem displays_setcolor (fg bg : VgaColor) : Displays [.setcolor fg bg] [] :=
  ⟨List.forall_mem_singleton.mpr trivial, rfl⟩

theorem displays_putchar (c : UInt8) : Displays [.putchar c] [c] :=
  ⟨List.forall_mem_singleton.mpr trivial, rfl⟩

theorem displays_putchars (cs : List UInt8) : Displays (cs.map .putchar) cs :=
  ⟨List.forall_mem_map.mpr fun _ _ => trivial, printedText_putchars cs⟩

theorem displays_write (cs : List UInt8) : Displays [.write cs] cs :=
  ⟨List.forall_mem_singleton.mpr trivial, List.append_nil cs⟩

/-- A string is shown up to its NUL. -/
theorem displays_writestring (s : List UInt8) : Displays [.writestring s] (str s) :=
  ⟨List.forall_mem_singleton.mpr trivial, List.append_nil (str s)⟩

theorem displays_string {s : List UInt8} (h0 : 0 ∉ s) : Displays [.writestring s] s := by
  have h := displays_writestring s
  rw [str_of_not_mem h0] at h
  exact h

theorem Displays.append (hx : Displays xs as) (hy : Displays ys bs) : Displays (xs ++ ys) (as ++ bs) where
  prints := List.forall_mem_append.mpr ⟨hx.prints, hy.prints⟩
  text_eq := by rw [printedText_append, hx.text_eq, hy.text_eq]

/-- In other colours. -/
theorem Displays.colored (h : Displays calls cs) (fg bg fg' bg' : VgaColor) :
    Displays (.setcolor fg bg :: calls ++ [.setcolor fg' bg']) cs := by
  have hd := ((displays_setcolor fg bg).append h).append (displays_setcolor fg' bg')
  rw [List.nil_append, List.append_nil] at hd
  exact hd

theorem Displays.flatten {ι : Type*} {f : ι → List TerminalCall} {g : ι → List UInt8} {l : List ι}
    (h : ∀ i ∈ l, Displays (f i) (g i)) : Displays (l.flatMap f) (l.flatMap g) := by
  induction l with
  | nil => exact displays_nil
  | cons i l ih =>
    rw [List.forall_mem_cons] at h
    exact h.1.append (ih h.2)

/-- **Text on the terminal.**  It is shown exactly if its tabs fit. -/
theorem Displays.return_iff (h : Displays calls cs) (ht : terminalMachine.Reach t) :
    CallsReturn t calls ↔ TabsFit t.grid.pos cs := by
  rw [printed_returns_iff (terminal_reach_inv ht) h.prints, h.text_eq]

/-- A text with a tab that does not fit never comes to its end. -/
theorem Displays.hangs (h : Displays calls cs) (ht : terminalMachine.Reach t)
    (htabs : ¬ TabsFit t.grid.pos cs) (fuel : Nat) : runCalls fuel t calls = none := by
  rw [← h.return_iff ht] at htabs
  exact Option.eq_none_iff_forall_ne_some.mpr fun t' ht' => htabs ⟨fuel, t', ht'⟩

end MiniOS
