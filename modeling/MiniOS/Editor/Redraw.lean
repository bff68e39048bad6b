import MiniOS.Editor.Session
import MiniOS.Screen.Characters
import MiniOS.Screen.Scrollback

/-!
# What MiniEdit shows

MiniEdit draws its header, a divider and the text once, and from then on puts
one character on the screen for each key.  A fresh drawing of the text it holds
shows the same (`ShowsText`) as long as the keys keep the picture
(`KeepsPicture`), and a key that does not keep it shows something else
(`editor_showsText`).

What is put for BACKSPACE takes one cell back.  The byte it takes from the text
may have moved the cursor by more, as a newline does (`backspace_newline_shows`).
-/

namespace MiniOS

open Lib TextGrid

/-! ## Bytes that do not scroll -/

/-- The byte, put on the grid, pushes a row off the top. -/
def PushesRow (g : TextGrid UInt8) (c : UInt8) : Prop :=
  (c = ch '\n' ∨ (c ≠ ch '\r' ∧ c ≠ 8 ∧ c ≠ ch '\t' ∧ g.pos % vgaCols + 1 ≥ vgaCols)) ∧
    g.pos / vgaCols + 1 ≥ vgaRows

instance (g : TextGrid UInt8) (c : UInt8) : Decidable (PushesRow g c) :=
  inferInstanceAs (Decidable ((_ ∨ _) ∧ _))

/-- The bytes, put on the grid one after the other, push no row off. -/
def Fits : TextGrid UInt8 → List UInt8 → Prop
  | _, [] => True
  | g, c :: cs => ¬ PushesRow g c ∧
    match typeChar g c with
    | some g' => Fits g' cs
    | none => True

instance Fits.decide : ∀ (g : TextGrid UInt8) (cs : List UInt8), Decidable (Fits g cs)
  | _, [] => isTrue trivial
  | g, c :: cs =>
    have : Decidable (match typeChar g c with | some g' => Fits g' cs | none => True) :=
      match typeChar g c with
      | some g' => Fits.decide g' cs
      | none => isTrue trivial
    inferInstanceAs (Decidable (_ ∧ _))

/-- The bytes, put on the terminal one after the other, push no row off the top. -/
def FitsScreen (t : Terminal) (bytes : List UInt8) : Prop :=
  ∀ before c after fuel t', bytes = before ++ c :: after →
    terminalWrite fuel t before = some t' → pushed t' (.putchar c) = []

variable {g g' : TextGrid UInt8} {t : Terminal} {c : UInt8} {cs : List UInt8}

theorem fits_cons (h : typeChar g c = some g') :
    Fits g (c :: cs) ↔ ¬ PushesRow g c ∧ Fits g' cs := by
  rw [Fits, h]

theorem fits_append {as bs : List UInt8} (h : typeText g as = some g') :
    Fits g (as ++ bs) ↔ Fits g as ∧ Fits g' bs := by
  induction as generalizing g with
  | nil =>
    cases h
    exact (and_iff_right trivial).symm
  | cons a as ih =>
    obtain ⟨g₁, h1, h2⟩ := Option.bind_eq_some_iff.mp h
    rw [List.cons_append, fits_cons h1, fits_cons h1, ih h2, and_assoc]

theorem fits_singleton : Fits g [c] ↔ ¬ PushesRow g c := by
  rw [Fits]
  refine and_iff_left ?_
  split
  · exact trivial
  · exact trivial

theorem pushed_eq_nil_iff (h : OnScreen t g) : pushed t (.putchar c) = [] ↔ ¬ PushesRow g c := by
  unfold pushed PushesRow
  rw [← h.grid, h.cursor.pos_mod, h.cursor.pos_div]
  simp only
  split
  · exact ⟨fun hn => absurd hn (List.cons_ne_nil _ _), fun hn => absurd (by assumption) hn⟩
  · exact ⟨fun _ => by assumption, fun _ => rfl⟩

theorem not_pushesRow_of_fits {before after : List UInt8} (hf : Fits g (before ++ c :: after))
    (h : typeText g before = some g') : ¬ PushesRow g' c := by
  rw [fits_append h] at hf
  exact hf.2.1

theorem fits_iff_split (g : TextGrid UInt8) (bytes : List UInt8) : Fits g bytes ↔
    ∀ before c after g', bytes = before ++ c :: after → typeText g before = some g' →
      ¬ PushesRow g' c := by
  constructor
  · rintro hf before c after g' rfl h
    exact not_pushesRow_of_fits hf h
  · intro hall
    induction bytes generalizing g with
    | nil => exact trivial
    | cons c cs ih =>
      refine ⟨hall [] c cs g rfl rfl, ?_⟩
      split
      · rename_i g₁ hg₁
        apply ih
        rintro before d after g' rfl h
        refine hall (c :: before) d after g' rfl ?_
        rw [typeText_cons, hg₁]
        exact h
      · exact trivial

/-- **On the terminal** the bytes push off a row exactly if they do on the grid. -/
theorem fitsScreen_iff (h : OnScreen t g) (bytes : List UInt8) :
    FitsScreen t bytes ↔ Fits g bytes := by
  rw [fits_iff_split]
  constructor
  · rintro hf before c after g' hb hg'
    have hwrite := write_onScreen True vgaCols h fun _ => ⟨Nat.le_refl _, g', hg'⟩
    obtain ⟨t', ht'⟩ := hwrite.returns trivial
    obtain ⟨g₁, hg₁, h₁⟩ := hwrite.correct t' ht'
    rw [hg'] at hg₁
    cases hg₁
    exact (pushed_eq_nil_iff h₁).mp (hf before c after vgaCols t' hb ht')
  · rintro hf before c after fuel t' hb ht'
    obtain ⟨g₁, hg₁, h₁⟩ := (write_onScreen False fuel h False.elim).correct t' ht'
    exact (pushed_eq_nil_iff h₁).mpr (hf before c after g₁ hb hg₁)

/-! ## A backspace -/

/-- The byte, drawn in cell `p`, leaves the cursor one cell on; for `\r` and `\b` in the first
cell, where a backspace stays. -/
def OneCellOn (p : Nat) (c : UInt8) : Prop :=
  if c = ch '\n' then p % vgaCols + 1 = vgaCols
  else if c = ch '\r' ∨ c = 8 then p = 0
  else if c = ch '\t' then p % 8 = 7
  else True

instance (p : Nat) (c : UInt8) : Decidable (OneCellOn p c) := by
  unfold OneCellOn
  infer_instance

/-- **A backspace takes a byte back** if that went one cell on, over a blank. -/
theorem back_typeChar_iff (hpos : g.pos < screenCells) (hg : typeChar g c = some g')
    (hp : ¬ PushesRow g c) :
    back (ch ' ') g' = g ↔ OneCellOn g.pos c ∧ g.cell g.pos = ch ' ' := by
  have h80 : vgaCols = 80 := rfl
  have h24 : vgaRows = 24 := rfl
  have hcells : screenCells = 1920 := rfl
  unfold PushesRow at hp
  unfold typeChar at hg
  unfold OneCellOn
  by_cases h1 : c = ch '\n'
  · rw [if_pos h1] at hg ⊢
    cases hg
    have hrow : ¬ g.pos / vgaCols + 1 ≥ vgaRows := fun h => hp ⟨.inl h1, h⟩
    exact back_newline_iff (by decide) (by rw [h80] at hrow ⊢; omega)
  by_cases h2 : c = ch '\r'
  · rw [if_neg h1, if_pos h2] at hg
    rw [if_neg h1, if_pos (.inl h2)]
    cases hg
    exact back_carriage_iff
  by_cases h3 : c = 8
  · rw [if_neg h1, if_neg h2, if_pos h3] at hg
    rw [if_neg h1, if_pos (.inr h3)]
    cases hg
    exact back_back_iff
  rw [if_neg h1, if_neg (not_or.mpr ⟨h2, h3⟩)]
  by_cases h4 : c = ch '\t'
  · rw [if_neg h1, if_neg h2, if_neg h3, if_pos h4] at hg
    rw [if_pos h4]
    split at hg
    · rename_i hlt
      cases hg
      rw [h80] at hlt
      rw [back_blanks_iff (by omega) (by omega)]
      refine and_congr_left fun _ => ?_
      omega
    · cases hg
  · rw [if_neg h1, if_neg h2, if_neg h3, if_neg h4] at hg
    rw [if_neg h4, true_and]
    cases hg
    have hlt : ¬ (g.pos % vgaCols + 1 ≥ vgaCols ∧ g.pos / vgaCols + 1 ≥ vgaRows) :=
      fun h => hp ⟨.inr ⟨h2, h3, h4, h.1⟩, h.2⟩
    exact back_put_iff (by rw [h80] at hlt; omega) c

/-! ## The session -/

/-- The editor, and the terminal it draws on. -/
structure EditorScreen where
  ed : Editor
  term : Terminal

/-- `terminal_clear`, the header, the divider and `display_file_content`. -/
def freshDrawing (filename : List UInt8) (e : Editor) : List TerminalCall :=
  .clear :: (drawEditorHeader filename ++ drawEditorDivider ++ displayFileContent e)

/-- MiniEdit once it has drawn a file, and any keys but ESC.  No key echoes a tab, so the bound on
the rounds is never met. -/
def editorScreen (filename : List UInt8) : Machine EditorScreen UInt8 Unit where
  init s := ∃ t fuel txt, terminalMachine.Reach t ∧ s.ed.Holds txt ∧
    runCalls fuel t (freshDrawing filename s.ed) = some s.term
  legal _ key := key ≠ keyEsc
  step s key := do
    let (ed, echo) ← editorKey s.ed key
    let term ← runCalls vgaCols s.term echo
    some ((), ⟨ed, term⟩)

/-- The fresh drawing of what the editor holds pushes no row off. -/
def DrawsWithin (filename : List UInt8) (s : EditorScreen) : Prop :=
  FitsScreen (terminalClear s.term) ((freshDrawing filename s.ed).flatMap TerminalCall.bytes)

/-- The screen shows what a fresh drawing shows, if that does not scroll. -/
def ShowsText (filename : List UInt8) (s : EditorScreen) : Prop :=
  ∃ fuel t, runCalls fuel s.term (freshDrawing filename s.ed) = some t ∧
    (DrawsWithin filename s → SameCharacters s.term t)

/-! ## The condition -/

/-- What a key does, by the text held: one that does not fit is answered with the bell. -/
inductive KeyEffect where
  | nothing
  | append (c : UInt8)
  | erase
  | bell

def keyEffect (txt : List UInt8) (key : UInt8) : KeyEffect :=
  if key = keyBackspace then
    if txt = [] then .nothing else .erase
  else if key = ch '\r' ∨ key = ch '\n' then
    if txt.length < fsMaxFilesize then .append (ch '\n') else .nothing
  else if key ≥ 32 ∧ key < 127 then
    if txt.length < fsMaxFilesize then .append key else .bell
  else .nothing

namespace KeyEffect

def text (txt : List UInt8) : KeyEffect → List UInt8
  | nothing | bell => txt
  | append c => txt ++ [c]
  | erase => txt.dropLast

def echo : KeyEffect → List TerminalCall
  | nothing => []
  | append c => [.putchar c]
  | erase => [.putchar keyBackspace]
  | bell => [.setcolor .lightRed .black, .putchar (ch '!'), .putchar keyBackspace,
      .setcolor .white .black]

end KeyEffect

/-- The bytes of the drawing of a text. -/
def drawn (filename txt : List UInt8) : List UInt8 :=
  (drawEditorHeader filename ++ drawEditorDivider).flatMap TerminalCall.bytes ++ txt

/-- What they show. -/
def picture (filename txt : List UInt8) : Option (TextGrid UInt8) :=
  typeText blankGrid (drawn filename txt)

/-- The bytes `editor_open` has read and the keys have changed. -/
def Editor.contents (e : Editor) : List UInt8 := e.buffer.bytes.take e.len

/-- BACKSPACE takes a byte that went one cell on, over a blank, or leaves a text whose drawing
scrolls; the bell rings over a blank that is not in the last cell. -/
def KeepsPicture (filename txt : List UInt8) (key : UInt8) : Prop :=
  match keyEffect txt key with
  | .nothing | .append _ => True
  | .erase =>
    ¬ Fits blankGrid (drawn filename txt.dropLast) ∨
      (Fits blankGrid (drawn filename txt) ∧ ∀ g, picture filename txt.dropLast = some g →
        OneCellOn g.pos (txt.getLastD 0) ∧ g.cell g.pos = ch ' ')
  | .bell =>
    ¬ Fits blankGrid (drawn filename txt) ∨ ∀ g, picture filename txt = some g →
      g.pos + 1 < screenCells ∧ g.cell g.pos = ch ' '

/-! ## Keys -/

variable {e : Editor} {txt filename : List UInt8} {key : UInt8} {s : EditorScreen}

theorem typeKey_eq (txt : List UInt8) (key : UInt8) :
    typeKey txt key = (keyEffect txt key).text txt := by
  unfold typeKey keyEffect
  split
  · split
    · rename_i hnil
      rw [hnil]
      rfl
    · rfl
  split
  · split <;> rfl
  split
  · split <;> rfl
  · rfl

/-- What is appended is put in its place by no tab. -/
theorem keyEffect_append (h : keyEffect txt key = .append c) : c ≠ ch '\t' := by
  unfold keyEffect at h
  split at h
  · split at h <;> cases h
  split at h
  · split at h
    · cases h
      decide
    · cases h
  split at h
  · rename_i hp
    split at h
    · cases h
      rintro rfl
      exact absurd hp.1 (by decide)
    · cases h
  · cases h

theorem keyEffect_erase (h : keyEffect txt key = .erase) : txt ≠ [] := by
  unfold keyEffect at h
  split at h
  · split at h
    · cases h
    · assumption
  split at h
  · split at h <;> cases h
  split at h
  · split at h <;> cases h
  · cases h

/-- What the editor prints for a key. -/
theorem editorKey_echo (hh : e.Holds txt) {e' : Editor} {echo : List TerminalCall}
    (h : editorKey e key = some (e', echo)) : echo = (keyEffect txt key).echo := by
  unfold editorKey at h
  unfold keyEffect
  split at h
  · next hb =>
    obtain ⟨e₁, he, -⟩ := handleBackspaceKey_spec hh
    rw [he] at h
    cases h
    rw [if_pos hb]
    split
    · rfl
    · rfl
  rename_i hb
  rw [if_neg hb]
  split at h
  · next hent =>
    obtain ⟨e₁, he, -⟩ := handleEnterKey_spec hh
    rw [he] at h
    cases h
    rw [if_pos hent]
    split
    · rfl
    · rfl
  rename_i hent
  rw [if_neg hent]
  split at h
  · next hp =>
    obtain ⟨e₁, he, -⟩ := handlePrintableChar_spec hh key
    rw [he] at h
    cases h
    rw [if_pos hp]
    split
    · rfl
    · rfl
  · next hp =>
    cases h
    rw [if_neg hp]
    rfl

theorem KeyEffect.echo_prints (k : KeyEffect) : ∀ call ∈ k.echo, call.Prints := by
  cases k with
  | nothing => exact fun _ h => absurd h List.not_mem_nil
  | append c | erase | bell => simp [KeyEffect.echo, TerminalCall.Prints]

/-- The echo comes back. -/
theorem echo_returns (g : TextGrid UInt8) (txt : List UInt8) (key : UInt8) :
    ∃ g', typeText g ((keyEffect txt key).echo.flatMap TerminalCall.bytes) = some g' := by
  cases hk : keyEffect txt key with
  | nothing => exact ⟨g, rfl⟩
  | append c =>
    obtain ⟨g', hg'⟩ := typeChar_returns g (keyEffect_append hk)
    exact ⟨g', by rw [← hg']; exact typeText_singleton g c⟩
  | erase => exact ⟨_, rfl⟩
  | bell => exact ⟨_, rfl⟩

/-- **One key.**  The editor holds the text of the key, and the screen shows its echo. -/
theorem editorScreen_step (filename : List UInt8) (hh : s.ed.Holds txt) (hs : OnScreen s.term g) (key : UInt8) :
    ∃ s' g', (editorScreen filename).step s key = some ((), s') ∧
      s'.ed.Holds ((keyEffect txt key).text txt) ∧
      typeText g ((keyEffect txt key).echo.flatMap TerminalCall.bytes) = some g' ∧
      OnScreen s'.term g' := by
  obtain ⟨e', echo, hkey, hh', _⟩ := editorKey_spec hh key
  have hecho := editorKey_echo hh hkey
  obtain ⟨g', hg'⟩ := echo_returns g txt key
  have hrun := runCalls_onScreen True vgaCols hs (keyEffect txt key).echo_prints
    fun _ => ⟨Nat.le_refl _, g', hg'⟩
  obtain ⟨t', ht'⟩ := hrun.returns trivial
  obtain ⟨g₁, hg₁, ht₁⟩ := hrun.correct t' ht'
  rw [hg'] at hg₁
  cases hg₁
  refine ⟨⟨e', t'⟩, g', ?_, by rw [← typeKey_eq]; exact hh', hg', ht₁⟩
  show (editorKey s.ed key).bind _ = _
  rw [hkey, hecho]
  show (runCalls vgaCols s.term _).bind _ = _
  rw [ht']
  rfl

/-! ## The fresh drawing -/

theorem freshDrawing_prints (filename : List UInt8) (e : Editor) :
    ∀ call ∈ drawEditorHeader filename ++ drawEditorDivider ++ displayFileContent e,
      call.Prints := by
  simp only [List.forall_mem_append]
  refine ⟨⟨?_, ?_⟩, ?_⟩
  · simp [drawEditorHeader, TerminalCall.Prints]
  · intro call hcall
    simp only [drawEditorDivider, List.cons_append, List.mem_cons, List.mem_append,
      List.mem_replicate, List.not_mem_nil, or_false] at hcall
    rcases hcall with rfl | ⟨_, rfl⟩ | rfl | rfl
    · trivial
    · trivial
    · trivial
    · trivial
  · unfold displayFileContent
    split
    · simp [TerminalCall.Prints]
    · exact fun _ h => absurd h List.not_mem_nil

theorem freshDrawing_bytes (hh : e.Holds txt) (filename : List UInt8) :
    (drawEditorHeader filename ++ drawEditorDivider ++ displayFileContent e).flatMap
      TerminalCall.bytes = drawn filename txt := by
  unfold drawn
  rw [List.flatMap_append]
  congr 1
  have hl := hh.len
  unfold displayFileContent
  split
  · rw [hh.text]
    exact List.append_nil txt
  · exact (List.length_eq_zero_iff.mp (by omega)).symm

/-- **The fresh drawing** shows the picture of the text. -/
theorem freshDrawing_onScreen (safe : Prop) (fuel : Nat) (hh : e.Holds txt)
    (filename : List UInt8) (t : Terminal) (hsafe : safe → vgaCols ≤ fuel ∧ ∃ g, picture filename txt = some g) :
    Yields safe (runCalls fuel t (freshDrawing filename e)) fun t' =>
      ∃ g, picture filename txt = some g ∧ OnScreen t' g := by
  have hbytes := freshDrawing_bytes hh filename
  unfold picture at hsafe ⊢
  rw [← hbytes] at hsafe ⊢
  unfold freshDrawing runCalls
  rw [List.foldlM_cons]
  refine Yields.bind_eq (a := terminalClear t) rfl ?_
  exact runCalls_onScreen safe fuel (clear_onScreen t) (freshDrawing_prints filename e) hsafe

theorem freshDrawing_returns (hh : e.Holds txt) (hg : picture filename txt = some g) (t : Terminal) :
    ∃ t', runCalls vgaCols t (freshDrawing filename e) = some t' ∧ OnScreen t' g := by
  have hfresh := freshDrawing_onScreen True vgaCols hh filename t fun _ => ⟨Nat.le_refl _, g, hg⟩
  obtain ⟨t', ht'⟩ := hfresh.returns trivial
  obtain ⟨g', hg', hs⟩ := hfresh.correct t' ht'
  rw [hg] at hg'
  cases hg'
  exact ⟨t', ht', hs⟩

theorem drawsWithin_iff (hh : s.ed.Holds txt) (filename : List UInt8) :
    DrawsWithin filename s ↔ Fits blankGrid (drawn filename txt) := by
  have hbytes : (freshDrawing filename s.ed).flatMap TerminalCall.bytes = drawn filename txt :=
    freshDrawing_bytes hh filename
  unfold DrawsWithin
  rw [fitsScreen_iff (clear_onScreen s.term), hbytes]

/-- In terms of the grids. -/
theorem showsText_iff (hh : s.ed.Holds txt) (hs : OnScreen s.term g)
    (hp : picture filename txt = some g') :
    ShowsText filename s ↔ (Fits blankGrid (drawn filename txt) → g = g') := by
  unfold ShowsText
  rw [drawsWithin_iff hh]
  constructor
  · rintro ⟨fuel, t, ht, hsame⟩ hfit
    obtain ⟨g₁, hg₁, ht₁⟩ :=
      (freshDrawing_onScreen False fuel hh filename s.term False.elim).correct t ht
    rw [hp] at hg₁
    cases hg₁
    rw [← hs.grid, ← ht₁.grid]
    exact (sameCharacters_iff hs.cursor ht₁.cursor).mp (hsame hfit)
  · intro hshow
    obtain ⟨t, ht, ht'⟩ := freshDrawing_returns hh hp s.term
    refine ⟨vgaCols, t, ht, fun hfit => ?_⟩
    rw [sameCharacters_iff hs.cursor ht'.cursor, hs.grid, ht'.grid]
    exact hshow hfit

/-! ## Keys that keep the picture -/

theorem drawn_append (filename as bs : List UInt8) :
    drawn filename (as ++ bs) = drawn filename as ++ bs := (List.append_assoc _ _ _).symm

theorem picture_append (filename as bs : List UInt8) :
    picture filename (as ++ bs) = (picture filename as).bind fun g => typeText g bs := by
  unfold picture
  rw [drawn_append, typeText_append]

theorem picture_pos_lt (hg : picture filename txt = some g) : g.pos < screenCells :=
  typeText_pos_lt (by decide) hg

theorem fits_of_append {as bs : List UInt8} (hg : picture filename as = some g)
    (h : Fits blankGrid (drawn filename (as ++ bs))) : Fits blankGrid (drawn filename as) := by
  rw [drawn_append, fits_append hg] at h
  exact h.1

/-- The text after a key can be drawn. -/
theorem picture_after (hg : picture filename txt = some g) (key : UInt8) :
    ∃ g', picture filename ((keyEffect txt key).text txt) = some g' := by
  cases hk : keyEffect txt key with
  | nothing | bell => exact ⟨g, hg⟩
  | append c =>
    obtain ⟨g', hg'⟩ := typeChar_returns g (keyEffect_append hk)
    refine ⟨g', ?_⟩
    show picture filename (txt ++ [c]) = some g'
    rw [picture_append, hg, ← hg']
    exact typeText_singleton g c
  | erase =>
    have hsplit := List.dropLast_append_getLast (keyEffect_erase hk)
    rw [← hsplit, picture_append] at hg
    obtain ⟨g', hg', _⟩ := Option.bind_eq_some_iff.mp hg
    exact ⟨g', hg'⟩

/-- A backspace takes the last byte of a picture back. -/
theorem back_last_iff {xs : List UInt8} (hg : picture filename xs = some g)
    (hg' : picture filename (xs ++ [c]) = some g')
    (hfit : Fits blankGrid (drawn filename (xs ++ [c]))) :
    back (ch ' ') g' = g ↔ OneCellOn g.pos c ∧ g.cell g.pos = ch ' ' := by
  rw [picture_append, hg, Option.bind_some, typeText_singleton] at hg'
  rw [drawn_append, fits_append hg, fits_singleton] at hfit
  exact back_typeChar_iff (picture_pos_lt hg) hg' hfit.2

/-- The cell the bell rings in has to be blank, and the rows must not move up. -/
theorem back_bell_iff (hpos : g.pos < screenCells) :
    back (ch ' ') (put vgaCols screenCells g (ch '!')) = g ↔
      g.pos + 1 < screenCells ∧ g.cell g.pos = ch ' ' := by
  have h80 : vgaCols = 80 := rfl
  have hcells : screenCells = 1920 := rfl
  by_cases hlt : g.pos + 1 < screenCells
  · rw [back_put_iff hlt, and_iff_right hlt]
  · constructor
    · intro heq
      exfalso
      have hlast : g.pos + 1 = screenCells := by omega
      have := congrArg TextGrid.pos heq
      rw [put_last hlast] at this
      have hup : screenCells - vgaCols - 1 = g.pos := this
      omega
    · rintro ⟨h, _⟩
      exact absurd h hlt

/-- **One key.**  On a screen that shows the text the echo shows the text after the key exactly if
the key keeps the picture. -/
theorem keepsPicture_iff (hg : picture filename txt = some g)
    (hfit : Fits blankGrid (drawn filename txt)) {g₁ : TextGrid UInt8}
    (hecho : typeText g ((keyEffect txt key).echo.flatMap TerminalCall.bytes) = some g')
    (hp : picture filename ((keyEffect txt key).text txt) = some g₁) :
    (Fits blankGrid (drawn filename ((keyEffect txt key).text txt)) → g' = g₁) ↔
      KeepsPicture filename txt key := by
  unfold KeepsPicture
  cases hk : keyEffect txt key with
  | nothing =>
    rw [hk] at hecho hp
    rw [show picture filename txt = some g₁ from hp] at hg
    cases hecho
    cases hg
    exact iff_of_true (fun _ => rfl) trivial
  | append c =>
    rw [hk] at hecho hp
    have hdraw : picture filename (txt ++ [c]) = typeText g [c] := by
      rw [picture_append, hg]
      rfl
    have hsame : some g' = some g₁ := hecho.symm.trans (hdraw.symm.trans hp)
    exact iff_of_true (fun _ => Option.some.inj hsame) trivial
  | erase =>
    rw [hk] at hecho hp
    obtain ⟨xs, c, rfl⟩ : ∃ xs c, txt = xs ++ [c] :=
      ⟨_, _, (List.dropLast_append_getLast (keyEffect_erase hk)).symm⟩
    have htext : KeyEffect.erase.text (xs ++ [c]) = xs := List.dropLast_concat
    rw [htext] at hp ⊢
    rw [List.dropLast_concat, List.getLastD_concat]
    have hback : g' = back (ch ' ') g := (Option.some.inj hecho).symm
    have hiff := back_last_iff hp hg hfit
    have hxs := fits_of_append hp hfit
    constructor
    · intro h
      refine .inr ⟨hfit, fun g₂ hg₂ => ?_⟩
      rw [hp] at hg₂
      cases hg₂
      rw [← hiff, ← hback]
      exact h hxs
    · rintro (h | ⟨_, h⟩) _
      · exact absurd hxs h
      · rw [hback, hiff]
        exact h g₁ hp
  | bell =>
    rw [hk] at hecho hp
    rw [show picture filename txt = some g₁ from hp] at hg
    cases hg
    have hback : g' = back (ch ' ') (put vgaCols screenCells g (ch '!')) :=
      (Option.some.inj hecho).symm
    have hiff := back_bell_iff (picture_pos_lt hp)
    constructor
    · intro h
      refine .inr fun g₂ hg₂ => ?_
      rw [show picture filename txt = some g from hp] at hg₂
      cases hg₂
      rw [← hiff, ← hback]
      exact h hfit
    · rintro (h | h) _
      · exact absurd hfit h
      · rw [hback, hiff]
        exact h g hp

/-- A key that keeps the picture does not bring a drawing back that has scrolled. -/
theorem KeepsPicture.fits (h : KeepsPicture filename txt key) (hg : picture filename txt = some g)
    (hfit : Fits blankGrid (drawn filename ((keyEffect txt key).text txt))) :
    Fits blankGrid (drawn filename txt) := by
  unfold KeepsPicture at h
  cases hk : keyEffect txt key with
  | nothing | bell =>
    rw [hk] at hfit
    exact hfit
  | append c =>
    rw [hk] at hfit
    exact fits_of_append hg hfit
  | erase =>
    rw [hk] at h hfit
    rcases h with h | ⟨h, _⟩
    · exact absurd hfit h
    · exact h

/-! ## Runs -/

/-- The screen shows the picture of the text, if that does not scroll. -/
structure ShowsInv (filename : List UInt8) (s : EditorScreen) (txt : List UInt8)
    (g : TextGrid UInt8) : Prop where
  holds : s.ed.Holds txt
  drawable : picture filename txt = some g
  screen : ∃ g', OnScreen s.term g' ∧ (Fits blankGrid (drawn filename txt) → g' = g)

theorem ShowsInv.contents {g : TextGrid UInt8} (h : ShowsInv filename s txt g) :
    s.ed.contents = txt := h.holds.text

theorem ShowsInv.shows {g : TextGrid UInt8} (h : ShowsInv filename s txt g) :
    ShowsText filename s := by
  obtain ⟨g', hs, hshow⟩ := h.screen
  exact (showsText_iff h.holds hs h.drawable).mpr hshow

/-- MiniEdit and callers that keep the picture. -/
def pictureKeeper (filename : List UInt8) : Machine EditorScreen UInt8 Unit :=
  (editorScreen filename).restrict fun s key => KeepsPicture filename s.ed.contents key

theorem pictureKeeper_inv (h : (pictureKeeper filename).Reach s) :
    ∃ txt g, ShowsInv filename s txt g := by
  refine h.invariant (I := fun s => ∃ txt g, ShowsInv filename s txt g) ?_ ?_
  · rintro s ⟨t, fuel, txt, _, hh, hrun⟩
    obtain ⟨g, hg, hs⟩ :=
      (freshDrawing_onScreen False fuel hh filename t False.elim).correct _ hrun
    exact ⟨txt, g, hh, hg, g, hs, fun _ => rfl⟩
  · rintro s key o s₁ ⟨txt, g, hinv⟩ ⟨_, hkeep⟩ hstep
    rw [hinv.contents] at hkeep
    obtain ⟨hh, hg, g', hs, hshow⟩ := hinv
    obtain ⟨s', g'', hstep', hh', hecho, hs'⟩ := editorScreen_step filename hh hs key
    obtain ⟨g₁, hg₁⟩ := picture_after hg key
    cases hstep.symm.trans hstep'
    refine ⟨_, g₁, hh', hg₁, g'', hs', fun hfit => ?_⟩
    have hfit₀ := hkeep.fits hg hfit
    obtain rfl := hshow hfit₀
    exact (keepsPicture_iff hg hfit₀ hecho hg₁).mpr hkeep hfit

/-- **What MiniEdit shows.**  In every run whose keys keep the picture the screen shows the fresh
drawing, and from there, while that does not scroll, a key leaves a screen that does exactly if it
keeps the picture. -/
theorem editor_showsText (h : (pictureKeeper filename).Reach s) :
    ShowsText filename s ∧ ∀ key, key ≠ keyEsc →
      ∃ s', (editorScreen filename).step s key = some ((), s') ∧
        (DrawsWithin filename s →
          (ShowsText filename s' ↔ KeepsPicture filename s.ed.contents key)) := by
  obtain ⟨txt, g, hinv⟩ := pictureKeeper_inv h
  refine ⟨hinv.shows, fun key _ => ?_⟩
  rw [hinv.contents]
  obtain ⟨hh, hg, g', hs, hshow⟩ := hinv
  obtain ⟨s', g'', hstep, hh', hecho, hs'⟩ := editorScreen_step filename hh hs key
  obtain ⟨g₁, hg₁⟩ := picture_after hg key
  refine ⟨s', hstep, fun hwithin => ?_⟩
  have hfit := (drawsWithin_iff hh filename).mp hwithin
  obtain rfl := hshow hfit
  rw [showsText_iff hh' hs' hg₁]
  exact keepsPicture_iff hg hfit hecho hg₁

/-- MiniEdit, started on an empty file. -/
theorem editorScreen_empty (hg : picture filename [] = some g) :
    ∃ s, (editorScreen filename).init s ∧ s.ed.Holds [] ∧ OnScreen s.term g := by
  have hh : Editor.Holds ⟨Chars.fill _ 0, 0⟩ [] := ⟨rfl, rfl, Nat.zero_le _⟩
  obtain ⟨t, ht, hs⟩ := freshDrawing_returns hh hg (terminalInit (Terminal.boot fun _ => 0))
  exact ⟨⟨_, t⟩, ⟨_, _, [], Machine.Reach.init ⟨_, rfl⟩, hh, ht⟩, hh, hs⟩

theorem editor_showsText_a : ∃ s, (pictureKeeper (text "/a")).Reach s ∧
    s.ed.contents = text "a" ∧ ShowsText (text "/a") s := by
  obtain ⟨g, hg⟩ : ∃ g, picture (text "/a") [] = some g :=
    Option.isSome_iff_exists.mp (by decide +kernel)
  obtain ⟨s, hinit, hh, hs⟩ := editorScreen_empty hg
  obtain ⟨s', _, hstep, hh', _, _⟩ := editorScreen_step (text "/a") hh hs 97
  have hkeep : KeepsPicture (text "/a") s.ed.contents 97 := by
    rw [show s.ed.contents = [] from hh.text]
    trivial
  have hreach := (Machine.Reach.init (M := pictureKeeper (text "/a")) hinit).step
    ⟨show (97 : UInt8) ≠ keyEsc by decide, hkeep⟩ hstep
  exact ⟨s', hreach, hh'.text, (editor_showsText hreach).1⟩

/-- `a`, ENTER and BACKSPACE: the cursor is at the end of the row, and not behind the `a`. -/
theorem backspace_newline_shows : ∃ s₀ s, (editorScreen (text "/a")).init s₀ ∧
    s₀.ed.contents = [] ∧ (editorScreen (text "/a")).Run s₀ [97, 13, 8] [(), (), ()] s ∧
      s.ed.contents = text "a" ∧ s.term.termCol = 79 ∧ ¬ ShowsText (text "/a") s := by
  obtain ⟨g, hg⟩ : ∃ g, picture (text "/a") [] = some g :=
    Option.isSome_iff_exists.mp (by decide +kernel)
  obtain ⟨s₀, hinit, hh₀, hs₀⟩ := editorScreen_empty hg
  obtain ⟨s₁, g₁, hstep₁, hh₁, hg₁, hs₁⟩ := editorScreen_step (text "/a") hh₀ hs₀ 97
  obtain ⟨s₂, g₂, hstep₂, hh₂, hg₂, hs₂⟩ := editorScreen_step (text "/a") hh₁ hs₁ 13
  obtain ⟨s₃, g₃, hstep₃, hh₃, hg₃, hs₃⟩ := editorScreen_step (text "/a") hh₂ hs₂ 8
  have hp₁ : picture (text "/a") [97] = some g₁ := by
    rw [show ([97] : List UInt8) = [] ++ [97] from rfl, picture_append, hg]
    exact hg₁
  have hp₃ : picture (text "/a") [97, 10, 8] = some g₃ := by
    rw [show ([97, 10, 8] : List UInt8) = [97] ++ ([10] ++ [8]) from rfl, picture_append, hp₁,
      Option.bind_some, typeText_append, show typeText g₁ [10] = some g₂ from hg₂]
    exact hg₃
  have hcol₁ : (picture (text "/a") [97]).map (fun g => g.pos % vgaCols) = some 1 := by
    decide +kernel
  have hcol₃ : (picture (text "/a") [97, 10, 8]).map (fun g => g.pos % vgaCols) = some 79 := by
    decide +kernel
  rw [hp₁, Option.map_some, Option.some_inj] at hcol₁
  rw [hp₃, Option.map_some, Option.some_inj] at hcol₃
  refine ⟨s₀, s₃, hinit, hh₀.text, .cons (show (97 : UInt8) ≠ keyEsc by decide) hstep₁
    (.cons (show (13 : UInt8) ≠ keyEsc by decide) hstep₂
      (.single (show (8 : UInt8) ≠ keyEsc by decide) hstep₃)), hh₃.text, ?_, ?_⟩
  · rw [← hs₃.cursor.pos_mod, hs₃.grid, hcol₃]
  · rw [showsText_iff hh₃ hs₃ hp₁]
    intro hshow
    have hsame := hshow (by decide +kernel)
    rw [hsame, hcol₁] at hcol₃
    exact absurd hcol₃ (by decide)

end MiniOS
