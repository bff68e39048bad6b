import MiniOS.Editor.MiniEdit
import MiniOS.Filesystem.Refinement
import MiniOS.Memory.Numbers
import MiniOS.Screen.Printing

/-!
# What a session saves

The text a MiniEdit session holds is a fold of the keys (`typeKey`): a key that
is printed or ENTER appends a byte while there are fewer than 256, BACKSPACE
drops the last one.  `edit_buffer` holds that text after every key
(`editorKeys_spec`), so at ESC the file gets the fold of all keys over what it
held before (`editorOpen_saves`).  What is shown meanwhile is the page with the
old text, the echo of the keys and the message at the end (`sessionText`); a
session comes back on a terminal if the tabs of that fit.

`/` is a directory to `fs_is_dir` only: it has no entry, so the editor makes one
and `edit /` ends with a file of that name (`edit_root`).
-/

namespace MiniOS

open Lib

/-! ## The text -/

/-- What a key other than ESC does to the text. -/
def typeKey (txt : List UInt8) (key : UInt8) : List UInt8 :=
  if key = keyBackspace then txt.dropLast
  else if key = ch '\r' ∨ key = ch '\n' then
    if txt.length < fsMaxFilesize then txt ++ [ch '\n'] else txt
  else if key ≥ 32 ∧ key < 127 then
    if txt.length < fsMaxFilesize then txt ++ [key] else txt
  else txt

/-! ## What is shown -/

/-- The line of dashes. -/
def editorRule : List UInt8 := List.replicate 80 (ch '-') ++ [ch '\n']

/-- The screen a session starts with. -/
def editorPage (path old : List UInt8) : List UInt8 :=
  text " MiniEdit  |  " ++ path ++
    text "  |  [ESC] Save & Quit   [BKSP] Delete   [ENTER] New line " ++ [ch '\n'] ++ editorRule ++ old

/-- What a key other than ESC shows behind the text. -/
def keyEcho (txt : List UInt8) (key : UInt8) : List UInt8 :=
  if key = keyBackspace then
    if txt = [] then [] else [keyBackspace]
  else if key = ch '\r' ∨ key = ch '\n' then
    if txt.length < fsMaxFilesize then [ch '\n'] else []
  else if key ≥ 32 ∧ key < 127 then
    if txt.length < fsMaxFilesize then [key] else [ch '!', keyBackspace]
  else []

def keysEcho (txt : List UInt8) : List UInt8 → List UInt8
  | [] => []
  | key :: keys => keyEcho txt key ++ keysEcho (typeKey txt key) keys

/-- The message that `n` bytes are saved. -/
def savedText (path : List UInt8) (n : Nat) : List UInt8 :=
  [ch '\n'] ++ editorRule ++
    (text "  Saved: " ++ path ++ text "  (" ++ decimal n ++ text " bytes)\n")

/-- All that a session shows from its page on. -/
def sessionText (path old keys : List UInt8) : List UInt8 :=
  editorPage path old ++ keysEcho old keys ++ savedText path (keys.foldl typeKey old).length

/-! ## One key -/

/-- `edit_buffer` holds the text. -/
structure Editor.Holds (e : Editor) (txt : List UInt8) : Prop where
  len : e.len = txt.length
  text : e.buffer.bytes.take e.len = txt
  fits : txt.length ≤ fsMaxFilesize

/-- A byte behind the text, and a NUL behind it. -/
theorem Editor.Holds.append {e : Editor} {txt : List UInt8} (h : e.Holds txt)
    (hlen : txt.length < fsMaxFilesize) (c : UInt8) :
    ∃ b₁ b₂, e.buffer.put e.len c = some b₁ ∧ b₁.put (e.len + 1) 0 = some b₂ ∧
      Editor.Holds ⟨b₂, e.len + 1⟩ (txt ++ [c]) := by
  have hl := h.len
  have hbuf := e.buffer.length_eq
  obtain ⟨b₁, h1, hb1⟩ := Chars.put_eq (b := e.buffer) (i := e.len) (by omega) c
  obtain ⟨b₂, h2, hb2⟩ := Chars.put_eq (b := b₁) (i := e.len + 1) (by omega) 0
  refine ⟨b₁, b₂, h1, h2, ?_, ?_, ?_⟩
  · show e.len + 1 = (txt ++ [c]).length
    rw [List.length_append, List.length_singleton, hl]
  · show b₂.bytes.take (e.len + 1) = txt ++ [c]
    rw [hb2, List.take_set_of_le (Nat.le_refl _), hb1, List.take_add_one,
      List.take_set_of_le (Nat.le_refl _), h.text, List.getElem?_set_self (by omega)]
    rfl
  · rw [List.length_append, List.length_singleton]
    omega

/-- The last byte of the text goes. -/
theorem Editor.Holds.dropLast {e : Editor} {txt : List UInt8} (h : e.Holds txt) (hpos : 0 < e.len) :
    ∃ b, e.buffer.put (e.len - 1) 0 = some b ∧ Editor.Holds ⟨b, e.len - 1⟩ txt.dropLast := by
  have hl := h.len
  have hfits := h.fits
  obtain ⟨b, hb, hbytes⟩ := Chars.put_eq (b := e.buffer) (i := e.len - 1) (by omega) 0
  refine ⟨b, hb, ?_, ?_, ?_⟩
  · show e.len - 1 = txt.dropLast.length
    rw [List.length_dropLast, hl]
  · show b.bytes.take (e.len - 1) = txt.dropLast
    rw [hbytes, List.take_set_of_le (Nat.le_refl _), List.dropLast_eq_take, ← hl]
    conv => rhs; rw [← h.text, List.take_take, Nat.min_eq_left (Nat.sub_le _ _)]
  · rw [List.length_dropLast]
    omega

theorem handleBackspaceKey_spec {e : Editor} {txt : List UInt8} (h : e.Holds txt) :
    ∃ e', handleBackspaceKey e = some (e', if txt = [] then [] else [.putchar keyBackspace]) ∧
      e'.Holds txt.dropLast := by
  have hl := h.len
  unfold handleBackspaceKey
  by_cases hnil : txt = []
  · subst hnil
    rw [if_neg (by rw [hl, List.length_nil]; omega), if_pos rfl]
    exact ⟨e, rfl, h⟩
  · have hpos : 0 < e.len := by
      rw [hl]
      exact List.length_pos_iff.mpr hnil
    obtain ⟨b, hput, hh⟩ := h.dropLast hpos
    rw [if_pos hpos, if_neg hnil, hput]
    exact ⟨_, rfl, hh⟩

theorem handleEnterKey_spec {e : Editor} {txt : List UInt8} (h : e.Holds txt) :
    ∃ e', handleEnterKey e =
        some (e', if txt.length < fsMaxFilesize then [.putchar (ch '\n')] else []) ∧
      e'.Holds (if txt.length < fsMaxFilesize then txt ++ [ch '\n'] else txt) := by
  unfold handleEnterKey
  rw [h.len]
  by_cases hlen : txt.length < fsMaxFilesize
  · obtain ⟨b₁, b₂, h1, h2, hh⟩ := h.append hlen (ch '\n')
    rw [h.len] at h1 h2 hh
    simp only [if_pos hlen, h1, h2, Option.bind_eq_bind, Option.bind_some]
    exact ⟨_, rfl, hh⟩
  · simp only [if_neg hlen]
    exact ⟨e, rfl, h⟩

theorem handlePrintableChar_spec {e : Editor} {txt : List UInt8} (h : e.Holds txt) (c : UInt8) :
    ∃ e', handlePrintableChar e c =
        some (e', if txt.length < fsMaxFilesize then [.putchar c] else
          [.setcolor .lightRed .black, .putchar (ch '!'), .putchar keyBackspace,
            .setcolor .white .black]) ∧
      e'.Holds (if txt.length < fsMaxFilesize then txt ++ [c] else txt) := by
  unfold handlePrintableChar
  rw [h.len]
  by_cases hlen : txt.length < fsMaxFilesize
  · obtain ⟨b₁, b₂, h1, h2, hh⟩ := h.append hlen c
    rw [h.len] at h1 h2 hh
    simp only [if_pos hlen, h1, h2, Option.bind_eq_bind, Option.bind_some]
    exact ⟨_, rfl, hh⟩
  · simp only [if_neg hlen]
    exact ⟨e, rfl, h⟩

/-- **One key.**  The buffer follows the text, and the echo is shown. -/
theorem editorKey_spec {e : Editor} {txt : List UInt8} (h : e.Holds txt) (key : UInt8) :
    ∃ e' echo, editorKey e key = some (e', echo) ∧ e'.Holds (typeKey txt key) ∧
      Displays echo (keyEcho txt key) := by
  unfold editorKey typeKey keyEcho
  split
  · obtain ⟨e', he, hh⟩ := handleBackspaceKey_spec h
    refine ⟨e', _, he, hh, ?_⟩
    split
    · exact displays_nil
    · exact displays_putchar _
  split
  · obtain ⟨e', he, hh⟩ := handleEnterKey_spec h
    refine ⟨e', _, he, hh, ?_⟩
    split
    · exact displays_putchar _
    · exact displays_nil
  split
  · obtain ⟨e', he, hh⟩ := handlePrintableChar_spec h key
    refine ⟨e', _, he, hh, ?_⟩
    split
    · exact displays_putchar _
    · exact (displays_setcolor _ _).append ((displays_putchar _).append
        ((displays_putchar _).append (displays_setcolor _ _)))
  · exact ⟨e, [], rfl, h, displays_nil⟩

/-! ## The session -/

/-- The loop up to ESC does the keys, shows their echo and saves. -/
theorem runEditorInputLoop_esc {e : Editor} {txt : List UInt8} (h : e.Holds txt) {keys : List UInt8}
    (hesc : keyEsc ∉ keys) (t : FsTable) (path : List UInt8) :
    ∃ e' echo, e'.Holds (keys.foldl typeKey txt) ∧ Displays echo (keysEcho txt keys) ∧
      ∀ t' shown, saveAndShowResult t e' path = some (t', shown) → ∀ out rest,
        runEditorInputLoop t e path out (keys ++ keyEsc :: rest) =
          some ⟨(t', e'), out ++ (echo ++ shown), rest⟩ := by
  induction keys generalizing e txt with
  | nil =>
    refine ⟨e, [], h, displays_nil, fun t' shown hs out rest => ?_⟩
    rw [List.nil_append, runEditorInputLoop, if_pos rfl, hs]
    rfl
  | cons key keys ih =>
    rw [List.mem_cons, not_or] at hesc
    obtain ⟨e₁, echo₁, h1, hh, hd⟩ := editorKey_spec h key
    obtain ⟨e', echo, hh', hd', hrun⟩ := ih hh hesc.2
    refine ⟨e', echo₁ ++ echo, hh', hd.append hd', fun t' shown hs out rest => ?_⟩
    rw [List.cons_append, runEditorInputLoop, if_neg (Ne.symm hesc.1), h1, List.append_assoc,
      ← List.append_assoc]
    exact hrun t' shown hs (out ++ echo₁) rest

/-- What a path is to the editor: a file, a new path, or neither. -/
def Opens (m : FsMap) (path old : List UInt8) : Prop :=
  m.lookup path = some (.file old) ∨ (Creatable m path ∧ old = [])

theorem Opens.unique {m : FsMap} {path old old' : List UInt8} (h : Opens m path old)
    (h' : Opens m path old') : old = old' := by
  have hnew : ∀ {b : List UInt8}, m.lookup path = some (.file b) → ¬ Creatable m path :=
    fun hl hc => hc.2.2.1 (Finmap.mem_of_lookup_eq_some hl)
  rcases h with h | ⟨hc, rfl⟩ <;> rcases h' with h' | ⟨hc', rfl⟩
  · rw [h] at h'
    cases h'
    rfl
  · exact absurd hc' (hnew h)
  · exact absurd hc (hnew h')
  · rfl

/-- `load_file_or_create` fails without a trace, or loads the file that now is there. -/
theorem loadFileOrCreate_spec {t : FsTable} (h : TableInv t) (e : Editor) (path : List UInt8) :
    ∃ ret e' printed t', loadFileOrCreate t e path = some (ret, e', printed, t') ∧ TableInv t' ∧
      ((∃ old, Opens (fsMap t) (str path) old ∧ ret = 0 ∧ e'.Holds old ∧
          (fsMap t').lookup (str path) = some (.file old) ∧
          (∀ v, (fsMap t').insert (str path) v = (fsMap t).insert (str path) v) ∧ printed = []) ∨
        ((∀ old, ¬ Opens (fsMap t) (str path) old) ∧ ret = -1 ∧ e'.len = e.len ∧ t' = t)) := by
  obtain ⟨n, buf, hread, hcase⟩ := fsRead_spec h path e.buffer (fsMaxFilesize + 1) (by decide)
    (by decide) (Nat.le_refl _)
  unfold loadFileOrCreate
  simp only [hread, Option.bind_eq_bind, Option.bind_some]
  rw [Nat.add_sub_cancel] at hcase
  rcases hcase with ⟨old, hlook, hn, hbuf⟩ | ⟨hno, hn, rfl⟩
  · have hold := fsMap_file_length h hlook
    have hbl := e.buffer.length_eq
    rw [List.take_of_length_le hold] at hn hbuf
    obtain ⟨b, hb, hbytes⟩ := Chars.put_eq (b := buf) (i := old.length) (by omega) 0
    rw [if_pos (by omega), hn, Int.toNat_natCast, hb]
    refine ⟨_, _, _, _, rfl, h,
      .inl ⟨old, .inl hlook, rfl, ⟨rfl, ?_, hold⟩, hlook, fun _ => rfl, rfl⟩⟩
    show b.bytes.take old.length = old
    rw [hbytes, List.take_set_of_le (Nat.le_refl _), hbuf, List.take_left]
  · rw [if_neg (by omega)]
    obtain ⟨r, hr, hinv, hcase⟩ := fsCreate_spec h path
    rw [hr, Option.bind_some]
    rcases hcase with ⟨hc, hret, hmap⟩ | ⟨hc, hret, htab⟩
    · obtain ⟨b, hb, _⟩ := Chars.put_eq (b := e.buffer) (i := 0) (by decide) 0
      rw [if_neg (by omega), hb]
      refine ⟨_, _, _, _, rfl, hinv,
        .inl ⟨[], .inr ⟨hc, rfl⟩, rfl, ⟨rfl, rfl, by decide⟩, ?_, ?_, createEntry_silent hr hret⟩⟩
      · rw [hmap, Finmap.lookup_insert]
      · intro v
        rw [hmap, Finmap.insert_insert]
    · rw [if_pos (by omega)]
      refine ⟨_, _, _, _, rfl, hinv, .inr ⟨?_, rfl, rfl, htab⟩⟩
      rintro old (h' | ⟨h', _⟩)
      · exact hno old h'
      · exact hc h'

theorem drawEditorDivider_displays : Displays drawEditorDivider editorRule := by
  have hrule : Displays (List.replicate editorDividerWidth (.putchar (ch '-')))
      (List.replicate 80 (ch '-')) := by
    rw [← List.map_replicate]
    exact displays_putchars _
  exact ((displays_setcolor _ _).append hrule).append
    ((displays_setcolor _ _).append (displays_putchar _))

/-- What is saved is the text held, and the message says so. -/
theorem saveAndShowResult_spec {t : FsTable} (h : TableInv t) {e : Editor} {txt : List UInt8}
    (he : e.Holds txt) {path old : List UInt8}
    (hlook : (fsMap t).lookup (str path) = some (.file old)) :
    ∃ t' shown, saveAndShowResult t e path = some (t', shown) ∧ TableInv t' ∧
      fsMap t' = (fsMap t).insert (str path) (.file txt) ∧
      Displays shown (savedText (str path) txt.length) := by
  have hl := he.len
  have hfits := he.fits
  obtain ⟨r, hr, hinv, hcase⟩ := fsWrite_spec h path e.buffer.bytes e.len
    (by rw [e.buffer.length_eq]; omega)
  unfold saveAndShowResult
  simp only [hr, Option.bind_eq_bind, Option.bind_some]
  rcases hcase with ⟨_, _, hret, hmap⟩ | ⟨hno, _⟩
  · rw [Nat.min_eq_left (by omega), he.text] at hret hmap
    have hsilent := fsWrite_silent hr (by omega)
    refine ⟨r.table, _, rfl, hinv, hmap, ?_⟩
    have hline : 0 ∉ text "  Saved: " ++ str path ++ text "  (" ++ decimal txt.length ++
        text " bytes)\n" := by
      simp only [List.mem_append, not_or]
      exact ⟨⟨⟨⟨by decide, zero_not_mem_str path⟩, by decide⟩, zero_notMem_decimal _⟩, by decide⟩
    rw [hsilent, hret, if_pos (Int.natCast_nonneg _), Int.toNat_natCast]
    exact (((displays_writestring []).append (displays_putchar _)).append
      drawEditorDivider_displays).append ((displays_string hline).colored _ _ _ _)
  · exact absurd hlook (hno old)

/-- The page: the header, the divider and the text held. -/
theorem editorPage_displays {e : Editor} {old : List UInt8} (h : e.Holds old) (path : List UInt8) :
    Displays (drawEditorHeader path ++ drawEditorDivider ++ displayFileContent e)
      (editorPage (str path) old) := by
  have hheader : Displays (drawEditorHeader path) (text " MiniEdit  |  " ++ str path ++
      text "  |  [ESC] Save & Quit   [BKSP] Delete   [ENTER] New line " ++ [ch '\n']) :=
    ((displays_setcolor _ _).append (displays_string (by decide))).append (displays_writestring _)
      |>.append (displays_string (by decide)) |>.append
        ((displays_setcolor _ _).append (displays_putchar _))
  have hcontent : Displays (displayFileContent e) old := by
    have hl := h.len
    unfold displayFileContent
    split
    · rw [h.text]
      exact displays_write old
    · rw [List.length_eq_zero_iff.mp (show old.length = 0 by omega)]
      exact displays_nil
  exact (hheader.append drawEditorDivider_displays).append hcontent

/-- What is shown from `terminal_clear` on. -/
def ShowsSession (out : List TerminalCall) (txt : List UInt8) : Prop :=
  ∃ before behind, out = before ++ .clear :: behind ∧ Displays before [] ∧ Displays behind txt

/-- **A session.**  It ends at ESC with the fold of the keys in the file, or, where the path
can neither be read nor created, leaves at once and without a trace. -/
theorem editorOpen_spec {t : FsTable} (h : TableInv t) (e : Editor) {path : List UInt8}
    (hp : str path ≠ []) {keys : List UInt8} (hesc : keyEsc ∉ keys) (rest : List UInt8) :
    ∃ r, editorOpen t e path (keys ++ keyEsc :: rest) = some r ∧ TableInv r.val.1 ∧
      ((∃ old, Opens (fsMap t) (str path) old ∧ r.keys = rest ∧
          r.val.2.Holds (keys.foldl typeKey old) ∧
          fsMap r.val.1 = (fsMap t).insert (str path) (.file (keys.foldl typeKey old)) ∧
          ShowsSession r.out (sessionText (str path) old keys)) ∨
        ((∀ old, ¬ Opens (fsMap t) (str path) old) ∧ r.keys = keys ++ keyEsc :: rest ∧
          r.val.2.len = e.len ∧ r.val.1 = t)) := by
  obtain ⟨ret, e₀, printed, t₀, hload, hinv, hcase⟩ := loadFileOrCreate_spec h e path
  unfold editorOpen
  rw [if_neg (fun h0 => hp ((str_eq_nil_iff path).mpr h0)), hload]
  simp only [Option.bind_eq_bind, Option.bind_some]
  rcases hcase with ⟨old, hopen, hret, hholds, hlook, hins, hprinted⟩ | ⟨hno, hret, hlen, htab⟩
  · obtain ⟨e', echo, hh, hecho, hrun⟩ := runEditorInputLoop_esc hholds hesc t₀ path
    obtain ⟨t', shown, hs, hinv', hmap, hshown⟩ := saveAndShowResult_spec hinv hh hlook
    rw [if_neg (by omega), hrun t' shown hs]
    refine ⟨_, rfl, hinv', .inl ⟨old, hopen, rfl, hh, ?_, ?_⟩⟩
    · rw [hmap, hins]
    · refine ⟨[.writestring printed], _, rfl, by rw [hprinted]; exact displays_writestring [], ?_⟩
      unfold sessionText
      rw [List.append_assoc (editorPage _ _)]
      exact (editorPage_displays hholds path).append (hecho.append hshown)
  · rw [if_pos (by omega)]
    exact ⟨_, rfl, hinv, .inr ⟨hno, rfl, hlen, htab⟩⟩

/-- Without an ESC to come the loop waits for ever. -/
theorem runEditorInputLoop_eq_none {t : FsTable} {e : Editor} {path keys : List UInt8}
    (hesc : keyEsc ∉ keys) (out : List TerminalCall) :
    runEditorInputLoop t e path out keys = none := by
  induction keys generalizing e out with
  | nil => rfl
  | cons key keys ih =>
    rw [List.mem_cons, not_or] at hesc
    rw [runEditorInputLoop, if_neg (Ne.symm hesc.1)]
    cases editorKey e key with
    | none => rfl
    | some r => exact ih hesc.2 (out ++ r.2)

/-- A session that comes back, with whatever keys. -/
theorem editorOpen_cases {t : FsTable} (h : TableInv t) {e : Editor} {path keys : List UInt8}
    (hp : str path ≠ []) {r : Typed (FsTable × Editor)} (hr : editorOpen t e path keys = some r) :
    (∃ old txt, Opens (fsMap t) (str path) old ∧
        fsMap r.val.1 = (fsMap t).insert (str path) (.file txt)) ∨
      ((∀ old, ¬ Opens (fsMap t) (str path) old) ∧ r.val.1 = t) := by
  by_cases hesc : keyEsc ∈ keys
  · obtain ⟨ks, rest, rfl, hks⟩ := List.eq_append_cons_of_mem hesc
    obtain ⟨r', hr', _, hcase⟩ := editorOpen_spec h e hp hks rest
    rw [hr] at hr'
    cases hr'
    rcases hcase with ⟨old, hopen, _, _, hmap, _⟩ | ⟨hno, _, _, htab⟩
    · exact .inl ⟨old, _, hopen, hmap⟩
    · exact .inr ⟨hno, htab⟩
  · obtain ⟨ret, e₀, printed, t₀, hload, _, hcase⟩ := loadFileOrCreate_spec h e path
    unfold editorOpen at hr
    rw [if_neg (fun h0 => hp ((str_eq_nil_iff path).mpr h0)), hload] at hr
    simp only [Option.bind_eq_bind, Option.bind_some] at hr
    rcases hcase with ⟨_, _, hret, _⟩ | ⟨hno, hret, _, htab⟩
    · rw [if_neg (by omega), runEditorInputLoop_eq_none hesc] at hr
      cases hr
    · rw [if_pos (by omega)] at hr
      cases hr
      exact .inr ⟨hno, htab⟩

end MiniOS
