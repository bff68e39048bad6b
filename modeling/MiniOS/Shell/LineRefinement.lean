import Mathlib.Data.List.GetD
import MiniOS.Shell.LineEditor

/-!
# What the line editor does

The ideal editor is a line with a cursor and a place in the history; a key
changes them as its name says, and nothing is stored, shifted or echoed.
`shell_readline` keeps the ideal editor's line in its buffer (`Edits`): each
key handler preserves this (`lineBackspace_edits`, …, `shellKey_edits`), so any
keys do (`lineAfter_edits`).

The terminal is the only thing that can keep a handler from coming back, and
only with a tab.  A line holds none unless the history does, and all that a
session adds to it can be printed (`reach_allPrintable`).
-/

namespace MiniOS

open Lib

/-! ## The ideal editor -/

inductive EditKey where
  | insert (c : UInt8)
  | backspace
  | left
  | right
  | older
  | newer
  | ignored

def EditKey.ofChar (c : UInt8) : EditKey :=
  if c = 8 ∨ c = 127 then .backspace
  else if c = keyLeftArrow then .left
  else if c = keyRightArrow then .right
  else if c = keyUpArrow then .older
  else if c = keyDownArrow then .newer
  else if 32 ≤ c ∧ c < 127 then .insert c
  else .ignored

/-- The line, and the number of entries older than the one shown. -/
structure IdealEditor where
  line : Line UInt8
  idx : Nat

namespace IdealEditor

/-- Entry `idx`, empty past the newest, with the cursor at its end. -/
def showEntry (entries : List (List UInt8)) (idx : Nat) : IdealEditor :=
  ⟨Line.atEnd (entries.getD idx []), idx⟩

/-- The editor on one key; the line holds at most `cap` characters. -/
def key (cap : Nat) (entries : List (List UInt8)) (i : IdealEditor) : EditKey → IdealEditor
  | .insert c => if i.line.text.length < cap then { i with line := i.line.insert c } else i
  | .backspace => { i with line := i.line.backspace }
  | .left => { i with line := i.line.left }
  | .right => { i with line := i.line.right }
  | .older => if 0 < i.idx then showEntry entries (i.idx - 1) else i
  | .newer => if i.idx < entries.length then showEntry entries (i.idx + 1) else i
  | .ignored => i

/-- The editor after the characters `keys`, from the empty line past the newest entry. -/
def typed (cap : Nat) (entries : List (List UInt8)) (keys : List UInt8) : IdealEditor :=
  keys.foldl (fun i c => i.key cap entries (.ofChar c)) ⟨Line.atEnd [], entries.length⟩

end IdealEditor

def IsPrintable (c : UInt8) : Prop := 32 ≤ c ∧ c < 127

instance (c : UInt8) : Decidable (IsPrintable c) := inferInstanceAs (Decidable (32 ≤ c ∧ c < 127))

theorem IsPrintable.ne_of_lt {c d : UInt8} (hc : IsPrintable c) (hd : d < 32) : c ≠ d := by
  rintro rfl
  exact absurd hc.1 (UInt8.not_le.mpr hd)

/-- A character that can be printed is inserted. -/
theorem EditKey.ofChar_printable {c : UInt8} (hc : IsPrintable c) : EditKey.ofChar c = .insert c := by
  have hdel : c ≠ 127 := by
    rintro rfl
    exact absurd hc (by decide)
  unfold ofChar
  rw [if_neg (not_or.mpr ⟨hc.ne_of_lt (by decide), hdel⟩), if_neg (hc.ne_of_lt (by decide)),
    if_neg (hc.ne_of_lt (by decide)), if_neg (hc.ne_of_lt (by decide)),
    if_neg (hc.ne_of_lt (by decide))]
  exact if_pos hc

theorem EditKey.ofChar_insert {c d : UInt8} (h : EditKey.ofChar c = .insert d) : IsPrintable d := by
  unfold ofChar at h
  split at h
  · cases h
  split at h
  · cases h
  split at h
  · cases h
  split at h
  · cases h
  split at h
  · cases h
  split at h
  · cases h
    assumption
  · cases h

theorem getD_printable {entries : List (List UInt8)}
    (hentries : ∀ s ∈ entries, ∀ c ∈ s, IsPrintable c) (idx : Nat) :
    ∀ c ∈ entries.getD idx [], IsPrintable c := by
  intro c hc
  by_cases hlt : idx < entries.length
  · rw [List.getD_eq_getElem _ _ hlt] at hc
    exact hentries _ (List.getElem_mem hlt) c hc
  · rw [List.getD_eq_default _ _ (by omega)] at hc
    cases hc

/-- What can be typed or loaded can be printed. -/
theorem IdealEditor.key_printable {cap : Nat} {entries : List (List UInt8)} {i : IdealEditor}
    (hentries : ∀ s ∈ entries, ∀ c ∈ s, IsPrintable c) (hi : ∀ c ∈ i.line.text, IsPrintable c)
    (c : UInt8) : ∀ x ∈ (i.key cap entries (.ofChar c)).line.text, IsPrintable x := by
  have hentry : ∀ idx, ∀ x ∈ (showEntry entries idx).line.text, IsPrintable x := by
    intro idx
    unfold showEntry
    rw [Line.text_atEnd]
    exact getD_printable hentries idx
  cases hk : EditKey.ofChar c with
  | insert d =>
    simp only [key]
    split
    · intro x hx
      rcases Line.mem_text_insert.mp hx with rfl | hx
      · exact EditKey.ofChar_insert hk
      · exact hi x hx
    · exact hi
  | backspace => exact fun x hx => hi x (Line.text_backspace_subset _ hx)
  | left =>
    intro x hx
    exact hi x (i.line.text_left ▸ hx)
  | right =>
    intro x hx
    exact hi x (i.line.text_right ▸ hx)
  | older | newer =>
    simp only [key]
    split
    · exact hentry _
    · exact hi
  | ignored => exact hi

theorem IdealEditor.typed_printable {cap : Nat} {entries : List (List UInt8)}
    (hentries : ∀ s ∈ entries, ∀ c ∈ s, IsPrintable c) (keys : List UInt8) :
    ∀ x ∈ (typed cap entries keys).line.text, IsPrintable x := by
  have hrun : ∀ (i : IdealEditor), (∀ x ∈ i.line.text, IsPrintable x) →
      ∀ x ∈ (keys.foldl (fun i c => i.key cap entries (.ofChar c)) i).line.text, IsPrintable x := by
    induction keys with
    | nil => exact fun i hi => hi
    | cons c keys ih => exact fun i hi => ih _ (key_printable hentries hi c)
  exact hrun _ fun x hx => absurd hx List.not_mem_nil

/-- The lines of the history, the oldest first. -/
def ShellHistory.entries (h : ShellHistory) : List (List UInt8) :=
  ((List.ofFn h.shellHistory).take h.historyCount).map fun row => (str row.bytes).take 255

theorem ShellHistory.length_entries (h : ShellHistory) : h.entries.length = h.historyCount := by
  have := h.count_le
  simp only [entries, List.length_map, List.length_take, List.length_ofFn]
  omega

/-- An index below the count is a row of the array, and its string is the entry. -/
theorem ShellHistory.row_spec (h : ShellHistory) {k : Nat} (hk : k < h.historyCount) :
    ∃ row, h.row k = some row ∧ (str row.bytes).take 255 = h.entries.getD k [] := by
  have hlt : k < historyMax := Nat.lt_of_lt_of_le hk h.count_le
  refine ⟨h.shellHistory ⟨k, hlt⟩, ?_, ?_⟩
  · unfold row
    rw [dif_pos ⟨Int.natCast_nonneg k, hlt⟩]
    rfl
  · have hget : h.entries[k]? = some ((str (h.shellHistory ⟨k, hlt⟩).bytes).take 255) := by
      unfold entries
      rw [List.getElem?_map, List.getElem?_take_of_lt hk, List.getElem?_ofFn, dif_pos hlt]
      rfl
    rw [List.getD_eq_getElem?_getD, hget]
    rfl

/-- No line of the array holds a tab. -/
def ShellHistory.TabFree (h : ShellHistory) : Prop :=
  ∀ i, ch '\t' ∉ str (h.shellHistory i).bytes

theorem ShellHistory.TabFree.entry {h : ShellHistory} (ht : h.TabFree) (k : Nat) :
    ch '\t' ∉ h.entries.getD k [] := by
  intro hmem
  by_cases hk : k < h.entries.length
  · rw [List.getD_eq_getElem _ _ hk] at hmem
    simp only [entries, List.getElem_map, List.getElem_take, List.getElem_ofFn] at hmem
    exact ht _ (List.mem_of_mem_take hmem)
  · rw [List.getD_eq_default _ _ (by omega)] at hmem
    cases hmem

/-! ## Echo

A character other than a tab is always put.
-/

variable {n fuel : Nat} {safe : Prop}

theorem putchar_yields {c : UInt8} (hc : safe → c ≠ ch '\t') (t : Terminal) :
    Yields safe (terminalPutchar fuel t c) fun _ => True := by
  refine ⟨fun _ _ => trivial, fun hs => ?_⟩
  unfold terminalPutchar
  simp only [if_neg (hc hs)]
  split
  · exact ⟨_, rfl⟩
  split
  · exact ⟨_, rfl⟩
  split
  · exact ⟨_, rfl⟩
  · exact ⟨_, rfl⟩

theorem echoBlanks_yields (k : Nat) (t : Terminal) :
    Yields safe (echoBlanks fuel k t) fun _ => True := by
  induction k generalizing t with
  | zero => exact .some trivial
  | succ k ih =>
    rw [echoBlanks]
    exact (putchar_yields (fun _ => by decide) t).bind fun t _ => ih t

theorem echoChars_yields {buf : Chars n} {l : Line UInt8} (hb : Holds buf l)
    (hl : safe → ch '\t' ∉ l.text) {i k : Nat} (hik : i + k ≤ l.text.length) (t : Terminal) :
    Yields safe (echoChars fuel buf i k t) fun _ => True := by
  induction k generalizing i t with
  | zero => exact .some trivial
  | succ k ih =>
    have hc : safe → buf.get i ≠ ch '\t' := by
      intro hs h0
      apply hl hs
      rw [← h0]
      exact hb.get_mem (by omega)
    exact (putchar_yields hc t).bind fun t _ => ih (by omega) t

theorem writestring_yields {s : List UInt8} (hs : safe → ch '\t' ∉ str s) (t : Terminal) :
    Yields safe (terminalWritestring fuel t s) fun _ => True := by
  induction s generalizing t with
  | nil => exact .some trivial
  | cons c s ih =>
    by_cases hc : c = 0
    · rw [terminalWritestring, if_pos hc]
      exact .some trivial
    · rw [str_cons hc] at hs
      rw [terminalWritestring, if_neg hc]
      have hput : safe → c ≠ ch '\t' := by
        intro h h0
        apply hs h
        rw [h0]
        exact List.mem_cons_self
      exact (putchar_yields hput t).bind fun t _ => ih (fun h hm => hs h (List.mem_cons_of_mem _ hm)) t

/-! ## The simulation -/

/-- The variables of `shell_readline` stand for the ideal editor `i`. -/
structure Edits (h : ShellHistory) (e : LineEdit inputMax) (i : IdealEditor) : Prop where
  holds : Holds e.buf i.line
  lineLen : e.lineLen = i.line.text.length
  cursorPos : e.cursorPos = i.line.before.length
  historyIdx : e.historyIdx = i.idx
  idx_le : i.idx ≤ h.historyCount
  noTab : h.TabFree → ch '\t' ∉ i.line.text

theorem Edits.bounds {h : ShellHistory} {e : LineEdit inputMax} {i : IdealEditor} (he : Edits h e i) :
    0 ≤ e.cursorPos ∧ e.cursorPos ≤ e.lineLen ∧ e.lineLen ≤ 255 ∧
      e.buf.get e.lineLen.toNat = 0 ∧ 0 ≤ e.historyIdx ∧ e.historyIdx ≤ h.historyCount := by
  have hlt : i.line.text.length < 256 := he.holds.length_lt
  have hlen := i.line.length_text
  have hidx := he.idx_le
  rw [he.cursorPos, he.lineLen, he.historyIdx]
  refine ⟨by omega, by omega, by omega, ?_, by omega, by omega⟩
  rw [Int.toNat_natCast]
  exact he.holds.get_length

variable {h : ShellHistory} {e : LineEdit inputMax} {i : IdealEditor}

theorem lineBackspace_edits (he : Edits h e i) :
    Yields h.TabFree (lineBackspace fuel e) fun e' =>
      Edits h e' { i with line := i.line.backspace } := by
  have hlen := i.line.length_text
  have hcur := he.cursorPos
  have hll := he.lineLen
  unfold lineBackspace
  by_cases hnil : i.line.before = []
  · rw [Line.backspace_nil hnil, if_neg (by rw [hcur, hnil]; exact Int.lt_irrefl 0)]
    exact .some he
  · have hpos : 0 < i.line.before.length := List.length_pos_iff.mpr hnil
    obtain ⟨b₁, b₂, hshift, hput, hb₂⟩ := he.holds.backspace hnil
    have h1 : (e.cursorPos - 1).toNat = i.line.before.length - 1 := by omega
    have h2 : (e.lineLen - 1).toNat = i.line.text.length - 1 := by omega
    have h3 : (e.lineLen - 1 - (e.cursorPos - 1)).toNat = i.line.after.length := by omega
    have hback := i.line.backspace.length_text
    have hbefore : i.line.backspace.before.length = i.line.before.length - 1 :=
      List.length_dropLast
    have hafter : i.line.backspace.after.length = i.line.after.length := rfl
    have hsub : h.TabFree → ch '\t' ∉ i.line.backspace.text := by
      intro ht hmem
      exact he.noTab ht (Line.text_backspace_subset _ hmem)
    rw [if_pos (by omega)]
    simp only [h1, h2, h3]
    refine Yields.bind_eq hshift ?_
    refine Yields.bind_eq hput ?_
    refine (putchar_yields (fun _ => by decide) _).bind fun t _ => ?_
    refine (echoChars_yields hb₂ hsub (by omega) _).bind fun t' _ => ?_
    refine (putchar_yields (fun _ => by decide) _).bind fun t'' _ => ?_
    exact .some
      { holds := hb₂
        lineLen := show e.lineLen - 1 = (i.line.backspace.text.length : Int) by omega
        cursorPos := show e.cursorPos - 1 = (i.line.backspace.before.length : Int) by omega
        historyIdx := he.historyIdx
        idx_le := he.idx_le
        noTab := hsub }

/-- Moving the cursor changes neither the text nor the buffer. -/
theorem Edits.move (he : Edits h e i) {l : Line UInt8} (hl : l.text = i.line.text)
    {cursorPos : Int} (hc : cursorPos = l.before.length) (t : Terminal) :
    Edits h { e with cursorPos, term := t } { i with line := l } where
  holds := he.holds.of_text hl
  lineLen := by rw [hl]; exact he.lineLen
  cursorPos := hc
  historyIdx := he.historyIdx
  idx_le := he.idx_le
  noTab := by rw [hl]; exact he.noTab

theorem lineLeft_edits (he : Edits h e i) :
    Edits h (lineLeft e) { i with line := i.line.left } := by
  have hcur := he.cursorPos
  unfold lineLeft
  by_cases hnil : i.line.before = []
  · rw [Line.left_nil hnil, if_neg (by rw [hcur, hnil]; exact Int.lt_irrefl 0)]
    exact he
  · obtain ⟨xs, c, hl⟩ := Line.eq_snoc hnil
    have hlen : i.line.before.length = xs.length + 1 := by
      rw [hl]
      exact List.length_append
    rw [if_pos (by omega)]
    apply he.move i.line.text_left
    rw [hl, Line.left_snoc]
    show e.cursorPos - 1 = (xs.length : Int)
    omega

theorem lineRight_edits (he : Edits h e i) :
    Edits h (lineRight e) { i with line := i.line.right } := by
  have hlen := i.line.length_text
  have hcur := he.cursorPos
  have hll := he.lineLen
  unfold lineRight
  cases hafter : i.line.after with
  | nil =>
    rw [hafter, List.length_nil] at hlen
    have hright : i.line.right = i.line := by
      unfold Line.right
      rw [hafter]
    rw [hright, if_neg (by omega)]
    exact he
  | cons c after =>
    rw [hafter, List.length_cons] at hlen
    rw [if_pos (by omega)]
    apply he.move i.line.text_right
    unfold Line.right
    rw [hafter]
    show e.cursorPos + 1 = ((i.line.before ++ [c]).length : Int)
    rw [List.length_append, List.length_singleton]
    omega

theorem linePrintable_edits (he : Edits h e i) {c : UInt8} (hc : 32 ≤ c) :
    Yields h.TabFree (linePrintable fuel inputMax c e) fun e' =>
      Edits h e' (i.key 255 h.entries (.insert c)) := by
  have hlen := i.line.length_text
  have hcur := he.cursorPos
  have hll := he.lineLen
  have hmax : i32 inputMax - 1 = 255 := by decide
  have hc0 : c ≠ 0 := by
    rintro rfl
    exact absurd hc (by decide)
  have hctab : c ≠ ch '\t' := by
    rintro rfl
    exact absurd hc (by decide)
  have hkey : i.key 255 h.entries (.insert c) =
      if i.line.text.length < 255 then { i with line := i.line.insert c } else i := rfl
  unfold linePrintable
  rw [hmax, hkey]
  by_cases hroom : i.line.text.length < 255
  · obtain ⟨b₁, b₂, b₃, hshift, hput, hput', hb₃⟩ :=
      he.holds.insert hc0 (show i.line.text.length + 1 < 256 by omega)
    have h1 : e.lineLen.toNat = i.line.text.length := by omega
    have h2 : (e.lineLen - e.cursorPos).toNat = i.line.after.length := by omega
    have h3 : e.cursorPos.toNat = i.line.before.length := by omega
    have h4 : (e.lineLen + 1).toNat = i.line.text.length + 1 := by omega
    have h5 : (e.lineLen + 1 - e.cursorPos).toNat = i.line.after.length + 1 := by omega
    have hins := (i.line.insert c).length_text
    have hbefore : (i.line.insert c).before.length = i.line.before.length + 1 := List.length_append
    have hafter : (i.line.insert c).after.length = i.line.after.length := rfl
    have htab : h.TabFree → ch '\t' ∉ (i.line.insert c).text := by
      intro ht
      rw [Line.mem_text_insert, not_or]
      exact ⟨Ne.symm hctab, he.noTab ht⟩
    rw [if_pos (by omega), if_pos hroom]
    simp only [h1, h2, h3, h4, h5]
    refine Yields.bind_eq hshift ?_
    refine Yields.bind_eq hput ?_
    refine Yields.bind_eq hput' ?_
    refine (echoChars_yields hb₃ htab (by omega) _).bind fun t _ => ?_
    exact .some
      { holds := hb₃
        lineLen := show e.lineLen + 1 = ((i.line.insert c).text.length : Int) by omega
        cursorPos := show e.cursorPos + 1 = ((i.line.insert c).before.length : Int) by omega
        historyIdx := he.historyIdx
        idx_le := he.idx_le
        noTab := htab }
  · rw [if_neg (by omega), if_neg hroom]
    exact .some he

/-- Loading entry `k`, whatever the line was. -/
theorem loadHistory_edits {k : Nat} (hk : k ≤ h.historyCount) :
    Yields h.TabFree (loadHistory fuel h inputMax { e with historyIdx := k }) fun e' =>
      Edits h e' (IdealEditor.showEntry h.entries k) := by
  have hmax : u32 (inputMax + 2 ^ 32 - 1) = 255 := by decide
  unfold loadHistory
  rw [hmax]
  refine (echoBlanks_yields _ _).bind fun t _ => ?_
  by_cases hnew : k = h.historyCount
  · obtain ⟨b, hput, hb⟩ := Holds.clear e.buf (Nat.zero_lt_succ 255)
    have hline : IdealEditor.showEntry h.entries k = ⟨Line.atEnd [], k⟩ := by
      unfold IdealEditor.showEntry
      rw [List.getD_eq_default _ _ (by rw [h.length_entries]; omega)]
    rw [hline, if_pos (congrArg Nat.cast hnew)]
    refine Yields.bind_eq hput ?_
    exact .some
      { holds := hb
        lineLen := rfl
        cursorPos := rfl
        historyIdx := rfl
        idx_le := hk
        noTab := fun _ => List.not_mem_nil }
  · obtain ⟨row, hrow, hentry⟩ := h.row_spec (show k < h.historyCount by omega)
    obtain ⟨b, b', hcopy, hput, hstr⟩ :=
      strncpy_put_spec e.buf 0 row.bytes 255 (show 0 + 255 < 256 by omega) (Nat.zero_le _)
    rw [List.take_zero, List.nil_append, hentry] at hstr
    have hlen : (h.entries.getD k []).length ≤ 255 := by
      rw [← hentry]
      exact List.length_take_le _ _
    have hb' : Holds b' (IdealEditor.showEntry h.entries k).line := by
      unfold IdealEditor.showEntry
      rw [← hstr]
      exact Holds.of_str (show (str b'.bytes).length < 256 by rw [hstr]; omega)
    have hk' : ((k : Nat) : Int) ≠ h.historyCount := by omega
    rw [if_neg hk']
    refine Yields.bind_eq hrow ?_
    refine Yields.bind_eq hcopy ?_
    refine Yields.bind_eq hput ?_
    refine (writestring_yields (fun ht => by rw [hstr]; exact ht.entry k) _).bind fun t' _ => ?_
    have hlen' : strlen b'.bytes = (h.entries.getD k []).length := by rw [strlen_eq, hstr]
    exact .some
      { holds := hb'
        lineLen := by rw [hlen']; show _ = ((Line.atEnd _).text.length : Int); rw [Line.text_atEnd]
        cursorPos := by rw [hlen']; rfl
        historyIdx := rfl
        idx_le := hk
        noTab := by
          intro ht
          show ch '\t' ∉ (Line.atEnd _).text
          rw [Line.text_atEnd]
          exact ht.entry k }

theorem lineUp_edits (he : Edits h e i) :
    Yields h.TabFree (lineUp fuel h inputMax e) fun e' =>
      Edits h e' (i.key 255 h.entries .older) := by
  have hkey : i.key 255 h.entries .older =
      if 0 < i.idx then IdealEditor.showEntry h.entries (i.idx - 1) else i := rfl
  have hidx := he.historyIdx
  unfold lineUp
  rw [hkey]
  by_cases hpos : 0 < i.idx
  · have hpred : e.historyIdx - 1 = ((i.idx - 1 : Nat) : Int) := by omega
    rw [if_pos (by omega), if_pos hpos, hpred]
    exact loadHistory_edits (by have := he.idx_le; omega)
  · rw [if_neg (by omega), if_neg hpos]
    exact .some he

theorem lineDown_edits (he : Edits h e i) :
    Yields h.TabFree (lineDown fuel h inputMax e) fun e' =>
      Edits h e' (i.key 255 h.entries .newer) := by
  have hkey : i.key 255 h.entries .newer =
      if i.idx < h.entries.length then IdealEditor.showEntry h.entries (i.idx + 1) else i := rfl
  have hidx := he.historyIdx
  unfold lineDown
  rw [hkey, h.length_entries]
  by_cases hlt : i.idx < h.historyCount
  · have hsucc : e.historyIdx + 1 = ((i.idx + 1 : Nat) : Int) := by omega
    rw [if_pos (by omega), if_pos hlt, hsucc]
    exact loadHistory_edits hlt
  · rw [if_neg (by omega), if_neg hlt]
    exact .some he

/-- **One key.**  `shell_readline` follows the ideal editor. -/
theorem shellKey_edits (he : Edits h e i) (c : UInt8) :
    Yields h.TabFree (shellKey fuel h inputMax e c) fun e' =>
      Edits h e' (i.key 255 h.entries (.ofChar c)) := by
  unfold shellKey EditKey.ofChar
  by_cases h1 : c = 8 ∨ c = 127
  · rw [if_pos h1, if_pos h1]
    exact lineBackspace_edits he
  rw [if_neg h1, if_neg h1]
  by_cases h2 : c = keyLeftArrow
  · rw [if_pos h2, if_pos h2]
    exact .some (lineLeft_edits he)
  rw [if_neg h2, if_neg h2]
  by_cases h3 : c = keyRightArrow
  · rw [if_pos h3, if_pos h3]
    exact .some (lineRight_edits he)
  rw [if_neg h3, if_neg h3]
  by_cases h4 : c = keyUpArrow
  · rw [if_pos h4, if_pos h4]
    exact lineUp_edits he
  rw [if_neg h4, if_neg h4]
  by_cases h5 : c = keyDownArrow
  · rw [if_pos h5, if_pos h5]
    exact lineDown_edits he
  rw [if_neg h5, if_neg h5]
  by_cases h6 : 32 ≤ c ∧ c < 127
  · rw [if_pos h6, if_pos h6]
    exact linePrintable_edits he h6.1
  · rw [if_neg h6, if_neg h6]
    exact .some he

/-- **Any keys.** -/
theorem lineAfter_edits (fuel : Nat) (h : ShellHistory) (buf : Chars inputMax) (t : Terminal)
    (keys : List UInt8) :
    Yields h.TabFree (lineAfter fuel h buf inputMax t keys) fun e =>
      Edits h e (IdealEditor.typed 255 h.entries keys) := by
  obtain ⟨b, hput, hb⟩ := Holds.clear buf (Nat.zero_lt_succ 255)
  have hstart : Edits h ⟨b, 0, 0, h.historyCount, t⟩ ⟨Line.atEnd [], h.entries.length⟩ :=
    { holds := hb
      lineLen := rfl
      cursorPos := rfl
      historyIdx := by rw [h.length_entries]
      idx_le := by rw [h.length_entries]
      noTab := fun _ => List.not_mem_nil }
  unfold lineAfter lineStart IdealEditor.typed
  rw [hput]
  exact Yields.foldlM (R := Edits h) (fun _ _ c he => shellKey_edits he c) keys hstart

theorem lineEnter_edits (he : Edits h e i) (keys : List UInt8) :
    Yields h.TabFree (lineEnter fuel e keys) fun r =>
      str r.buf.bytes = i.line.text ∧ r.keys = keys := by
  have hlen := i.line.length_text
  have hcur := he.cursorPos
  have hll := he.lineLen
  have h1 : e.lineLen.toNat = i.line.text.length := by omega
  obtain ⟨b, hput, hb⟩ := he.holds.terminate
  unfold lineEnter
  rw [h1]
  refine (echoChars_yields he.holds he.noTab (by omega) _).bind fun t _ => ?_
  refine (putchar_yields (fun _ => by decide) _).bind fun t' _ => ?_
  refine Yields.bind_eq hput ?_
  exact .some ⟨hb.str_eq, rfl⟩

/-- The loop handles the keys before the first Enter one by one. -/
theorem shellReadlineLoop_enter {len : Nat} {keys : List UInt8} (hkeys : ∀ c ∈ keys, ¬IsEnter c)
    {enter : UInt8} (henter : IsEnter enter) (rest : List UInt8) (e : LineEdit n) :
    shellReadlineLoop fuel h len e (keys ++ enter :: rest) =
      (keys.foldlM (shellKey fuel h len) e).bind fun e => lineEnter fuel e rest := by
  induction keys generalizing e with
  | nil => exact if_pos henter
  | cons c keys ih =>
    rw [List.forall_mem_cons] at hkeys
    rw [List.cons_append, shellReadlineLoop, if_neg hkeys.1, List.foldlM_cons]
    show (shellKey fuel h len e c).bind _ = ((shellKey fuel h len e c).bind _).bind _
    rw [Option.bind_assoc]
    congr 1
    funext e'
    exact ih hkeys.2 e'

/-- A line read is the ideal editor's, and with no tab in the history it is read. -/
theorem shellReadline_edits (fuel : Nat) (h : ShellHistory) (buf : Chars inputMax) (t : Terminal)
    {keys : List UInt8} (hkeys : ∀ c ∈ keys, ¬IsEnter c) {enter : UInt8} (henter : IsEnter enter)
    (rest : List UInt8) :
    Yields h.TabFree (shellReadline fuel h buf inputMax t (keys ++ enter :: rest)) fun r =>
      str r.buf.bytes = (IdealEditor.typed 255 h.entries keys).line.text ∧ r.keys = rest := by
  have hsplit : shellReadline fuel h buf inputMax t (keys ++ enter :: rest) =
      (lineAfter fuel h buf inputMax t keys).bind fun e => lineEnter fuel e rest := by
    unfold shellReadline lineAfter
    show (lineStart h buf t).bind _ = ((lineStart h buf t).bind _).bind _
    rw [Option.bind_assoc]
    congr 1
    funext e
    exact shellReadlineLoop_enter hkeys henter rest e
  rw [hsplit]
  exact (lineAfter_edits fuel h buf t keys).bind fun e he => lineEnter_edits he rest

/-! ## The history over a session -/

/-- What `skip_spaces` skips. -/
def isSpace (c : UInt8) : Bool := c = ch ' ' ∨ c = ch '\t'

theorem str_skipSpaces (s : List UInt8) : str (skipSpaces s) = (str s).dropWhile isSpace := by
  induction s with
  | nil => rfl
  | cons c s ih =>
    rw [skipSpaces]
    by_cases hc : c = ch ' ' ∨ c = ch '\t'
    · have h0 : c ≠ 0 := by
        rintro rfl
        exact absurd hc (by decide)
      rw [if_pos hc, ih, str_cons h0,
        List.dropWhile_cons_of_pos (show isSpace c = true from decide_eq_true hc)]
    · rw [if_neg hc]
      by_cases h0 : c = 0
      · rw [h0, str_zero, List.dropWhile_nil]
      · rw [str_cons h0, List.dropWhile_cons_of_neg
          (show ¬ isSpace c = true from fun h => hc (of_decide_eq_true h))]

theorem copyLine_spec (row : Chars inputMax) (line : List UInt8) :
    ∃ row', copyLine row line = some row' ∧ str row'.bytes = (str line).take 255 := by
  obtain ⟨b, b', hcopy, hput, hstr⟩ :=
    strncpy_put_spec row 0 line 255 (show 0 + 255 < 256 by omega) (Nat.zero_le _)
  refine ⟨b', ?_, hstr⟩
  unfold copyLine
  show (strncpy row 0 line 255).bind (fun row => row.put 255 0) = some b'
  rw [hcopy]
  exact hput

theorem copyLine_str {row row' : Chars inputMax} {line : List UInt8}
    (hc : copyLine row line = some row') : str row'.bytes = (str line).take 255 := by
  obtain ⟨row'', hcopy, hstr⟩ := copyLine_spec row line
  rw [hcopy] at hc
  cases hc
  exact hstr

/-- All lines of the array can be printed. -/
def ShellHistory.AllPrintable (h : ShellHistory) : Prop :=
  ∀ i, ∀ c ∈ str (h.shellHistory i).bytes, IsPrintable c

theorem ShellHistory.AllPrintable.tabFree (hp : h.AllPrintable) : h.TabFree := by
  intro i hmem
  exact absurd (hp i _ hmem).1 (by decide)

theorem ShellHistory.AllPrintable.entries (hp : h.AllPrintable) :
    ∀ s ∈ h.entries, ∀ c ∈ s, IsPrintable c := by
  intro s hs c hc
  obtain ⟨row, hrow, rfl⟩ := List.mem_map.mp hs
  obtain ⟨i, rfl⟩ := List.mem_ofFn.mp (List.mem_of_mem_take hrow)
  exact hp i c (List.mem_of_mem_take hc)

/-- A row set to a line that can be printed. -/
theorem printable_update {rows : Fin historyMax → Chars inputMax}
    (hrows : ∀ i, ∀ c ∈ str (rows i).bytes, IsPrintable c) {row : Chars inputMax}
    (hrow : ∀ c ∈ str row.bytes, IsPrintable c) (j : Fin historyMax) :
    ∀ i, ∀ c ∈ str (Function.update rows j row i).bytes, IsPrintable c := by
  intro i
  by_cases hij : i = j
  · rw [hij, Function.update_self]
    exact hrow
  · rw [Function.update_of_ne hij]
    exact hrows i

theorem dropOldest_printable {rows rows' : Fin historyMax → Chars inputMax}
    (hrows : ∀ i, ∀ c ∈ str (rows i).bytes, IsPrintable c) (hd : dropOldest rows = some rows') :
    ∀ i, ∀ c ∈ str (rows' i).bytes, IsPrintable c := by
  have hfold : Yields False (dropOldest rows) fun rows' =>
      ∀ i, ∀ c ∈ str (rows' i).bytes, IsPrintable c := by
    refine Yields.foldlM (R := fun (rows : Fin historyMax → Chars inputMax) (_ : Unit) =>
      ∀ i, ∀ c ∈ str (rows i).bytes, IsPrintable c) (g := fun u _ => u) ?_ (List.finRange 9)
      (t := ()) hrows
    intro rows _ i hrows
    refine ⟨fun rows' hr => ?_, False.elim⟩
    obtain ⟨row, hcopy, hset⟩ := Option.bind_eq_some_iff.mp hr
    cases hset
    apply printable_update hrows
    rw [(strcpy_fits hcopy).2]
    exact hrows _
  exact hfold.correct rows' hd

theorem addToHistory_printable {h h' : ShellHistory} {line : List UInt8} (hp : h.AllPrintable)
    (hline : ∀ c ∈ str line, IsPrintable c) (ha : addToHistory h line = some h') :
    h'.AllPrintable := by
  have hcopy : ∀ {row row' : Chars inputMax}, copyLine row line = some row' →
      ∀ c ∈ str row'.bytes, IsPrintable c := by
    intro row row' hc
    rw [copyLine_str hc]
    exact fun c hm => hline c (List.mem_of_mem_take hm)
  unfold addToHistory at ha
  split at ha
  · obtain ⟨row, hrow, ha⟩ := Option.bind_eq_some_iff.mp ha
    cases ha
    exact printable_update hp (hcopy hrow) _
  · obtain ⟨rows, hrows, ha⟩ := Option.bind_eq_some_iff.mp ha
    obtain ⟨row, hrow, ha⟩ := Option.bind_eq_some_iff.mp ha
    cases ha
    exact printable_update (dropOldest_printable hp hrows) (hcopy hrow) _

/-- A line that is read ends at the first Enter. -/
theorem shellReadlineLoop_split {len : Nat} {e : LineEdit n} {keys : List UInt8} {r : LineRead n}
    (hr : shellReadlineLoop fuel h len e keys = some r) :
    ∃ ks enter rest, keys = ks ++ enter :: rest ∧ (∀ c ∈ ks, ¬IsEnter c) ∧ IsEnter enter := by
  induction keys generalizing e with
  | nil => cases hr
  | cons c keys ih =>
    by_cases hc : IsEnter c
    · exact ⟨[], c, keys, rfl, by simp, hc⟩
    · rw [shellReadlineLoop, if_neg hc] at hr
      obtain ⟨e', _, hr⟩ := Option.bind_eq_some_iff.mp hr
      obtain ⟨ks, enter, rest, hkeys, hks, henter⟩ := ih hr
      refine ⟨c :: ks, enter, rest, by rw [hkeys, List.cons_append], ?_, henter⟩
      rw [List.forall_mem_cons]
      exact ⟨hc, hks⟩

theorem shellReadline_split {len : Nat} {buf : Chars n} {t : Terminal} {keys : List UInt8}
    {r : LineRead n} (hr : shellReadline fuel h buf len t keys = some r) :
    ∃ ks enter rest, keys = ks ++ enter :: rest ∧ (∀ c ∈ ks, ¬IsEnter c) ∧ IsEnter enter := by
  unfold shellReadline at hr
  obtain ⟨e, _, hloop⟩ := Option.bind_eq_some_iff.mp hr
  exact shellReadlineLoop_split hloop

theorem readCommand_printable {h h' : ShellHistory} {p : Prompt} {r : LineRead inputMax}
    (hp : h.AllPrintable) (hs : readCommand h p = some (r, h')) : h'.AllPrintable := by
  obtain ⟨r', hr, hs⟩ := Option.bind_eq_some_iff.mp hs
  obtain ⟨ks, enter, rest, hkeys, hks, henter⟩ := shellReadline_split hr
  rw [hkeys] at hr
  have hread := (shellReadline_edits p.fuel h p.inputBuf p.term hks henter rest).correct r' hr
  have hline : ∀ c ∈ str r'.buf.bytes, IsPrintable c := by
    rw [hread.1]
    exact IdealEditor.typed_printable hp.entries ks
  simp only at hs
  split at hs
  · cases hs
    exact hp
  · obtain ⟨h₁, hadd, hs⟩ := Option.bind_eq_some_iff.mp hs
    cases hs
    refine addToHistory_printable hp ?_ hadd
    rw [str_skipSpaces]
    exact fun c hm => hline c (List.dropWhile_subset _ hm)

/-- All that a session puts into the history can be printed. -/
theorem reach_allPrintable (hr : promptMachine.Reach h) : h.AllPrintable := by
  refine hr.invariant (I := ShellHistory.AllPrintable) ?_ ?_
  · rintro h rfl i
    show ∀ c ∈ str (List.replicate 256 0), _
    rw [List.replicate_succ, str_zero]
    exact fun c hc => absurd hc List.not_mem_nil
  · intro h p r h' hp _ hs
    exact readCommand_printable hp hs

/-- **The line editor.**  Whatever the history holds, a line that `shell_readline`
comes back with is the ideal editor's, and the variables stay within bounds
after every key.  It comes back where no line of the history has a tab, and every
reachable history is one of these. -/
theorem shellReadline_refines (fuel : Nat) (h : ShellHistory) (buf : Chars inputMax) (t : Terminal)
    (keys : List UInt8) (hkeys : ∀ c ∈ keys, ¬IsEnter c) (enter : UInt8) (henter : IsEnter enter)
    (rest : List UInt8) :
    (∀ r, shellReadline fuel h buf inputMax t (keys ++ enter :: rest) = some r →
        str r.buf.bytes = (IdealEditor.typed 255 h.entries keys).line.before ++
          (IdealEditor.typed 255 h.entries keys).line.after ∧ r.keys = rest) ∧
      (h.TabFree → ∃ r, shellReadline fuel h buf inputMax t (keys ++ enter :: rest) = some r) ∧
      (promptMachine.Reach h → h.TabFree) ∧
      ∀ ks, ks <+: keys → ∀ e, lineAfter fuel h buf inputMax t ks = some e →
        0 ≤ e.cursorPos ∧ e.cursorPos ≤ e.lineLen ∧ e.lineLen ≤ 255 ∧
          e.buf.get e.lineLen.toNat = 0 ∧ 0 ≤ e.historyIdx ∧ e.historyIdx ≤ h.historyCount := by
  have hread := shellReadline_edits fuel h buf t hkeys henter rest
  refine ⟨hread.correct, hread.returns, fun hr => (reach_allPrintable hr).tabFree, ?_⟩
  intro ks _ e he
  exact ((lineAfter_edits fuel h buf t ks).correct e he).bounds

/-- `a`, `b`, Left, `c` and Enter at the first prompt read `acb`. -/
theorem shellReadline_refines_acb :
    ∃ r, shellReadline 0 ShellHistory.boot (Chars.fill inputMax 0) inputMax
        (Terminal.boot fun _ => 0) (([97, 98, keyLeftArrow, 99] : List UInt8) ++ 13 :: [120]) =
          some r ∧
      str r.buf.bytes = text "acb" ∧ r.keys = [120] := by
  have hkeys : ∀ c ∈ ([97, 98, keyLeftArrow, 99] : List UInt8), ¬IsEnter c := by
    simp only [List.forall_mem_cons]
    exact ⟨by decide, by decide, by decide, by decide, fun _ h => absurd h List.not_mem_nil⟩
  obtain ⟨hcorrect, hreturns, htabs, _⟩ :=
    shellReadline_refines 0 ShellHistory.boot (Chars.fill inputMax 0) (Terminal.boot fun _ => 0)
      [97, 98, keyLeftArrow, 99] hkeys 13 (by decide) [120]
  obtain ⟨r, hr⟩ := hreturns (htabs (Machine.Reach.init rfl))
  exact ⟨r, hr, hcorrect r hr⟩

end MiniOS
