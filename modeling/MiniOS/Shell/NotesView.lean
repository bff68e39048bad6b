import MiniOS.Shell.CommandChanges

/-!
# A note that is saved, and viewed

`notes new` makes its file name of the first 20 characters of the title,
`notes view` of all of them, and what `fs_create` and `fs_write` answer is not
looked at.  So "Saved." is shown for every note; `notes_view_iff` says which of
them `notes view` then shows: those that are kept (`NoteKept`), if the tabs of
title and body fit on the terminal.
-/

namespace MiniOS

open Lib

variable {s : Shell} {t : FsTable} {title body keys : List UInt8}

/-! ## The names -/

/-- The title and the body that `notes new` reads. -/
def typedNote (keys : List UInt8) : Option (List UInt8 × List UInt8) := do
  let title ← keyboardReadline (Chars.uninit 32) 32 keys
  let body ← keyboardReadline (Chars.uninit fsMaxFilesize) fsMaxFilesize title.keys
  some (str title.val.2.bytes, str body.val.2.bytes)

/-- The file name `notes view` makes of a title without quotes. -/
def viewedFile (title : List UInt8) : List UInt8 := text "note_" ++ title

def noteText (title body : List UInt8) : List UInt8 :=
  text "--- " ++ title ++ text " ---\n" ++ body ++ text "\n"

/-- The name is that of a file, or a file can be created under it. -/
def Writable (m : FsMap) (p : List UInt8) : Prop :=
  (∃ old, m.lookup p = some (.file old)) ∨ Creatable m p

/-- Both names are cut to the same path, and that can be written; or the path that is viewed is
another one, of a file which has this body. -/
def NoteKept (s : Shell) (title body : List UInt8) : Prop :=
  if s.path (viewedFile title) = s.path (noteFile title) then
    Writable (fsMap s.table) (s.path (noteFile title))
  else ∃ old, (fsMap s.table).lookup (s.path (viewedFile title)) = some (.file old) ∧ str old = body

theorem typedNote_spec (h : typedNote keys = some (title, body)) :
    0 ∉ title ∧ title.length ≤ 31 ∧ 0 ∉ body := by
  simp only [typedNote, Option.bind_eq_bind, Option.bind_eq_some_iff] at h
  obtain ⟨t, ht, b, _, h⟩ := h
  cases h
  exact ⟨zero_not_mem_str _, Nat.le_of_lt_succ (keyboardReadline_length ht), zero_not_mem_str _⟩

theorem path_viewedFile (s : Shell) (h0 : 0 ∉ title) :
    s.path (viewedFile title) = (joinPath (str s.currentDir.bytes) (viewedFile title)).take 63 := by
  have hz : 0 ∉ viewedFile title := by
    unfold viewedFile
    rw [List.mem_append, not_or]
    exact ⟨by decide, h0⟩
  unfold Shell.path
  rw [str_of_not_mem hz]

/-! ## What is written -/

/-- The calls of `notes new` on the table: only the name of the note changes. -/
theorem createWrite_spec (h : TableInv t) {name data : List UInt8} {len : Nat} {c w : FsResult}
    (hc : fsCreate t name = some c) (hw : fsWrite c.table name data len = some w)
    (hlen : len ≤ fsMaxFilesize) (hdata : len ≤ data.length) :
    TableInv w.table ∧ (∀ p, p ≠ str name → (fsMap w.table).lookup p = (fsMap t).lookup p) ∧
      ((Writable (fsMap t) (str name) ∧
          (fsMap w.table).lookup (str name) = some (.file (data.take len))) ∨
        (¬ Writable (fsMap t) (str name) ∧
          ∀ bytes, (fsMap w.table).lookup (str name) ≠ some (.file bytes))) := by
  have hmin : min len fsMaxFilesize = len := Nat.min_eq_left hlen
  obtain ⟨hcinv, hcase⟩ := fsCreate_creates h hc
  obtain ⟨hwinv, hwcase⟩ := fsWrite_writes hcinv hw (by rw [hmin]; exact hdata)
  rw [hmin] at hwcase
  refine ⟨hwinv, ?_⟩
  rcases hcase with ⟨hcr, _, hmap⟩ | ⟨hcr, _, htab⟩
  · rw [hmap] at hwcase
    rcases hwcase with ⟨_, _, _, hmap'⟩ | ⟨hno, _⟩
    · rw [hmap']
      refine ⟨?_, .inl ⟨.inr hcr, Finmap.lookup_insert _⟩⟩
      intro p hp
      rw [Finmap.lookup_insert_of_ne _ hp, Finmap.lookup_insert_of_ne _ hp]
    · exact absurd (Finmap.lookup_insert _) (hno [])
  · rw [htab] at hwcase
    rcases hwcase with ⟨old, hold, _, hmap'⟩ | ⟨hno, _, htab'⟩
    · rw [hmap']
      exact ⟨fun p hp => Finmap.lookup_insert_of_ne _ hp,
        .inl ⟨.inl ⟨old, hold⟩, Finmap.lookup_insert _⟩⟩
    · rw [htab']
      refine ⟨fun _ _ => rfl, .inr ⟨?_, hno⟩⟩
      rintro (⟨old, hold⟩ | hcr')
      · exact hno old hold
      · exact hcr hcr'

/-- `notes new` comes back, where the path it resolves fits. -/
theorem notesNew_returns (h : TableInv s.table) (hdir : (str s.currentDir.bytes).length ≤ 62)
    (hn : typedNote keys = some (title, body)) : ∃ r, notesNew s keys = some r := by
  simp only [typedNote, Option.bind_eq_bind, Option.bind_eq_some_iff] at hn
  obtain ⟨t, ht, b, hb, _⟩ := hn
  obtain ⟨raw₀, h0, hs0⟩ := strcpy_spec (Chars.uninit 64) (text "note_") (by decide)
  obtain ⟨raw₁, raw₂, h1, h2, hs⟩ := strncpy_put_spec raw₀ 5 t.val.2.bytes 20 (by decide)
    (by rw [hs0]; decide)
  obtain ⟨path, hp, _⟩ := resolvePath_spec s.currentDir raw₂.bytes (Chars.uninit 64)
    (.inr (.inr hdir))
  obtain ⟨c, hc, hcinv, _⟩ := fsCreate_spec h path.bytes
  have hlen := keyboardReadline_length hb
  rw [← strlen_eq] at hlen
  obtain ⟨w, hw, _⟩ := fsWrite_spec hcinv path.bytes b.val.2.bytes (strlen b.val.2.bytes)
    (by rw [b.val.2.length_eq]; exact Nat.min_le_right _ _)
  have h25 : raw₁.put 25 0 = some raw₂ := h2
  unfold notesNew
  simp only [Option.bind_eq_bind, ht, hb, h0, h1, h25, hp, hc, hw, Option.bind_some]
  exact ⟨_, rfl⟩

/-! ## What is viewed -/

/-- `notes view` shows the file of the whole title. -/
theorem notesView_spec (h : TableInv s.table) (hdir : (str s.currentDir.bytes).length ≤ 62)
    (h0 : 0 ∉ title) (hlen : title.length ≤ 31) (hfirst : title.headD 0 ≠ ch '"')
    (hlast : title.getLastD 0 ≠ ch '"') :
    (∃ bytes, (fsMap s.table).lookup (s.path (viewedFile title)) = some (.file bytes) ∧
        notesView s title = some (say (noteText title (str bytes)))) ∨
      ((∀ bytes, (fsMap s.table).lookup (s.path (viewedFile title)) ≠ some (.file bytes)) ∧
        notesView s title = some (say (text "Note not found.\n"))) := by
  have hstr : str title = title := str_of_not_mem h0
  have htlen : strlen title = title.length := by rw [strlen_eq, hstr]
  have hquote : ¬ (strlen title > 0 ∧ title.getD (strlen title - 1) 0 = ch '"') := by
    rintro ⟨_, hq⟩
    rw [htlen, List.getD_eq_getElem?_getD, ← List.getLast?_eq_getElem?] at hq
    rw [List.getLastD_eq_getLast?] at hlast
    exact hlast hq
  obtain ⟨raw₀, hcpy, hs0⟩ := strcpy_spec (Chars.uninit 64) (text "note_") (by decide)
  have h5 : (str raw₀.bytes).length = 5 := by
    rw [hs0]
    decide
  obtain ⟨raw₁, raw₂, h1, h2, hs⟩ := strncpy_put_spec raw₀ 5 title (strlen title)
    (by rw [htlen]; omega) (by rw [h5])
  have hname : str raw₂.bytes = viewedFile title := by
    rw [hs, List.take_of_length_le (by rw [h5]), hs0, hstr, htlen, List.take_length]
    rfl
  obtain ⟨path, hp, hps⟩ := resolvePath_spec s.currentDir raw₂.bytes (Chars.uninit 64)
    (.inr (.inr hdir))
  rw [hname, ← path_viewedFile s h0] at hps
  obtain ⟨n, buf, hread, hcase⟩ := fsRead_spec h path.bytes (Chars.uninit (fsMaxFilesize + 1))
    (fsMaxFilesize + 1) (by decide) (by decide) (Nat.le_refl _)
  rw [hps] at hcase
  unfold notesView
  simp only [Option.bind_eq_bind, if_neg hfirst, if_neg hquote, hcpy, h1, h2, hp, hread,
    Option.bind_some]
  rcases hcase with ⟨bytes, hl, rfl, hbuf⟩ | ⟨hno, rfl, _⟩
  · refine .inl ⟨bytes, hl, ?_⟩
    have hall : bytes.take (fsMaxFilesize + 1 - 1) = bytes :=
      List.take_of_length_le (fsMap_file_length h hl)
    rw [hall] at hbuf
    rw [if_pos (Int.natCast_nonneg _), hbuf, hstr, str_append_nul]
    rfl
  · exact .inr ⟨hno, if_neg (by decide)⟩

theorem zero_notMem_noteText (h0 : 0 ∉ title) (hb0 : 0 ∉ body) : 0 ∉ noteText title body := by
  unfold noteText
  simp only [List.mem_append, not_or]
  exact ⟨⟨⟨⟨by decide, h0⟩, by decide⟩, hb0⟩, by decide⟩

theorem noteText_inj {body' : List UInt8} : noteText title body = noteText title body' ↔ body = body' := by
  constructor
  · exact fun h => List.append_cancel_left (List.append_cancel_right h)
  · rintro rfl
    rfl

theorem noteText_ne (title body : List UInt8) : text "Note not found.\n" ≠ noteText title body := by
  intro h
  exact absurd (congrArg (List.headD · 0) h)
    (show (text "Note not found.\n").headD 0 ≠ ch '-' by decide)

/-- A note saved: the file of the first 20 characters of the title is the body, if it can be. -/
theorem notesNew_spec (h : ShellInv s) (hn : typedNote keys = some (title, body))
    {r : Typed Shell} (hr : notesNew s keys = some r) :
    ∃ table, r.val = { s with table := table } ∧ TableInv table ∧
      (str s.currentDir.bytes).length ≤ 62 ∧
      (∀ p, p ≠ s.path (noteFile title) → (fsMap table).lookup p = (fsMap s.table).lookup p) ∧
      ((Writable (fsMap s.table) (s.path (noteFile title)) ∧
          (fsMap table).lookup (s.path (noteFile title)) = some (.file body)) ∨
        (¬ Writable (fsMap s.table) (s.path (noteFile title)) ∧
          ∀ bytes, (fsMap table).lookup (s.path (noteFile title)) ≠ some (.file bytes))) := by
  simp only [typedNote, Option.bind_eq_bind, Option.bind_eq_some_iff, Option.some.injEq,
    Prod.mk.injEq] at hn
  obtain ⟨t, ht, b, hb, htitle, hbody⟩ := hn
  obtain ⟨t', b', path, c, w, _, ht', hb', hdir, hpath, hc, hw, rfl⟩ := notesNew_cases hr
  rw [ht] at ht'
  cases ht'
  rw [hb] at hb'
  cases hb'
  rw [htitle] at hpath
  have hblen := keyboardReadline_length hb
  have hdata : b.val.2.bytes.take (strlen b.val.2.bytes) = body := by
    rw [strlen_eq, take_str_of_le (Nat.le_refl _), List.take_length, hbody]
  obtain ⟨hinv, hother, hcase⟩ := createWrite_spec h.table hc hw
    (by rw [strlen_eq]; exact Nat.le_of_lt hblen)
    (by rw [strlen_eq, b.val.2.length_eq]; exact Nat.le_of_lt hblen)
  rw [hdata, hpath] at hcase
  rw [hpath] at hother
  exact ⟨w.table, rfl, hinv, hdir, hother, hcase⟩

/-- A note saved, and viewed. -/
theorem notesView_iff (h : ShellInv s) (hn : typedNote keys = some (title, body))
    (hfirst : title.headD 0 ≠ ch '"') (hlast : title.getLastD 0 ≠ ch '"') {r : Typed Shell}
    (hr : notesNew s keys = some r) :
    ∃ shown, notesView r.val title = some (say shown) ∧ 0 ∉ shown ∧
      (shown = noteText title body ↔ NoteKept s title body) := by
  obtain ⟨h0, hlen, hb0⟩ := typedNote_spec hn
  obtain ⟨table, hs', hinv, hdir, hother, hcase⟩ := notesNew_spec h hn hr
  have hpath : r.val.path (viewedFile title) = s.path (viewedFile title) := by
    rw [hs']
    rfl
  have hview := notesView_spec (s := r.val) (by rw [hs']; exact hinv) (by rw [hs']; exact hdir) h0
    hlen hfirst hlast
  rw [hpath, show r.val.table = table by rw [hs']] at hview
  have hmissing := noteText_ne title body
  have hz : 0 ∉ text "Note not found.\n" := by decide
  unfold NoteKept
  by_cases hsame : s.path (viewedFile title) = s.path (noteFile title)
  · rw [if_pos hsame]
    rw [hsame] at hview
    rcases hcase with ⟨hok, hl⟩ | ⟨hno, hl⟩
    · rcases hview with ⟨bytes, hbytes, hv⟩ | ⟨hnone, _⟩
      · rw [hl] at hbytes
        cases hbytes
        rw [str_of_not_mem hb0] at hv
        exact ⟨_, hv, zero_notMem_noteText h0 hb0, iff_of_true rfl hok⟩
      · exact absurd hl (hnone _)
    · rcases hview with ⟨bytes, hbytes, _⟩ | ⟨_, hv⟩
      · exact absurd hbytes (hl _)
      · exact ⟨_, hv, hz, iff_of_false hmissing hno⟩
  · rw [if_neg hsame]
    rw [hother _ hsame] at hview
    rcases hview with ⟨bytes, hbytes, hv⟩ | ⟨hnone, hv⟩
    · refine ⟨_, hv, zero_notMem_noteText h0 (zero_not_mem_str bytes), ?_⟩
      rw [noteText_inj, hbytes]
      constructor
      · intro hstr
        exact ⟨bytes, rfl, hstr⟩
      · rintro ⟨old, hold, hstr⟩
        cases hold
        exact hstr
    · refine ⟨_, hv, hz, iff_of_false hmissing ?_⟩
      rintro ⟨old, hold, _⟩
      exact hnone old hold

/-! ## The two commands -/

theorem step_notesNew {o : List TerminalCall × List UInt8} {s' : Shell}
    (h : shellMachine.step s ⟨.notes, text "new", keys⟩ = some (o, s')) :
    (∃ front, o.1 = front ++ say (text "Saved.\n")) ∧
      ∃ r, notesNew s keys = some r ∧ s' = r.val := by
  obtain ⟨r, hr, heq⟩ := Option.map_eq_some_iff.mp h
  cases heq
  have hr : ((notesNew s keys).bind fun r => some { r with out := say (text "\n") ++ r.out }) =
      some r := hr
  obtain ⟨r', hr', heq⟩ := Option.bind_eq_some_iff.mp hr
  cases heq
  refine ⟨?_, r', hr', rfl⟩
  obtain ⟨_, _, _, _, _, front, _, _, _, _, _, _, rfl⟩ := notesNew_cases hr'
  exact ⟨say (text "\n") ++ front, (List.append_assoc _ _ _).symm⟩

theorem step_notesView (s : Shell) (title keys : List UInt8) :
    shellMachine.step s ⟨.notes, text "view " ++ title, keys⟩ =
      (notesView s title).map fun out => ((say (text "\n") ++ out, keys), s) := by
  have hnew : strcmp (text "view " ++ title) (text "new") ≠ 0 := by
    rw [show strcmp (text "view " ++ title) (text "new") = 8 from rfl]
    decide
  have hlist : strcmp (text "view " ++ title) (text "list") ≠ 0 := by
    rw [show strcmp (text "view " ++ title) (text "list") = 10 from rfl]
    decide
  have hview : strncmp (text "view " ++ title) (text "view ") 5 = 0 :=
    strncmp_append (u := text "view ") (by decide) _
  have htitle : (text "view " ++ title).drop 5 = title := rfl
  show Option.map _ (cmdNotes s (text "view " ++ title) keys) = _
  unfold cmdNotes
  simp only [if_neg hnew, if_neg hlist, if_pos hview, htitle, Option.bind_eq_bind]
  cases notesView s title with
  | none => rfl
  | some out => rfl

/-- **Notes.**  `notes new` always shows "Saved."; `notes view` of the same title then comes back
on the terminal and shows the body exactly if the note is kept and the tabs fit. -/
theorem notes_view_iff (hs : shellMachine.Reach s) (hn : typedNote keys = some (title, body))
    (hfirst : title.headD 0 ≠ ch '"') (hlast : title.getLastD 0 ≠ ch '"')
    {o : List TerminalCall × List UInt8} {s' : Shell}
    (hnew : shellMachine.step s ⟨.notes, text "new", keys⟩ = some (o, s')) {term : Terminal}
    (hterm : terminalMachine.Reach term) (keys' : List UInt8) :
    (∃ front, o.1 = front ++ say (text "Saved.\n")) ∧
      ((∃ out, shellMachine.step s' ⟨.notes, text "view " ++ title, keys'⟩ =
            some ((out, keys'), s') ∧ CallsReturn term out ∧
          printedText out = text "\n" ++ noteText title body) ↔
        NoteKept s title body ∧ TabsFit term.grid.pos (text "\n" ++ noteText title body)) := by
  obtain ⟨hsaved, r, hr, rfl⟩ := step_notesNew hnew
  refine ⟨hsaved, ?_⟩
  obtain ⟨shown, hview, hz, hiff⟩ := notesView_iff (shell_reach_inv hs) hn hfirst hlast hr
  have hshown : Displays (say (text "\n") ++ say shown) (text "\n" ++ shown) :=
    (displays_say (by decide)).append (displays_say hz)
  rw [step_notesView, hview, Option.map_some, ← hiff]
  constructor
  · rintro ⟨out, hout, hback, htext⟩
    cases hout
    rw [hshown.text_eq, List.append_cancel_left_eq] at htext
    rw [hshown.return_iff hterm, htext] at hback
    exact ⟨htext, hback⟩
  · rintro ⟨htext, htabs⟩
    refine ⟨_, rfl, (hshown.return_iff hterm).mpr ?_, ?_⟩
    · rw [htext]
      exact htabs
    · rw [hshown.text_eq, htext]

/-- A note typed at boot. -/
theorem boot_note {title body : List UInt8} (ht : ∀ c ∈ title, PlainKey c)
    (hb : ∀ c ∈ body, PlainKey c) (htlen : title.length ≤ 30) (hblen : body.length + 1 < fsMaxFilesize) :
    ∃ s o s', shellMachine.Reach s ∧ ShellInv s ∧ str s.currentDir.bytes = text "/root" ∧
      fsMap s.table = rootMap ∧
        typedNote (title ++ ch '\r' :: (body ++ [ch '\r'])) = some (title, body) ∧
          shellMachine.step s ⟨.notes, text "new", title ++ ch '\r' :: (body ++ [ch '\r'])⟩ =
            some (o, s') := by
  obtain ⟨t, hinit, hinv, hmap⟩ := fsInit_spec
  have hreach : shellMachine.Reach (bootShell t) := Machine.Reach.init ⟨t, hinit, rfl⟩
  obtain ⟨line, hline, hl, hkeys⟩ := keyboardReadline_plain (show 32 < 2 ^ 32 by decide)
    (Chars.uninit 32) title ht (by omega) (body ++ [ch '\r'])
  obtain ⟨line', hline', hl', _⟩ := keyboardReadline_plain (show fsMaxFilesize < 2 ^ 32 by decide)
    (Chars.uninit fsMaxFilesize) body hb hblen []
  have hdir : (str (bootShell t).currentDir.bytes).length ≤ 62 := by
    show (str bootDir.bytes).length ≤ 62
    rw [bootDir_str]
    decide
  have hn : typedNote (title ++ ch '\r' :: (body ++ [ch '\r'])) = some (title, body) := by
    simp only [typedNote, hline, hkeys, hline', hl, hl', Option.bind_eq_bind, Option.bind_some]
  obtain ⟨r, hr⟩ := notesNew_returns (s := bootShell t) hinv hdir hn
  refine ⟨bootShell t, (say (text "\n") ++ r.out, r.keys), r.val, hreach, shell_reach_inv hreach,
    bootDir_str, hmap, hn, ?_⟩
  show Option.map _ ((notesNew (bootShell t) _).bind _) = _
  rw [hr]
  rfl

theorem notes_view_iff_boot : ∃ s o s' out, shellMachine.Reach s ∧
    shellMachine.step s ⟨.notes, text "new", text "a" ++ ch '\r' :: (text "b\tc" ++ [ch '\r'])⟩ =
      some (o, s') ∧
    shellMachine.step s' ⟨.notes, text "view a", []⟩ = some ((out, []), s') ∧
    CallsReturn (terminalAtCol 30) out ∧ printedText out = text "\n--- a ---\nb\tc\n" := by
  obtain ⟨s, o, s', hreach, _, hdir, hmap, hn, hnew⟩ :=
    boot_note (show ∀ c ∈ text "a", PlainKey c from forall_of_all (by decide))
      (show ∀ c ∈ text "b\tc", PlainKey c from forall_of_all (by decide)) (by decide) (by decide)
  have hpath : s.path (noteFile (text "a")) = text "/root/note_a" := by
    unfold Shell.path
    rw [hdir]
    decide
  have hkept : NoteKept s (text "a") (text "b\tc") := by
    unfold NoteKept
    rw [if_pos (show s.path (viewedFile (text "a")) = s.path (noteFile (text "a")) from rfl), hpath,
      hmap]
    exact .inr (by decide)
  obtain ⟨out, hview, hback, htext⟩ := (notes_view_iff hreach hn (by decide) (by decide) hnew
    (terminalAtCol_reach 30) []).2.mpr ⟨hkept, by decide⟩
  exact ⟨s, o, s', out, hreach, hnew, hview, hback, htext⟩

/-- The 21 characters of the title are cut to 20 in the name of the file. -/
theorem notes_view_longTitle : ∃ s o s', shellMachine.Reach s ∧
    typedNote (text "abcdefghijklmnopqrstu" ++ ch '\r' :: (text "b" ++ [ch '\r'])) =
      some (text "abcdefghijklmnopqrstu", text "b") ∧
    shellMachine.step s ⟨.notes, text "new",
      text "abcdefghijklmnopqrstu" ++ ch '\r' :: (text "b" ++ [ch '\r'])⟩ = some (o, s') ∧
    (∃ front, o.1 = front ++ say (text "Saved.\n")) ∧
    ∀ out, shellMachine.step s' ⟨.notes, text "view " ++ text "abcdefghijklmnopqrstu", []⟩ =
      some ((out, []), s') → printedText out ≠
        text "\n" ++ noteText (text "abcdefghijklmnopqrstu") (text "b") := by
  obtain ⟨s, o, s', hreach, hinv, hdir, hmap, hn, hnew⟩ :=
    boot_note (show ∀ c ∈ text "abcdefghijklmnopqrstu", PlainKey c from forall_of_all (by decide))
      (show ∀ c ∈ text "b", PlainKey c from forall_of_all (by decide)) (by decide) (by decide)
  obtain ⟨hshown, r, hr, rfl⟩ := step_notesNew hnew
  refine ⟨s, o, r.val, hreach, hn, hnew, hshown, ?_⟩
  have hviewed : s.path (viewedFile (text "abcdefghijklmnopqrstu")) =
      text "/root/note_abcdefghijklmnopqrstu" := by
    unfold Shell.path
    rw [hdir]
    decide
  have hsaved : s.path (noteFile (text "abcdefghijklmnopqrstu")) =
      text "/root/note_abcdefghijklmnopqrst" := by
    unfold Shell.path
    rw [hdir]
    decide
  obtain ⟨shown, hview, hz, hiff⟩ := notesView_iff hinv hn (by decide) (by decide) hr
  rw [step_notesView, hview, Option.map_some]
  rintro out hout htext
  cases hout
  rw [((displays_say (by decide)).append (displays_say hz)).text_eq,
    List.append_cancel_left_eq, hiff] at htext
  unfold NoteKept at htext
  rw [hviewed, hsaved, hmap, if_neg (by decide)] at htext
  obtain ⟨old, hold, _⟩ := htext
  rw [show rootMap.lookup (text "/root/note_abcdefghijklmnopqrstu") = none by decide] at hold
  cases hold

end MiniOS
