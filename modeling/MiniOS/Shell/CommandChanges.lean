import MiniOS.Shell.Changes

/-!
# The changes of every command

Each command makes only the entries of `ShellCall.Creates` and deletes only the
names of `ShellCall.Deletes` (`run_changes`); what it is asked to make and can
make is there afterwards (`run_creates`), what `del` and `deld` are asked to
delete is gone (`run_deletes`).  `current_dir` changes with `goto` only
(`run_currentDir`), and the table then stays (`goto_table`).
-/

namespace MiniOS

open Lib

variable {s : Shell} {C : List UInt8 → Node → Prop} {D : List UInt8 → Prop}

theorem str_ne_nil {arg : List UInt8} (h : ¬ arg.headD 0 = 0) : str arg ≠ [] :=
  fun hs => h ((headD_eq_zero_iff arg).mpr hs)

/-! ## One file -/

/-- `new` creates its path, if it has an extension. -/
theorem cmdNew_cases {arg : List UInt8} {r : Shown} (hr : cmdNew s arg = some r) :
    (r.1.table = s.table ∧ (str arg = [] ∨ ¬ hasExtension (basename arg))) ∨
      str arg ≠ [] ∧ hasExtension (basename arg) ∧
        ∃ path c, str path = s.path arg ∧ fsCreate s.table path = some c ∧
          r.1.table = c.table := by
  unfold cmdNew at hr
  split at hr
  · rename_i h0
    cases hr
    exact .inl ⟨rfl, .inl ((headD_eq_zero_iff arg).mp h0)⟩
  · rename_i h0
    split at hr
    · rename_i hext
      cases hr
      exact .inl ⟨rfl, .inr hext⟩
    · rename_i hext
      simp only [Option.bind_eq_bind, Option.bind_eq_some_iff] at hr
      obtain ⟨path, hp, c, hc, hr⟩ := hr
      cases hr
      exact .inr ⟨str_ne_nil h0, not_not.mp hext, path.bytes, c, resolvePath_str hp, hc, rfl⟩

theorem cmdEdit_cases {arg keys : List UInt8} {r : Typed Shell}
    (hr : cmdEdit s arg keys = some r) :
    (r.val.table = s.table ∧ str arg = []) ∨
      str arg ≠ [] ∧ ∃ path e, str path = s.path arg ∧
        editorOpen s.table s.editor path keys = some e ∧ r.val.table = e.val.1 := by
  unfold cmdEdit at hr
  split at hr
  · rename_i h0
    cases hr
    exact .inl ⟨rfl, (headD_eq_zero_iff arg).mp h0⟩
  · rename_i h0
    simp only [Option.bind_eq_bind, Option.bind_eq_some_iff] at hr
    obtain ⟨path, hp, e, he, hr⟩ := hr
    cases hr
    exact .inr ⟨str_ne_nil h0, path.bytes, e, resolvePath_str hp, he, rfl⟩

theorem cmdWrite_cases {arg keys : List UInt8} {r : Typed Shell}
    (hr : cmdWrite s arg keys = some r) :
    r.val.table = s.table ∨ ∃ path w, ∃ data : Chars fsMaxFilesize, ∃ len,
      fsWrite s.table path data.bytes len = some w ∧ r.val.table = w.table := by
  unfold cmdWrite at hr
  split at hr
  · cases hr
    exact .inl rfl
  · simp only [Option.bind_eq_bind, Option.bind_eq_some_iff] at hr
    obtain ⟨path, _, line, _, w, hw, hr⟩ := hr
    cases hr
    exact .inr ⟨_, w, _, _, hw, rfl⟩

/-- `del` and `deld` delete the path, whatever it is. -/
theorem delete_cases {arg : List UInt8} {r : Shown}
    (hr : cmdDel s arg = some r ∨ cmdDeld s arg = some r) :
    (r.1.table = s.table ∧ str arg = []) ∨
      str arg ≠ [] ∧ ∃ path, str path = s.path arg ∧ r.1.table = (fsDelete s.table path).table := by
  rcases hr with hr | hr
  all_goals
    first | unfold cmdDel at hr | unfold cmdDeld at hr
    split at hr
    · rename_i h0
      cases hr
      exact .inl ⟨rfl, (headD_eq_zero_iff arg).mp h0⟩
    · rename_i h0
      simp only [Option.bind_eq_bind, Option.bind_eq_some_iff] at hr
      obtain ⟨path, hp, hr⟩ := hr
      refine .inr ⟨str_ne_nil h0, path.bytes, resolvePath_str hp, ?_⟩
      split at hr <;> cases hr <;> rfl

theorem cmdMkd_cases {arg : List UInt8} {r : Shown} (hr : cmdMkd s arg = some r) :
    (r.1.table = s.table ∧ str arg = []) ∨
      str arg ≠ [] ∧ ∃ path c, str path = s.path arg ∧ fsCreateDir s.table path = some c ∧
        r.1.table = c.table := by
  unfold cmdMkd at hr
  split at hr
  · rename_i h0
    cases hr
    exact .inl ⟨rfl, (headD_eq_zero_iff arg).mp h0⟩
  · rename_i h0
    simp only [Option.bind_eq_bind, Option.bind_eq_some_iff] at hr
    obtain ⟨path, hp, c, hc, hr⟩ := hr
    refine .inr ⟨str_ne_nil h0, path.bytes, c, resolvePath_str hp, hc, ?_⟩
    split at hr <;> cases hr <;> rfl

/-- `see` and `look` only read. -/
theorem read_state {arg : List UInt8} {r : Shown}
    (hr : cmdSee s arg = some r ∨ cmdLook s arg = some r) : r.1 = s := by
  rcases hr with hr | hr
  all_goals
    first | unfold cmdSee at hr | unfold cmdLook at hr
    split at hr
    · cases hr
      rfl
    · simp only [Option.bind_eq_bind, Option.bind_eq_some_iff, Prod.exists] at hr
      obtain ⟨path, _, n, buf, _, hr⟩ := hr
      split at hr <;> cases hr <;> rfl

/-- `goto` goes to a directory of the table, or nowhere. -/
theorem goto_cases {arg : List UInt8} {r : Shown} (hr : cmdGoto s arg = some r) :
    r.1.table = s.table ∧
      (r.1.currentDir = s.currentDir ∨
        ∃ newDir, gotoDir s.currentDir arg (Chars.uninit 64) = some newDir ∧
          fsIsDir s.table newDir.bytes ∧ str r.1.currentDir.bytes = str newDir.bytes) := by
  simp only [cmdGoto, Option.bind_eq_bind, Option.bind_eq_some_iff] at hr
  obtain ⟨newDir, hd, hr⟩ := hr
  split at hr
  · cases hr
    exact ⟨rfl, .inl rfl⟩
  · rename_i hdir
    simp only [Option.bind_eq_some_iff] at hr
    obtain ⟨dir, hcopy, hr⟩ := hr
    cases hr
    exact ⟨rfl, .inr ⟨newDir, hd, not_not.mp hdir, (strcpy_fits hcopy).2⟩⟩

/-! ## Notes -/

theorem noteFile_headD (title : List UInt8) : (noteFile title).headD 0 = ch 'n' := rfl

/-- `notes new` creates the file of its title and writes the body to it, whatever becomes of the
two. -/
theorem notesNew_cases {keys : List UInt8} {r : Typed Shell} (hr : notesNew s keys = some r) :
    ∃ title body path c w front, keyboardReadline (Chars.uninit 32) 32 keys = some title ∧
      keyboardReadline (Chars.uninit fsMaxFilesize) fsMaxFilesize title.keys = some body ∧
      (str s.currentDir.bytes).length ≤ 62 ∧
      str path = s.path (noteFile (str title.val.2.bytes)) ∧ fsCreate s.table path = some c ∧
      fsWrite c.table path body.val.2.bytes (strlen body.val.2.bytes) = some w ∧
      r = ⟨{ s with table := w.table }, front ++ say (text "Saved.\n"), body.keys⟩ := by
  simp only [notesNew, Option.bind_eq_bind, Option.bind_eq_some_iff] at hr
  obtain ⟨title, htitle, body, hbody, raw₀, h0, raw₁, h1, raw₂, h2, path, hp, c, hc, w, hw, hr⟩ := hr
  cases hr
  obtain ⟨_, hs0⟩ := strcpy_fits h0
  have hlen : (str raw₀.bytes).length = 5 := by
    rw [hs0]
    decide
  obtain ⟨b, b', hb, hb', hs⟩ :=
    strncpy_put_spec raw₀ 5 title.val.2.bytes 20 (by decide) (by rw [hlen])
  rw [h1] at hb
  cases hb
  rw [show 5 + 20 = 25 from rfl, h2] at hb'
  cases hb'
  -- the name is `note_` and the cut title
  have hname : str raw₂.bytes = noteFile (str title.val.2.bytes) := by
    rw [hs, List.take_of_length_le (by rw [hlen]), hs0]
    rfl
  have hhead : raw₂.bytes.headD 0 = ch 'n' := by
    rw [← headD_str, hname, noteFile_headD]
  refine ⟨title, body, path.bytes, c, w, _, htitle, hbody, ?_, ?_, hc, hw, rfl⟩
  · rcases (resolvePath_isSome_iff _ _ _).mp (by rw [hp]; rfl) with ⟨hnil, _⟩ | hslash | hdir
    · rw [hname] at hnil
      cases hnil
    · rw [hhead] at hslash
      exact absurd hslash (by decide)
    · exact hdir
  · rw [resolvePath_str hp, hname]
    unfold Shell.path
    rw [← hname, str_of_not_mem (zero_not_mem_str _)]

theorem cmdNotes_cases {arg keys : List UInt8} {r : Typed Shell}
    (hr : cmdNotes s arg keys = some r) :
    (r.val.table = s.table ∧ strcmp arg (text "new") ≠ 0) ∨
      strcmp arg (text "new") = 0 ∧ ∃ r', notesNew s keys = some r' ∧
        r.val.table = r'.val.table := by
  simp only [cmdNotes, Option.bind_eq_bind] at hr
  split at hr
  · rename_i hnew
    obtain ⟨r', hr', hr⟩ := Option.bind_eq_some_iff.mp hr
    cases hr
    exact .inr ⟨hnew, r', hr', rfl⟩
  · rename_i hnew
    refine .inl ⟨?_, hnew⟩
    split at hr
    · cases hr
      rfl
    · split at hr
      · obtain ⟨out, _, hr⟩ := Option.bind_eq_some_iff.mp hr
        cases hr
        rfl
      · cases hr
        rfl

/-! ## The file manager -/

/-- A key of `cmd_fm` creates, or deletes, the name typed after it. -/
theorem fmKey_changes (h : TableInv s.table) {c : UInt8} {keys : List UInt8} {r : Typed Shell}
    (hr : fmKey s c keys = some r)
    (hC : ∀ line, (c = ch 'c' ∨ c = ch 'C') → keyboardReadline (Chars.uninit 64) 64 keys = some line →
      Creatable (fsMap s.table) (str line.val.2.bytes) → C (str line.val.2.bytes) (.file []))
    (hD : ∀ line, (c = ch 'd' ∨ c = ch 'D') → keyboardReadline (Chars.uninit 64) 64 keys = some line →
      str line.val.2.bytes ∈ fsMap s.table → D (str line.val.2.bytes)) :
    Changes C D (fsMap s.table) (fsMap r.val.table) := by
  unfold fmKey at hr
  split at hr
  · rename_i hc
    simp only [fmCreate, Option.bind_eq_bind, Option.bind_eq_some_iff] at hr
    obtain ⟨name, hname, cr, hcr, hr⟩ := hr
    have h1 := fsCreate_changes (D := D) h hcr (hC name hc hname)
    split at hr
    · simp only [Option.bind_eq_some_iff] at hr
      obtain ⟨body, _, w, hw, hr⟩ := hr
      cases hr
      exact h1.trans (fsWrite_changes (fsCreate_keeps hcr h) hw (Nat.le_refl _))
    · cases hr
      exact h1
  · split at hr
    · simp only [fmRead, Option.bind_eq_bind, Option.bind_eq_some_iff, Prod.exists] at hr
      obtain ⟨name, _, n, buf, _, hr⟩ := hr
      split at hr
      · simp only [Option.bind_eq_some_iff, Prod.exists] at hr
        obtain ⟨c', keys', _, hr⟩ := hr
        cases hr
        exact Changes.refl C D _
      · cases hr
        exact Changes.refl C D _
    · split at hr
      · rename_i hd
        simp only [fmDelete, Option.bind_eq_bind, Option.bind_eq_some_iff] at hr
        obtain ⟨name, hname, hr⟩ := hr
        cases hr
        exact fsDelete_changes h _ (hD name hd hname)
      · cases hr
        exact Changes.refl C D _

/-- A round of `cmd_fm` keeps what the commands keep. -/
theorem fmRounds_keeps {r r' : Typed Shell} (h : Rounds fmBody r r') : Keeps r.val r'.val := by
  induction h with
  | refl => exact Keeps.refl _
  | tail _ hb ih =>
    obtain ⟨c, keys, r₁, _, hf, hv, _⟩ := fmBody_next hb
    rw [hv]
    exact ih.trans (fmKey_keeps hf)

/-- The rounds of `cmd_fm` create the names typed at Create and delete those at Delete. -/
theorem fmRounds_changes {r r' : Typed Shell} (h : TableInv r.val.table)
    (hC : ∀ before after c rest line, Rounds fmBody r before → fmBody before = .inl after →
      before.keys = c :: rest → (c = ch 'c' ∨ c = ch 'C') →
      keyboardReadline (Chars.uninit 64) 64 rest = some line →
      Creatable (fsMap before.val.table) (str line.val.2.bytes) →
      C (str line.val.2.bytes) (.file []))
    (hD : ∀ before after c rest line, Rounds fmBody r before → fmBody before = .inl after →
      before.keys = c :: rest → (c = ch 'd' ∨ c = ch 'D') →
      keyboardReadline (Chars.uninit 64) 64 rest = some line →
      str line.val.2.bytes ∈ fsMap before.val.table → D (str line.val.2.bytes))
    (hr : Rounds fmBody r r') : Changes C D (fsMap r.val.table) (fsMap r'.val.table) := by
  induction hr with
  | refl => exact Changes.refl _ _ _
  | @tail before after hrounds hb ih =>
    obtain ⟨c, rest, r₁, hkeys, hf, hv, _⟩ := fmBody_next hb
    rw [hv]
    exact ih.trans (fmKey_changes ((fmRounds_keeps hrounds).table h) hf
      (fun line hc hline hcr => hC before after c rest line hrounds hb hkeys hc hline hcr)
      fun line hc hline hm => hD before after c rest line hrounds hb hkeys hc hline hm)

/-- Every round of a session changes the table by names typed so far. -/
theorem fmSession_changes (h : TableInv s.table) {keys : List UInt8} {r : Typed Shell}
    (hr : Rounds fmBody ⟨s, [], keys⟩ r) :
    Changes (fun p v => v = .file [] ∧ FmCreates s keys p) (FmDeletes s keys)
      (fsMap s.table) (fsMap r.val.table) := by
  refine fmRounds_changes h ?_ ?_ hr
  · intro before after c rest line hrounds hb hkeys hc hline hcr
    exact ⟨rfl, c, before.val, hc,
      ⟨before, after, rest, line, hrounds, hb, rfl, hkeys, hline, rfl⟩, hcr⟩
  · intro before after c rest line hrounds hb hkeys hc hline hm
    exact ⟨c, before.val, hc,
      ⟨before, after, rest, line, hrounds, hb, rfl, hkeys, hline, rfl⟩, hm⟩

/-- A session ends in the state of one of its rounds. -/
theorem cmdFm_rounds {keys : List UInt8} {r : Typed Shell} (hr : cmdFm s keys = some r) :
    ∃ r', Rounds fmBody ⟨s, [], keys⟩ r' ∧ fmBody r' = .inr (some r) ∧ r.val = r'.val := by
  unfold cmdFm at hr
  rw [Option.join_eq_some_iff] at hr
  obtain ⟨r', hrounds, hb⟩ := loop_rounds hr
  exact ⟨r', hrounds, hb, fmBody_done hb⟩

/-! ## Every command -/

theorem path_ne_nil (s : Shell) {arg : List UInt8} (h : str arg ≠ []) : s.path arg ≠ [] := by
  unfold Shell.path
  rw [Ne, List.take_eq_nil_iff, not_or]
  refine ⟨by decide, ?_⟩
  unfold joinPath
  rw [if_neg h]
  split
  · exact h
  · rw [List.append_eq_nil_iff, not_and]
    exact fun _ => h

/-- **What a command changes.**  Only entries it is asked to make come, only names it is asked
to delete go. -/
theorem run_changes (h : TableInv s.table) {e : ShellCall} {r : Typed Shell}
    (hr : e.run s = some r) :
    Changes (e.Creates s) (e.Deletes s) (fsMap s.table) (fsMap r.val.table) := by
  obtain ⟨cmd, arg, keys⟩ := e
  cases cmd with
  | new =>
    obtain ⟨r', hr', rfl⟩ := Option.map_eq_some_iff.mp hr
    show Changes _ _ _ (fsMap r'.1.table)
    rcases cmdNew_cases hr' with ⟨htab, _⟩ | ⟨hne, hext, path, c, hp, hc, htab⟩
    · rw [htab]
    · rw [htab]
      exact fsCreate_changes h hc fun hcr => ⟨hne, hext, hp, rfl, hcr⟩
  | edit =>
    rcases cmdEdit_cases hr with ⟨htab, _⟩ | ⟨hne, path, e, hp, he, htab⟩
    · rw [htab]
    · have hpath : str path ≠ [] := by
        rw [hp]
        exact path_ne_nil s hne
      rw [htab]
      rcases editorOpen_cases h hpath he with ⟨old, txt, hopen, hmap⟩ | ⟨_, htab'⟩
      · rw [hmap]
        rcases hopen with hfile | ⟨hcr, _⟩
        · exact Relation.ReflTransGen.single (.write hfile)
        · exact Changes.create_write ⟨hne, hp, rfl, hcr⟩ hcr txt
      · rw [htab']
  | write =>
    rcases cmdWrite_cases hr with htab | ⟨path, w, data, len, hw, htab⟩
    · rw [htab]
    · rw [htab]
      exact fsWrite_changes h hw (Nat.le_refl _)
  | see =>
    obtain ⟨r', hr', rfl⟩ := Option.map_eq_some_iff.mp hr
    show Changes _ _ _ (fsMap r'.1.table)
    rw [read_state (.inl hr')]
  | look =>
    obtain ⟨r', hr', rfl⟩ := Option.map_eq_some_iff.mp hr
    show Changes _ _ _ (fsMap r'.1.table)
    rw [read_state (.inr hr')]
  | laf | wdir =>
    cases hr
    exact Changes.refl _ _ _
  | notes =>
    rcases cmdNotes_cases hr with ⟨htab, _⟩ | ⟨hnew, r', hr', htab⟩
    · rw [htab]
    · obtain ⟨title, body, path, c, w, _, htitle, _, _, hp, hc, hw, rfl⟩ := notesNew_cases hr'
      rw [htab]
      have h1 := fsCreate_changes (C := ShellCall.Creates s ⟨.notes, arg, keys⟩)
        (D := ShellCall.Deletes s ⟨.notes, arg, keys⟩) h hc
        fun hcr => ⟨hnew, rfl, hcr, title, htitle, hp⟩
      exact h1.trans (fsWrite_changes (fsCreate_keeps hc h) hw (Nat.le_refl _))
  | fm =>
    obtain ⟨r', hrounds, _, hv⟩ := cmdFm_rounds hr
    rw [hv]
    exact fmSession_changes h hrounds
  | del =>
    obtain ⟨r', hr', rfl⟩ := Option.map_eq_some_iff.mp hr
    show Changes _ _ _ (fsMap r'.1.table)
    rcases delete_cases (.inl hr') with ⟨htab, _⟩ | ⟨hne, path, hp, htab⟩
    · rw [htab]
    · rw [htab]
      exact fsDelete_changes h path fun hm => ⟨hne, hp, hm⟩
  | deld =>
    obtain ⟨r', hr', rfl⟩ := Option.map_eq_some_iff.mp hr
    show Changes _ _ _ (fsMap r'.1.table)
    rcases delete_cases (.inr hr') with ⟨htab, _⟩ | ⟨hne, path, hp, htab⟩
    · rw [htab]
    · rw [htab]
      exact fsDelete_changes h path fun hm => ⟨hne, hp, hm⟩
  | cpy =>
    obtain ⟨r', hr', rfl⟩ := Option.map_eq_some_iff.mp hr
    exact transfer_changes (k := .cpy) h hr' (fun p q hm => ⟨rfl, p, hm⟩)
      fun _ _ _ hk => absurd rfl hk
  | mov =>
    obtain ⟨r', hr', rfl⟩ := Option.map_eq_some_iff.mp hr
    exact transfer_changes (k := .mov) h hr' (fun p q hm => ⟨rfl, p, hm⟩)
      fun p q hm _ => ⟨q, hm⟩
  | rename =>
    obtain ⟨r', hr', rfl⟩ := Option.map_eq_some_iff.mp hr
    exact transfer_changes (k := .rename) h hr' (fun p q hm => ⟨rfl, p, hm⟩)
      fun p q hm _ => ⟨q, hm⟩
  | goto =>
    obtain ⟨r', hr', rfl⟩ := Option.map_eq_some_iff.mp hr
    show Changes _ _ _ (fsMap r'.1.table)
    rw [(goto_cases hr').1]
  | mkd =>
    obtain ⟨r', hr', rfl⟩ := Option.map_eq_some_iff.mp hr
    show Changes _ _ _ (fsMap r'.1.table)
    rcases cmdMkd_cases hr' with ⟨htab, _⟩ | ⟨hne, path, c, hp, hc, htab⟩
    · rw [htab]
    · rw [htab]
      exact fsCreateDir_changes h hc fun hcr => ⟨hne, hp, rfl, hcr⟩

theorem TransferKind.Makes.unique {k : TransferKind} {arg p q p' q' : List UInt8}
    (h : k.Makes s arg p q) (h' : k.Makes s arg p' q') : p = p' ∧ q = q' := by
  obtain ⟨src, dst, hargs, rfl, rfl, _⟩ := h
  obtain ⟨src', dst', hargs', rfl, rfl, _⟩ := h'
  rw [hargs] at hargs'
  cases hargs'
  exact ⟨rfl, rfl⟩

/-- What a transfer makes is there afterwards. -/
theorem transfer_mem (h : TableInv s.table) {k : TransferKind} {arg : List UInt8} {r : Transfer}
    (hr : k.run s arg = some r) {p q : List UInt8} (hm : k.Makes s arg p q) :
    q ∈ fsMap r.table := by
  rcases transfer_makes h hr with ⟨_, hno⟩ | ⟨p', q', bytes, hm', hlook, hcr, hmap⟩
  · exact absurd hm (hno p q)
  · obtain ⟨rfl, rfl⟩ := hm.unique hm'
    have hne : q ≠ p := by
      rintro rfl
      exact hcr.2.2.1 (Finmap.mem_of_lookup_eq_some hlook)
    have hins : q ∈ (fsMap s.table).insert q (.file bytes) := Finmap.mem_insert.mpr (.inl rfl)
    rw [hmap]
    unfold moved
    split
    · exact Finmap.mem_erase.mpr ⟨hne, hins⟩
    · exact hins

/-- **What a command makes.**  What it is asked to make, and can make, is there afterwards. -/
theorem run_creates (h : TableInv s.table) {e : ShellCall} {r : Typed Shell}
    (hr : e.run s = some r) (hfm : e.cmd ≠ .fm) {p : List UInt8} {v : Node}
    (hC : e.Creates s p v) : p ∈ fsMap r.val.table := by
  have hcreate : ∀ {path : List UInt8} {w : Node} {c : FsResult}, str path = p →
      Creatable (fsMap s.table) p → Creates s.table path w c → p ∈ fsMap c.table := by
    rintro path w c rfl hcr hc
    rcases hc.2 with ⟨_, _, hmap⟩ | ⟨hno, _⟩
    · rw [hmap]
      exact Finmap.mem_insert.mpr (.inl rfl)
    · exact absurd hcr hno
  obtain ⟨cmd, arg, keys⟩ := e
  cases cmd with
  | new =>
    obtain ⟨r', hr', rfl⟩ := Option.map_eq_some_iff.mp hr
    obtain ⟨hne, hext, hp, _, hcr⟩ := hC
    show p ∈ fsMap r'.1.table
    rcases cmdNew_cases hr' with ⟨_, hno | hno⟩ | ⟨_, _, path, c, hpath, hc, htab⟩
    · exact absurd hno hne
    · exact absurd hext hno
    · rw [htab]
      exact hcreate (by rw [hpath, hp]) hcr (fsCreate_creates h hc)
  | edit =>
    obtain ⟨hne, hp, _, hcr⟩ := hC
    rcases cmdEdit_cases hr with ⟨_, hno⟩ | ⟨_, path, e, hpath, he, htab⟩
    · exact absurd hno hne
    · rw [← hpath] at hp
      subst hp
      rw [htab]
      rcases editorOpen_cases h (by rw [hpath]; exact path_ne_nil s hne) he with
        ⟨old, txt, _, hmap⟩ | ⟨hno, _⟩
      · rw [hmap]
        exact Finmap.mem_insert.mpr (.inl rfl)
      · exact absurd (.inr ⟨hcr, rfl⟩) (hno [])
  | mkd =>
    obtain ⟨r', hr', rfl⟩ := Option.map_eq_some_iff.mp hr
    obtain ⟨hne, hp, _, hcr⟩ := hC
    show p ∈ fsMap r'.1.table
    rcases cmdMkd_cases hr' with ⟨_, hno⟩ | ⟨_, path, c, hpath, hc, htab⟩
    · exact absurd hno hne
    · rw [htab]
      exact hcreate (by rw [hpath, hp]) hcr (fsCreateDir_creates h hc)
  | notes =>
    obtain ⟨hnew, _, hcr, title, htitle, hp⟩ := hC
    rcases cmdNotes_cases hr with ⟨_, hno⟩ | ⟨_, r', hr', htab⟩
    · exact absurd hnew hno
    · obtain ⟨title', body, path, c, w, _, htitle', _, _, hpath, hc, hw, rfl⟩ := notesNew_cases hr'
      rw [htitle] at htitle'
      cases htitle'
      have hin := hcreate (by rw [hpath, hp]) hcr (fsCreate_creates h hc)
      rw [htab]
      exact (fsWrite_changes (C := fun _ _ => True) (D := fun _ => False) (fsCreate_keeps hc h) hw
        (Nat.le_refl _)).mem_of_mem not_false hin
  | cpy =>
    obtain ⟨r', hr', rfl⟩ := Option.map_eq_some_iff.mp hr
    obtain ⟨_, src, hm⟩ := hC
    exact transfer_mem (k := .cpy) h hr' hm
  | mov =>
    obtain ⟨r', hr', rfl⟩ := Option.map_eq_some_iff.mp hr
    obtain ⟨_, src, hm⟩ := hC
    exact transfer_mem (k := .mov) h hr' hm
  | rename =>
    obtain ⟨r', hr', rfl⟩ := Option.map_eq_some_iff.mp hr
    obtain ⟨_, src, hm⟩ := hC
    exact transfer_mem (k := .rename) h hr' hm
  | fm => exact absurd rfl hfm
  | write | see | laf | del | look | wdir | goto | deld => cases hC

/-- `del` and `deld` take the name they are given out of the map. -/
theorem run_deletes (h : TableInv s.table) {e : ShellCall} {r : Typed Shell}
    (hr : e.run s = some r) (hcmd : e.cmd = .del ∨ e.cmd = .deld) (harg : str e.arg ≠ []) :
    fsMap r.val.table = (fsMap s.table).erase (s.path e.arg) := by
  obtain ⟨cmd, arg, keys⟩ := e
  have hdel : ∀ {r' : Shown}, (cmdDel s arg = some r' ∨ cmdDeld s arg = some r') →
      fsMap r'.1.table = (fsMap s.table).erase (s.path arg) := by
    intro r' hr'
    rcases delete_cases hr' with ⟨_, hno⟩ | ⟨_, path, hp, htab⟩
    · exact absurd hno harg
    · rw [htab, ← hp]
      rcases (fsDelete_spec h path).2 with ⟨_, _, hmap⟩ | ⟨hm, _, htab'⟩
      · exact hmap
      · rw [htab']
        refine Finmap.ext_lookup fun q => ?_
        by_cases hq : q = str path
        · rw [hq, Finmap.lookup_erase, Finmap.lookup_eq_none.mpr hm]
        · rw [Finmap.lookup_erase_ne hq]
  rcases hcmd with rfl | rfl
  · obtain ⟨r', hr', rfl⟩ := Option.map_eq_some_iff.mp hr
    exact hdel (.inl hr')
  · obtain ⟨r', hr', rfl⟩ := Option.map_eq_some_iff.mp hr
    exact hdel (.inr hr')

/-- Only `goto` moves. -/
theorem run_currentDir {e : ShellCall} {r : Typed Shell} (hr : e.run s = some r)
    (hcmd : e.cmd ≠ .goto) : r.val.currentDir = s.currentDir := by
  obtain ⟨cmd, arg, keys⟩ := e
  have hshown : ∀ {f : Option Shown}, (∀ r, f = some r → Keeps s r.1) →
      f.map (Shown.typed keys) = some r → r.val.currentDir = s.currentDir := by
    intro f hf hr
    obtain ⟨r', hr', rfl⟩ := Option.map_eq_some_iff.mp hr
    exact (hf r' hr').dir
  have htransfer : ∀ {f : Option Transfer}, f.map (Transfer.typed s keys) = some r →
      r.val.currentDir = s.currentDir := by
    intro f hr
    obtain ⟨r', _, rfl⟩ := Option.map_eq_some_iff.mp hr
    rfl
  cases cmd with
  | new => exact hshown (fun _ => cmdNew_keeps) hr
  | edit => exact (cmdEdit_keeps hr).dir
  | write => exact (cmdWrite_keeps hr).dir
  | see => exact hshown (fun _ => cmdSee_keeps) hr
  | notes => exact (cmdNotes_keeps hr).dir
  | fm => exact (cmdFm_keeps hr).dir
  | del => exact hshown (fun _ => cmdDel_keeps) hr
  | look => exact hshown (fun _ => cmdLook_keeps) hr
  | mkd => exact hshown (fun _ => cmdMkd_keeps) hr
  | deld => exact hshown (fun _ => cmdDeld_keeps) hr
  | cpy | mov | rename => exact htransfer hr
  | laf | wdir =>
    cases hr
    rfl
  | goto => exact absurd rfl hcmd

end MiniOS
