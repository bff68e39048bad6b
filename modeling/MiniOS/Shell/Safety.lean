import MiniOS.Shell.ArgumentCopies
import MiniOS.Shell.Goto
import MiniOS.Shell.KeyPrograms
import MiniOS.Shell.NotesView
import MiniOS.Shell.PathSafety
import MiniOS.Shell.Transfer
import MiniOS.Shell.TransferNames

/-!
# Where the file commands stay inside their arrays

It is decided before a key is read (`StaysInBounds`): a command that stays inside
its arrays can be typed to its end whatever has been typed, and one that does not
leaves them whatever is typed (`command_stays_iff`).
-/

namespace MiniOS

open Lib

variable {α β : Type} {s : Shell} {arg : List UInt8}

/-! ## Paths -/

/-- `resolve_path` stays inside its buffer. -/
def PathFits (s : Shell) (arg : List UInt8) : Prop :=
  str arg = [] ∨ arg.headD 0 = ch '/' ∨ (str s.currentDir.bytes).length ≤ 62

/-- Both arguments of `cpy`, `mov` and `rename` do. -/
def TwoPathsFit (s : Shell) (arg : List UInt8) : Prop :=
  ∀ src dst, twoArgs arg = some (some (src, dst)) → PathFits s src.bytes ∧ PathFits s dst.bytes

/-- What a command needs to stay inside its arrays.  `mov` puts a `/` behind the directory it
moves to, `notes` a name behind `current_dir`. -/
def StaysInBounds (s : Shell) (cmd : ShellCmd) (arg : List UInt8) : Prop :=
  match cmd with
  | .new => hasExtension (basename arg) → PathFits s arg
  | .edit | .write | .see | .look | .del | .mkd | .deld => PathFits s arg
  | .cpy | .rename => TwoPathsFit s arg
  | .mov => TwoPathsFit s arg ∧ ∀ src dst, twoArgs arg = some (some (src, dst)) →
      (fsMap s.table).lookup (s.path dst.bytes) = some .dir → (s.path dst.bytes).length ≤ 62
  | .notes =>
    (str arg = text "new" → (str s.currentDir.bytes).length ≤ 62) ∧
      ∀ title, str arg = text "view " ++ title →
        (unquote title).length ≤ 58 ∧ (str s.currentDir.bytes).length ≤ 62
  | .laf | .fm | .wdir | .goto => True

theorem resolvePath_fits (h : ShellInv s) (hfits : PathFits s arg) :
    ∃ path, resolvePath s.currentDir arg (Chars.uninit 64) = some path := by
  rw [← Option.isSome_iff_exists, resolvePath_isSome_iff]
  rcases hfits with hnil | hslash | hdir
  · exact .inl ⟨hnil, h.dir⟩
  · exact .inr (.inl hslash)
  · exact .inr (.inr hdir)

theorem resolvePath_overrun (hfits : ¬ PathFits s arg) :
    resolvePath s.currentDir arg (Chars.uninit 64) = none := by
  rw [← Option.not_isSome_iff_eq_none, resolvePath_isSome_iff]
  rintro (⟨hnil, _⟩ | hslash | hdir)
  · exact hfits (.inl hnil)
  · exact hfits (.inr (.inl hslash))
  · exact hfits (.inr (.inr hdir))

/-- A name that starts with a letter. -/
theorem pathFits_of_headD (hhead : arg.headD 0 = ch 'n') :
    PathFits s arg ↔ (str s.currentDir.bytes).length ≤ 62 := by
  constructor
  · rintro (hnil | hslash | hdir)
    · rw [← headD_eq_zero_iff, hhead] at hnil
      exact absurd hnil (by decide)
    · rw [hhead] at hslash
      exact absurd hslash (by decide)
    · exact hdir
  · exact fun hdir => .inr (.inr hdir)

/-! ## The commands -/

/-- Where it is safe the program reads its keys, and where it is not no keys bring it back. -/
structure Settles (safe : Prop) (p : List UInt8 → Option (Typed α)) : Prop where
  reads : safe → ReadsKeys p
  leaves : ¬ safe → ∀ keys, p keys = none

theorem resolvePath_returns (h : ShellInv s) :
    Returns (PathFits s arg) (resolvePath s.currentDir arg (Chars.uninit 64)) :=
  ⟨resolvePath_fits h, resolvePath_overrun⟩

/-- `resolve_path`, and what follows it. -/
theorem path_returns (h : ShellInv s) {rest : Chars 64 → Option β}
    (hrest : ∀ path, ∃ r, rest path = some r) :
    Returns (PathFits s arg) ((resolvePath s.currentDir arg (Chars.uninit 64)).bind rest) := by
  refine Returns.iff ((resolvePath_returns h).bind fun path _ => ?_) (and_true _).symm.to_iff
  obtain ⟨r, hr⟩ := hrest path
  rw [hr]
  exact .some r trivial

/-- A command with one path and a usage text. -/
theorem usage_returns (h : ShellInv s) (a : β) {rest : Chars 64 → Option β}
    (hrest : ∀ path, ∃ r, rest path = some r) :
    Returns (PathFits s arg) (if arg.headD 0 = 0 then some a
      else (resolvePath s.currentDir arg (Chars.uninit 64)).bind rest) := by
  by_cases h0 : arg.headD 0 = 0
  · rw [if_pos h0]
    exact .some a (.inl ((headD_eq_zero_iff arg).mp h0))
  · rw [if_neg h0]
    exact path_returns h hrest

/-- A command without keys leaves them as they are. -/
theorem settles_of_returns {safe : Prop} {o : Option β} (h : Returns safe o)
    (f : β → α × List TerminalCall) :
    Settles safe fun keys => o.map fun r => ⟨(f r).1, (f r).2, keys⟩ where
  reads hsafe := by
    obtain ⟨r, hr⟩ := h.returns hsafe
    simp only [hr, Option.map_some]
    exact ReadsKeys.answer _ _
  leaves hn keys := by
    rw [h.leaves hn]
    rfl

theorem shown_settles {safe : Prop} {o : Option Shown} (h : Returns safe o) :
    Settles safe fun keys => o.map (Shown.typed keys) := settles_of_returns h fun r => r

theorem transfer_settles {safe : Prop} {o : Option Transfer} (h : Returns safe o) :
    Settles safe fun keys => o.map (Transfer.typed s keys) :=
  settles_of_returns h fun r => ({ s with table := r.table }, say r.printed)

section

variable (h : ShellInv s)
include h

theorem cmdNew_returns : Returns (hasExtension (basename arg) → PathFits s arg) (cmdNew s arg) := by
  unfold cmdNew
  by_cases h0 : arg.headD 0 = 0
  · rw [if_pos h0]
    exact .some _ fun _ => .inl ((headD_eq_zero_iff arg).mp h0)
  rw [if_neg h0]
  by_cases hext : hasExtension (basename arg)
  · rw [if_neg (not_not.mpr hext)]
    refine Returns.iff (path_returns h fun path => ?_)
      ⟨fun hs => hs hext, fun hs _ => hs⟩
    obtain ⟨r, hr, _⟩ := fsCreate_spec h.table path.bytes
    rw [hr]
    exact ⟨_, rfl⟩
  · rw [if_pos hext]
    exact .some _ fun hx => absurd hx hext

theorem cmdSee_returns : Returns (PathFits s arg) (cmdSee s arg) := by
  refine usage_returns h _ fun path => ?_
  obtain ⟨n, buf, hread⟩ := fsRead_returns h.table path.bytes
  rw [hread]
  exact exists_ite _ _ _

theorem cmdLook_returns : Returns (PathFits s arg) (cmdLook s arg) := by
  refine usage_returns h _ fun path => ?_
  obtain ⟨n, buf, hread⟩ := fsRead_returns h.table path.bytes
  rw [hread]
  exact exists_ite _ _ _

theorem cmdDel_returns : Returns (PathFits s arg) (cmdDel s arg) :=
  usage_returns h _ fun _ => exists_ite _ _ _

theorem cmdDeld_returns : Returns (PathFits s arg) (cmdDeld s arg) :=
  usage_returns h _ fun _ => exists_ite _ _ _

theorem cmdMkd_returns : Returns (PathFits s arg) (cmdMkd s arg) := by
  refine usage_returns h _ fun path => ?_
  obtain ⟨r, hr, _⟩ := fsCreateDir_spec h.table path.bytes
  rw [hr]
  exact exists_ite _ _ _

theorem cmdEdit_settles : Settles (PathFits s arg) (cmdEdit s arg) where
  reads hfits := by
    unfold cmdEdit
    by_cases h0 : arg.headD 0 = 0
    · simp only [if_pos h0]
      exact ReadsKeys.answer _ _
    obtain ⟨path, hpath⟩ := resolvePath_fits h hfits
    simp only [if_neg h0, hpath, Option.bind_eq_bind, Option.bind_some]
    refine (editorOpen_reads h.table s.editor path.bytes).bind fun _ r _ => ?_
    dsimp only
    exact ReadsKeys.answer _ _
  leaves hfits keys := by
    unfold cmdEdit
    rw [if_neg fun h0 => hfits (.inl ((headD_eq_zero_iff arg).mp h0)), resolvePath_overrun hfits]
    rfl

theorem cmdWrite_settles : Settles (PathFits s arg) (cmdWrite s arg) where
  reads hfits := by
    unfold cmdWrite
    by_cases h0 : arg.headD 0 = 0
    · simp only [if_pos h0]
      exact ReadsKeys.answer _ _
    obtain ⟨path, hpath⟩ := resolvePath_fits h hfits
    simp only [if_neg h0, hpath, Option.bind_eq_bind, Option.bind_some]
    have hline := keyboardReadline_reads (n := fsMaxFilesize) (by decide) (by decide) s.textBuf
    refine hline.bind fun keys line _ => ?_
    obtain ⟨w, hw⟩ := fsWrite_returns h.table path.bytes line.val.2
    simp only [hw, Option.bind_some]
    exact ReadsKeys.answer _ _
  leaves hfits keys := by
    unfold cmdWrite
    rw [if_neg fun h0 => hfits (.inl ((headD_eq_zero_iff arg).mp h0)), resolvePath_overrun hfits]
    rfl

end

/-! ## Notes -/

/-- The name `notes new` makes of what was typed. -/
theorem noteName_spec (title : Chars 32) :
    ∃ r₀ r₁ r₂, strcpy (Chars.uninit 64) (text "note_") = some r₀ ∧
      strncpy r₀ 5 title.bytes 20 = some r₁ ∧ r₁.put 25 0 = some r₂ ∧ r₂.bytes.headD 0 = ch 'n' := by
  obtain ⟨r₀, h0, hs0⟩ := strcpy_spec (Chars.uninit 64) (text "note_") (by decide)
  obtain ⟨r₁, r₂, h1, h2, hs⟩ := strncpy_put_spec r₀ 5 title.bytes 20 (by decide)
    (by rw [hs0]; decide)
  refine ⟨r₀, r₁, r₂, h0, h1, h2, ?_⟩
  rw [← headD_str, hs, hs0]
  rfl

theorem notesNew_settles (h : ShellInv s) :
    Settles ((str s.currentDir.bytes).length ≤ 62) (notesNew s) where
  reads hdir := by
    unfold notesNew
    have htitle := keyboardReadline_reads (n := 32) (by decide) (by decide) (Chars.uninit 32)
    have hbody := keyboardReadline_reads (n := fsMaxFilesize) (by decide) (by decide)
      (Chars.uninit fsMaxFilesize)
    refine htitle.bind fun _ title _ => ?_
    dsimp only
    refine hbody.bind fun _ body _ => ?_
    obtain ⟨r₀, r₁, r₂, h0, h1, h2, hhead⟩ := noteName_spec title.val.2
    obtain ⟨path, hpath⟩ := resolvePath_fits h ((pathFits_of_headD hhead).mpr hdir)
    obtain ⟨c, hc, hinv, _⟩ := fsCreate_spec h.table path.bytes
    obtain ⟨w, hw⟩ := fsWrite_returns hinv path.bytes body.val.2
    simp only [h0, h1, h2, hpath, hc, hw, Option.bind_eq_bind, Option.bind_some]
    exact ReadsKeys.answer _ _
  leaves hdir keys := by
    unfold notesNew
    cases keyboardReadline (Chars.uninit 32) 32 keys with
    | none => rfl
    | some title =>
      simp only [Option.bind_eq_bind, Option.bind_some]
      cases keyboardReadline (Chars.uninit fsMaxFilesize) fsMaxFilesize title.keys with
      | none => rfl
      | some body =>
        obtain ⟨r₀, r₁, r₂, h0, h1, h2, hhead⟩ := noteName_spec title.val.2
        have hnone := resolvePath_overrun (s := s) fun hf => hdir ((pathFits_of_headD hhead).mp hf)
        simp only [h0, h1, h2, hnone, Option.bind_some, Option.bind_none]

theorem viewFilename_headD {title : List UInt8} {raw : Chars 64}
    (hr : viewFilename title = some raw) :
    raw.bytes.headD 0 = ch 'n' := by
  obtain ⟨r₀, h0, hs0⟩ := strcpy_spec (Chars.uninit 64) (text "note_") (by decide)
  obtain ⟨hcopy, hlen⟩ := unquote_copied title
  have hwrite : r₀.write 5 (unquote (str title) ++ [0]) = some raw := by
    rw [← hr]
    unfold viewFilename
    simp only [← hlen] at hcopy
    simp only [h0, Option.bind_eq_bind, Option.bind_some, ← hlen, hcopy, Chars.write_append,
      Chars.write_singleton]
  have hroom := (Chars.write_isSome r₀ 5 (unquote (str title) ++ [0]) (by simp)).mp
    (by rw [hwrite]; rfl)
  obtain ⟨b, hb, hbytes⟩ := r₀.write_eq 5 _ hroom
  rw [hwrite] at hb
  cases hb
  have hhead : r₀.bytes.headD 0 = ch 'n' := by
    rw [← headD_str, hs0]
    rfl
  rw [hbytes]
  cases hl : r₀.bytes with
  | nil =>
    rw [hl] at hhead
    exact absurd hhead (by decide)
  | cons c l =>
    rw [hl] at hhead
    exact hhead

theorem notesView_returns (h : ShellInv s) (title : List UInt8) :
    Returns ((unquote (str title)).length ≤ 58 ∧ (str s.currentDir.bytes).length ≤ 62)
      (notesView s title) := by
  rw [notesView_eq]
  have hname : Returns ((unquote (str title)).length ≤ 58) (viewFilename title) := by
    rw [← viewFilename_isSome_iff]
    exact ⟨Option.isSome_iff_exists.mp, Option.not_isSome_iff_eq_none.mp⟩
  refine hname.bind fun raw hraw => ?_
  have hhead := viewFilename_headD hraw
  refine Returns.iff (path_returns h fun path => ?_) (pathFits_of_headD hhead).symm
  obtain ⟨n, buf, hread⟩ := fsRead_returns h.table path.bytes
  rw [hread]
  exact exists_ite _ _ _

theorem cmdNotes_settles (h : ShellInv s) :
    Settles (StaysInBounds s .notes arg) (cmdNotes s arg) := by
  have hnew : strcmp arg (text "new") = 0 ↔ str arg = text "new" := by
    rw [strcmp_eq_zero_iff]
    exact Iff.rfl
  have hlist : strcmp arg (text "list") = 0 ↔ str arg = text "list" := by
    rw [strcmp_eq_zero_iff]
    exact Iff.rfl
  have hview : strncmp arg (text "view ") 5 = 0 ↔ text "view " <+: str arg :=
    strncmp_strlen_iff arg (text "view ")
  have hother : ∀ {w title : List UInt8}, str arg = w → w.headD 0 ≠ ch 'v' →
      str arg ≠ text "view " ++ title := by
    rintro w title rfl hw harg
    rw [harg] at hw
    exact hw rfl
  unfold StaysInBounds
  by_cases h1 : str arg = text "new"
  · have hsafe : ((str arg = text "new" → (str s.currentDir.bytes).length ≤ 62) ∧
        ∀ title, str arg = text "view " ++ title →
          (unquote title).length ≤ 58 ∧ (str s.currentDir.bytes).length ≤ 62) ↔
        (str s.currentDir.bytes).length ≤ 62 :=
      ⟨fun hs => hs.1 h1, fun hs => ⟨fun _ => hs, fun _ ht =>
        absurd ht (hother h1 (by decide))⟩⟩
    have hs := notesNew_settles h
    refine ⟨fun hn => ?_, fun hn keys => ?_⟩
    · unfold cmdNotes
      simp only [if_pos (hnew.mpr h1)]
      refine (hs.reads (hsafe.mp hn)).bind fun _ r _ => ?_
      dsimp only
      exact ReadsKeys.answer _ _
    · simp only [cmdNotes, if_pos (hnew.mpr h1), hs.leaves (fun hd => hn (hsafe.mpr hd)) keys]
      rfl
  by_cases h2 : str arg = text "list"
  · refine ⟨fun _ => ?_, fun hn => absurd ⟨fun h => absurd h h1, fun _ ht =>
      absurd ht (hother h2 (by decide))⟩ hn⟩
    unfold cmdNotes
    simp only [if_neg (fun hs => h1 (hnew.mp hs)), if_pos (hlist.mpr h2)]
    exact ReadsKeys.answer _ _
  by_cases h3 : text "view " <+: str arg
  · obtain ⟨title, harg⟩ := h3
    have htitle : str (arg.drop 5) = title := str_drop_append harg.symm
    have hret := notesView_returns h (arg.drop 5)
    rw [htitle] at hret
    have hsafe : ((str arg = text "new" → (str s.currentDir.bytes).length ≤ 62) ∧
        ∀ title, str arg = text "view " ++ title →
          (unquote title).length ≤ 58 ∧ (str s.currentDir.bytes).length ≤ 62) ↔
        (unquote title).length ≤ 58 ∧ (str s.currentDir.bytes).length ≤ 62 := by
      refine ⟨fun hs => hs.2 title harg.symm, fun hs => ⟨fun h => absurd h h1, fun t ht => ?_⟩⟩
      rw [← harg] at ht
      rw [← List.append_cancel_left ht]
      exact hs
    have hset : Settles _ fun keys => (notesView s (arg.drop 5)).map fun r =>
        (⟨s, say (text "\n") ++ r, keys⟩ : Typed Shell) :=
      settles_of_returns (hret.iff hsafe) fun r => (s, say (text "\n") ++ r)
    rwa [show (fun keys => (notesView s (arg.drop 5)).map fun r =>
        (⟨s, say (text "\n") ++ r, keys⟩ : Typed Shell)) = cmdNotes s arg from funext fun keys => by
      simp only [cmdNotes, if_neg (fun hs => h1 (hnew.mp hs)), if_neg (fun hs => h2 (hlist.mp hs)),
        if_pos (hview.mpr ⟨title, harg⟩)]
      cases notesView s (arg.drop 5) <;> rfl] at hset
  · refine ⟨fun _ => ?_, fun hn => absurd ⟨fun h => absurd h h1, fun t ht =>
      absurd ⟨t, ht.symm⟩ h3⟩ hn⟩
    unfold cmdNotes
    simp only [if_neg (fun hs => h1 (hnew.mp hs)), if_neg (fun hs => h2 (hlist.mp hs)),
      if_neg (fun hs => h3 (hview.mp hs))]
    exact ReadsKeys.answer _ _

/-! ## `cpy`, `mov`, `rename` and `goto` -/

/-- Reading the two arguments stays inside their buffers. -/
theorem twoArgs_total (arg : List UInt8) : ∃ args, twoArgs arg = some args := by
  unfold twoArgs
  dsimp only
  cases strchr (skipSpaces arg) (ch ' ') with
  | none => exact ⟨none, rfl⟩
  | some space =>
    have hcut : (if space ≥ 32 then 32 - 1 else space) < 32 := by
      split
      · decide
      · omega
    obtain ⟨s₁, src, h1, h2, _⟩ := strncpy_put_spec (Chars.uninit 32) 0 (skipSpaces arg)
      (if space ≥ 32 then 32 - 1 else space) (by omega) (Nat.zero_le _)
    obtain ⟨d₁, dst, h3, h4, _⟩ := strncpy_put_spec (Chars.uninit 32) 0
      (skipSpaces ((skipSpaces arg).drop space)) (32 - 1) (by decide) (Nat.zero_le _)
    rw [Nat.zero_add] at h2 h4
    simp only [h1, h2, h3, h4, Option.bind_eq_bind, Option.bind_some]
    exact exists_ite _ _ _

theorem transferFile_returns (h : ShellInv s) (src dst : Chars 64) (move : Bool)
    (verb : List UInt8) : ∃ r, transferFile s.table src dst move verb = some r := by
  obtain ⟨r, hr, _⟩ := transferFile_spec h.table src dst move verb
  exact ⟨r, hr⟩

theorem twoPathsFit_iff {src dst : Chars 32} (hargs : twoArgs arg = some (some (src, dst))) :
    TwoPathsFit s arg ↔ PathFits s src.bytes ∧ PathFits s dst.bytes := by
  constructor
  · exact fun hfit => hfit src dst hargs
  · rintro hfit src' dst' hargs'
    rw [hargs] at hargs'
    cases hargs'
    exact hfit

theorem transferCmd_returns (h : ShellInv s) (usage verb : List UInt8) (move : Bool) :
    Returns (TwoPathsFit s arg) (transferCmd s arg usage move verb) := by
  obtain ⟨args, hargs⟩ := twoArgs_total arg
  unfold transferCmd
  simp only [hargs, Option.bind_eq_bind, Option.bind_some]
  cases args with
  | none =>
    refine .some _ fun src dst hsome => ?_
    rw [hargs] at hsome
    cases hsome
  | some sd =>
    obtain ⟨src, dst⟩ := sd
    refine Returns.iff ?_ (twoPathsFit_iff hargs)
    exact (resolvePath_returns h).bind fun pathSrc _ => path_returns h fun pathDst =>
      transferFile_returns h pathSrc pathDst move verb

theorem joinBasename_returns (pathSrc pathDst : Chars 64) :
    Returns ((str pathDst.bytes).length ≤ 62) (joinBasename pathSrc pathDst) where
  returns hlen := by
    obtain ⟨b, hb, _⟩ := joinBasename_spec pathSrc pathDst hlen
    exact ⟨b, hb⟩
  leaves hlen := by
    unfold joinBasename
    cases ha : appendSlash pathDst with
    | none => rfl
    | some b => exact absurd (appendSlash_fits ha) hlen

/-- The move into a path that has been resolved. -/
theorem moveInto_returns (h : ShellInv s) (pathSrc pathDst : Chars 64) {notDir : Transfer} :
    Returns ((fsMap s.table).lookup (str pathDst.bytes) = some .dir →
        (str pathDst.bytes).length ≤ 62)
      (if fsIsDir s.table pathDst.bytes then
        (joinBasename pathSrc pathDst).bind fun joined =>
          transferFile s.table pathSrc joined true (text "Moved: ")
      else some notDir) := by
  by_cases hdir : fsIsDir s.table pathDst.bytes = true
  · rw [if_pos hdir]
    have hjoin : Returns ((str pathDst.bytes).length ≤ 62 ∧ True)
        ((joinBasename pathSrc pathDst).bind fun joined =>
          transferFile s.table pathSrc joined true (text "Moved: ")) := by
      refine (joinBasename_returns pathSrc pathDst).bind fun joined _ => ?_
      obtain ⟨r, hr⟩ := transferFile_returns h pathSrc joined true (text "Moved: ")
      rw [hr]
      exact .some _ trivial
    refine hjoin.iff ?_
    rw [and_true]
    rcases (fsIsDir_iff _ _).mp hdir with hroot | hlook
    · rw [hroot]
      exact iff_of_true (fun _ => by decide) (by decide)
    · exact ⟨fun hs => hs hlook, fun hs _ => hs⟩
  · rw [if_neg hdir]
    exact .some _ fun hlook => absurd ((fsIsDir_iff _ _).mpr (.inr hlook)) hdir

theorem cmdMov_returns (h : ShellInv s) : Returns (StaysInBounds s .mov arg) (cmdMov s arg) := by
  obtain ⟨args, hargs⟩ := twoArgs_total arg
  unfold cmdMov StaysInBounds
  simp only [hargs, Option.bind_eq_bind, Option.bind_some]
  cases args with
  | none =>
    refine .some _ ⟨fun src dst hsome => ?_, nofun⟩
    rw [hargs] at hsome
    cases hsome
  | some sd =>
    obtain ⟨src, dst⟩ := sd
    have hmov : Returns (PathFits s src.bytes ∧ PathFits s dst.bytes ∧
        ((fsMap s.table).lookup (s.path dst.bytes) = some .dir → (s.path dst.bytes).length ≤ 62))
        ((resolvePath s.currentDir src.bytes (Chars.uninit 64)).bind fun pathSrc =>
          (resolvePath s.currentDir dst.bytes (Chars.uninit 64)).bind fun pathDst =>
            if fsIsDir s.table pathDst.bytes then
              (joinBasename pathSrc pathDst).bind fun joined =>
                transferFile s.table pathSrc joined true (text "Moved: ")
            else some ⟨.noDirectory (str pathDst.bytes), text "Error: Destination directory '" ++
              str pathDst.bytes ++ text "' does not exist.\n", s.table⟩) := by
      refine (resolvePath_returns h).bind fun pathSrc _ => ?_
      refine (resolvePath_returns h).bind fun pathDst hdst => ?_
      have hpath : str pathDst.bytes = s.path dst.bytes := resolvePath_str hdst
      rw [← hpath]
      exact moveInto_returns h pathSrc pathDst
    refine hmov.iff ?_
    rw [twoPathsFit_iff hargs, and_assoc]
    refine and_congr_right fun _ => and_congr_right fun _ => ⟨fun hs => hs src dst rfl, ?_⟩
    rintro hs src' dst' ⟨⟩
    exact hs

theorem cmdGoto_returns (h : ShellInv s) (arg : List UInt8)
    (habs : (str s.currentDir.bytes).headD 0 = ch '/') : ∃ r, cmdGoto s arg = some r := by
  obtain ⟨b, hb, hbs⟩ := gotoDir_spec arg (Chars.uninit 64) habs h.dir
  obtain ⟨dir, hd, _⟩ := strcpy_spec s.currentDir b.bytes
    (by rw [hbs]; exact Nat.lt_succ_of_le (gotoPath_length h.dir _))
  unfold cmdGoto
  simp only [hb, hd, Option.bind_eq_bind, Option.bind_some]
  exact exists_ite _ _ _

/-! ## Every command -/

theorem run_settles (h : ShellInv s) (habs : (str s.currentDir.bytes).headD 0 = ch '/')
    (cmd : ShellCmd) (arg : List UInt8) :
    Settles (StaysInBounds s cmd arg) fun keys => ShellCall.run s ⟨cmd, arg, keys⟩ := by
  cases cmd with
  | new => exact shown_settles (cmdNew_returns h)
  | edit => exact cmdEdit_settles h
  | write => exact cmdWrite_settles h
  | see => exact shown_settles (cmdSee_returns h)
  | laf => exact ⟨fun _ => ReadsKeys.answer _ _, fun hn => absurd trivial hn⟩
  | notes => exact cmdNotes_settles h
  | fm => exact ⟨fun _ => cmdFm_reads h.table, fun hn => absurd trivial hn⟩
  | del => exact shown_settles (cmdDel_returns h)
  | cpy => exact transfer_settles (transferCmd_returns h _ _ _)
  | mov => exact transfer_settles (cmdMov_returns h)
  | rename => exact transfer_settles (transferCmd_returns h _ _ _)
  | look => exact shown_settles (cmdLook_returns h)
  | wdir => exact ⟨fun _ => ReadsKeys.answer _ _, fun hn => absurd trivial hn⟩
  | goto =>
    obtain ⟨r, hr⟩ := cmdGoto_returns h arg habs
    refine shown_settles (o := cmdGoto s arg) ?_
    rw [hr]
    exact .some _ trivial
  | mkd => exact shown_settles (cmdMkd_returns h)
  | deld => exact shown_settles (cmdDeld_returns h)

/-- **Where the file commands stay inside their arrays.**  In every reachable state, a command
whose paths fit can, whatever has been typed, be typed to its end inside its arrays, and comes back
on a terminal exactly if the cursor can be followed through what it shows; any other command leaves
an array whatever is typed. -/
theorem command_stays_iff (hs : shellMachine.Reach s) (cmd : ShellCmd) (arg : List UInt8) :
    (StaysInBounds s cmd arg →
        ∀ keys, ∃ more r, ShellCall.run s ⟨cmd, arg, keys ++ more⟩ = some r ∧
          ∀ t, terminalMachine.Reach t →
            (CallsReturn t r.out ↔ (callsCursor t.grid.pos r.out).isSome)) ∧
      (¬ StaysInBounds s cmd arg → ∀ keys, ShellCall.run s ⟨cmd, arg, keys⟩ = none) := by
  have hset := run_settles (shell_reach_inv hs) (shell_reach_absolute hs) cmd arg
  refine ⟨fun hsafe keys => ?_, hset.leaves⟩
  obtain ⟨more, r, hr⟩ := (hset.reads hsafe).total keys
  exact ⟨more, r, hr, fun t ht => callsReturn_iff (terminal_reach_inv ht)⟩

/-- In a directory of 63 characters, `edit b` overruns its path, and `edit /b` can be finished. -/
theorem command_stays_iff_longDir : ∃ s, shellMachine.Reach s ∧
    (∀ keys, ShellCall.run s ⟨.edit, text "b", keys⟩ = none) ∧
    ∀ keys, ∃ more r, ShellCall.run s ⟨.edit, text "/b", keys ++ more⟩ = some r := by
  obtain ⟨s, hs, hdir, _⟩ := dir_reach (p := longDir) (by decide) (by decide) (by decide)
  refine ⟨s, hs, (command_stays_iff hs .edit (text "b")).2 ?_, fun keys => ?_⟩
  · rintro (hnil | hslash | hlen)
    · exact absurd hnil (by decide)
    · exact absurd hslash (by decide)
    · rw [hdir] at hlen
      exact absurd hlen (by decide)
  · obtain ⟨more, r, hr, _⟩ := (command_stays_iff hs .edit (text "/b")).1 (.inr (.inl rfl)) keys
    exact ⟨more, r, hr⟩

end MiniOS
