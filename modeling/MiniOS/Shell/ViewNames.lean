import MiniOS.Shell.FileViews
import MiniOS.Shell.PathTree

/-!
# Which entry a command looks at

A command consults the entry of a path if what it shows and reads of the keys
depends on that entry of the table, and on nothing else but the number of
entries (`FileCmd.Consults`).  `see`, `write`, `edit`, `look`, `del`, `top` and
`btm` consult the path that `resolve_path` makes of their argument, `hunt` and
`cnt` the argument itself; so all nine agree exactly on the absolute arguments
(`views_agree_iff`).
-/

namespace MiniOS

open Lib

/-! ## Tables that agree on an entry -/

/-- The same entry under `p`, and as many entries. -/
structure SameEntry (p : List UInt8) (t t' : FsTable) : Prop where
  lookup : (fsMap t).lookup p = (fsMap t').lookup p
  card : (fsMap t).keys.card = (fsMap t').keys.card

variable {t t' : FsTable} {name : List UInt8}

theorem fsFind_isSome_same (hl : (fsMap t).lookup (str name) = (fsMap t').lookup (str name)) :
    (fsFind t name).isSome ↔ (fsFind t' name).isSome := by
  rw [fsFind_isSome_iff, fsFind_isSome_iff, ← Finmap.lookup_isSome, ← Finmap.lookup_isSome, hl]

/-- `fs_read` answers by the entry. -/
theorem fsRead_same (h : TableInv t) (h' : TableInv t')
    (hl : (fsMap t).lookup (str name) = (fsMap t').lookup (str name)) {n : Nat} (buf : Chars n)
    {bufSize : Nat} (h1 : 1 ≤ bufSize) (h32 : bufSize < 2 ^ 32) (hn : bufSize ≤ n) :
    fsRead t name buf bufSize = fsRead t' name buf bufSize := by
  obtain ⟨ret, b, hr, hcase⟩ := fsRead_spec h name buf bufSize h1 h32 hn
  obtain ⟨ret', b', hr', hcase'⟩ := fsRead_spec h' name buf bufSize h1 h32 hn
  rw [hr, hr']
  rw [← hl] at hcase'
  rcases hcase with ⟨bytes, hb, rfl, hbuf⟩ | ⟨hno, rfl, rfl⟩
  · rcases hcase' with ⟨bytes', hb', rfl, hbuf'⟩ | ⟨hno', _, _⟩
    · rw [hb] at hb'
      cases hb'
      rw [Chars.ext (hbuf.trans hbuf'.symm)]
    · exact absurd hb (hno' bytes)
  · rcases hcase' with ⟨bytes', hb', _⟩ | ⟨_, rfl, rfl⟩
    · exact absurd hb' (hno bytes')
    · rfl

/-- What `fs_write` prints. -/
theorem fsWrite_printed {data : List UInt8} {len : Nat} {r : FsResult}
    (hr : fsWrite t name data len = some r) :
    r.printed = match (fsMap t).lookup (str name) with
      | none => text "Error: file '" ++ str name ++ text "' not found.\n"
      | some .dir => text "Error: '" ++ str name ++ text "' is a directory.\n"
      | some (.file _) => [] := by
  unfold fsWrite at hr
  cases hf : fsFind t name with
  | none =>
    simp only [hf] at hr
    cases hr
    rw [fsFind_none hf]
  | some i =>
    simp only [hf] at hr
    rw [(fsFind_some hf).2.2]
    split at hr
    · rename_i hd
      cases hr
      rw [if_pos hd]
    · rename_i hd
      simp only [Option.bind_eq_bind, Option.bind_eq_some_iff] at hr
      obtain ⟨d, _, hr⟩ := hr
      cases hr
      rw [if_neg hd]

theorem fsWrite_same (h : TableInv t) (h' : TableInv t')
    (hl : (fsMap t).lookup (str name) = (fsMap t').lookup (str name)) {data : List UInt8}
    {len : Nat} (hdata : min len fsMaxFilesize ≤ data.length) :
    ∃ r r', fsWrite t name data len = some r ∧ fsWrite t' name data len = some r' ∧
      r.ret = r'.ret ∧ r.printed = r'.printed := by
  obtain ⟨r, hr, _, hcase⟩ := fsWrite_spec h name data len hdata
  obtain ⟨r', hr', _, hcase'⟩ := fsWrite_spec h' name data len hdata
  refine ⟨r, r', hr, hr', ?_, ?_⟩
  · rw [← hl] at hcase'
    rcases hcase with ⟨old, ho, hret, _⟩ | ⟨hno, hret, _⟩
    · rcases hcase' with ⟨_, _, hret', _⟩ | ⟨hno', _⟩
      · rw [hret, hret']
      · exact absurd ho (hno' old)
    · rcases hcase' with ⟨old', ho', _⟩ | ⟨_, hret', _⟩
      · exact absurd ho' (hno old')
      · rw [hret, hret']
  · rw [fsWrite_printed hr, fsWrite_printed hr', hl]

/-- What creating prints depends on the entry and on whether a slot is free. -/
theorem createEntry_printed (hfind : (fsFind t name).isSome ↔ (fsFind t' name).isSome)
    (hslot : (fsFreeSlot t).isSome ↔ (fsFreeSlot t').isSome) {isDir : Bool}
    {msg : CreateError → List UInt8} {r r' : FsResult}
    (hr : createEntry t name isDir msg = some r) (hr' : createEntry t' name isDir msg = some r') :
    r.printed = r'.printed := by
  unfold createEntry at hr hr'
  by_cases h0 : strlen name = 0
  · rw [if_pos h0] at hr hr'
    cases hr
    cases hr'
    rfl
  rw [if_neg h0] at hr hr'
  by_cases h1 : strlen name ≥ fsMaxFilename
  · rw [if_pos h1] at hr hr'
    cases hr
    cases hr'
    rfl
  rw [if_neg h1] at hr hr'
  by_cases h2 : (fsFind t name).isSome
  · rw [if_pos h2] at hr
    rw [if_pos (hfind.mp h2)] at hr'
    cases hr
    cases hr'
    rfl
  rw [if_neg h2] at hr
  rw [if_neg (fun hf => h2 (hfind.mpr hf))] at hr'
  cases hslot1 : fsFreeSlot t with
  | none =>
    cases hslot2 : fsFreeSlot t' with
    | none =>
      simp only [hslot1] at hr
      simp only [hslot2] at hr'
      cases hr
      cases hr'
      rfl
    | some j =>
      rw [hslot1, hslot2] at hslot
      exact absurd (hslot.mpr rfl) (by decide)
  | some i =>
    cases hslot2 : fsFreeSlot t' with
    | none =>
      rw [hslot1, hslot2] at hslot
      exact absurd (hslot.mp rfl) (by decide)
    | some j =>
      simp only [hslot1, Option.bind_eq_bind, Option.bind_eq_some_iff] at hr
      simp only [hslot2, Option.bind_eq_bind, Option.bind_eq_some_iff] at hr'
      obtain ⟨_, _, hr⟩ := hr
      obtain ⟨_, _, hr'⟩ := hr'
      cases hr
      cases hr'
      rfl

/-- A create answers by the entry and the number of entries, and leaves the same entry. -/
theorem createEntry_same (h : TableInv t) (h' : TableInv t') (hs : SameEntry (str name) t t')
    (isDir : Bool) (msg : CreateError → List UInt8) :
    ∃ r r', createEntry t name isDir msg = some r ∧ createEntry t' name isDir msg = some r' ∧
      r.ret = r'.ret ∧ r.printed = r'.printed ∧ TableInv r.table ∧ TableInv r'.table ∧
      (fsMap r.table).lookup (str name) = (fsMap r'.table).lookup (str name) := by
  obtain ⟨r, hr, hinv, hcase⟩ := createEntry_spec h name isDir msg
  obtain ⟨r', hr', hinv', hcase'⟩ := createEntry_spec h' name isDir msg
  have hfind := fsFind_isSome_same hs.lookup
  have hslot : (fsFreeSlot t).isSome ↔ (fsFreeSlot t').isSome := by
    rw [fsFreeSlot_isSome_iff h, fsFreeSlot_isSome_iff h', hs.card]
  have hcr : Creatable (fsMap t) (str name) ↔ Creatable (fsMap t') (str name) := by
    unfold Creatable
    rw [← fsFind_isSome_iff, ← fsFind_isSome_iff, hfind, hs.card]
  refine ⟨r, r', hr, hr', ?_, ?_, hinv, hinv', ?_⟩
  · rcases hcase with ⟨hc, hret, _⟩ | ⟨hc, hret, _⟩
    · rcases hcase' with ⟨_, hret', _⟩ | ⟨hc', _⟩
      · rw [hret, hret']
      · exact absurd (hcr.mp hc) hc'
    · rcases hcase' with ⟨hc', _⟩ | ⟨_, hret', _⟩
      · exact absurd (hcr.mpr hc') hc
      · rw [hret, hret']
  · exact createEntry_printed hfind hslot hr hr'
  · rcases hcase with ⟨hc, _, hmap⟩ | ⟨hc, _, htab⟩
    · rcases hcase' with ⟨_, _, hmap'⟩ | ⟨hc', _⟩
      · rw [hmap, hmap', Finmap.lookup_insert, Finmap.lookup_insert]
      · exact absurd (hcr.mp hc) hc'
    · rcases hcase' with ⟨hc', _⟩ | ⟨_, _, htab'⟩
      · exact absurd (hcr.mpr hc') hc
      · rw [htab, htab', hs.lookup]

theorem fsCreate_same (h : TableInv t) (h' : TableInv t') (hs : SameEntry (str name) t t') :
    ∃ r r', fsCreate t name = some r ∧ fsCreate t' name = some r' ∧ r.ret = r'.ret ∧
      r.printed = r'.printed ∧ TableInv r.table ∧ TableInv r'.table ∧
      (fsMap r.table).lookup (str name) = (fsMap r'.table).lookup (str name) :=
  createEntry_same h h' hs false _

/-! ## MiniEdit -/

/-- What a session shows and the keys it leaves. -/
def Typed.seen {α : Type} (r : Typed α) : List TerminalCall × List UInt8 := (r.out, r.keys)

/-- What is shown of a save depends on the entry. -/
theorem saveAndShowResult_same (h : TableInv t) (h' : TableInv t')
    (hl : (fsMap t).lookup (str name) = (fsMap t').lookup (str name)) {e : Editor}
    {txt : List UInt8} (he : e.Holds txt) :
    ∃ t₁ t₂ shown, saveAndShowResult t e name = some (t₁, shown) ∧
      saveAndShowResult t' e name = some (t₂, shown) := by
  have hlen := he.len
  have hfits := he.fits
  obtain ⟨r, r', hr, hr', hret, hprinted⟩ := fsWrite_same h h' hl
    (show min e.len fsMaxFilesize ≤ e.buffer.bytes.length by rw [e.buffer.length_eq]; omega)
  unfold saveAndShowResult
  simp only [hr, hr', Option.bind_eq_bind, Option.bind_some, hret, hprinted]
  exact ⟨_, _, _, rfl, rfl⟩

/-- Two loops over the same keys differ in nothing but the tables. -/
theorem runEditorInputLoop_same (h : TableInv t) (h' : TableInv t')
    (hl : (fsMap t).lookup (str name) = (fsMap t').lookup (str name)) {e : Editor}
    {txt : List UInt8} (he : e.Holds txt) (out : List TerminalCall) (keys : List UInt8) :
    (runEditorInputLoop t e name out keys).map Typed.seen =
      (runEditorInputLoop t' e name out keys).map Typed.seen := by
  induction keys generalizing e txt out with
  | nil => rfl
  | cons key keys ih =>
    simp only [runEditorInputLoop]
    by_cases hk : key = keyEsc
    · obtain ⟨t₁, t₂, shown, h1, h2⟩ := saveAndShowResult_same h h' hl he
      simp only [if_pos hk, h1, h2]
      rfl
    · obtain ⟨e', echo, hkey, he', _⟩ := editorKey_spec he key
      simp only [if_neg hk, hkey]
      exact ih he' (out ++ echo)

/-- Opening the file answers, prints and loads the same, and leaves the same entry. -/
theorem loadFileOrCreate_same (h : TableInv t) (h' : TableInv t') (hs : SameEntry (str name) t t')
    (e : Editor) :
    ∃ ret e' printed t₁ t₂, loadFileOrCreate t e name = some (ret, e', printed, t₁) ∧
      loadFileOrCreate t' e name = some (ret, e', printed, t₂) ∧ TableInv t₁ ∧ TableInv t₂ ∧
      (fsMap t₁).lookup (str name) = (fsMap t₂).lookup (str name) := by
  obtain ⟨n, buf, hread, hcase⟩ := fsRead_spec h name e.buffer (fsMaxFilesize + 1) (by decide)
    (by decide) (Nat.le_refl _)
  have hread' := hread
  rw [fsRead_same h h' hs.lookup e.buffer (by decide) (by decide) (Nat.le_refl _)] at hread'
  unfold loadFileOrCreate
  simp only [hread, hread', Option.bind_eq_bind, Option.bind_some]
  rcases hcase with ⟨old, _, hn, _⟩ | ⟨_, hn, rfl⟩
  · have hlen : n.toNat < fsMaxFilesize + 1 := by
      rw [hn, Int.toNat_natCast, List.length_take]
      omega
    obtain ⟨b, hb, _⟩ := Chars.put_eq (b := buf) hlen 0
    simp only [if_pos (show n ≥ 0 by omega), hb, Option.bind_some]
    exact ⟨_, _, _, _, _, rfl, rfl, h, h', hs.lookup⟩
  · obtain ⟨r, r', hr, hr', hret, hprinted, hinv, hinv', hlook⟩ := fsCreate_same h h' hs
    obtain ⟨b, hb, _⟩ := Chars.put_eq (b := e.buffer) (i := 0) (by decide) 0
    simp only [if_neg (show ¬ n ≥ 0 by omega), hr, hr', Option.bind_some, ← hret, ← hprinted, hb]
    by_cases h0 : r.ret ≠ 0
    · simp only [if_pos h0]
      exact ⟨_, _, _, _, _, rfl, rfl, hinv, hinv', hlook⟩
    · simp only [if_neg h0]
      exact ⟨_, _, _, _, _, rfl, rfl, hinv, hinv', hlook⟩

theorem editorOpen_same (h : TableInv t) (h' : TableInv t') (hs : SameEntry (str name) t t')
    (e : Editor) (keys : List UInt8) :
    (editorOpen t e name keys).map Typed.seen = (editorOpen t' e name keys).map Typed.seen := by
  unfold editorOpen
  by_cases h0 : name.headD 0 = 0
  · rw [if_pos h0, if_pos h0]
    rfl
  obtain ⟨ret, e', printed, t₁, t₂, h1, h2, hinv1, hinv2, hlook⟩ := loadFileOrCreate_same h h' hs e
  rw [if_neg h0, if_neg h0]
  simp only [h1, h2, Option.bind_eq_bind, Option.bind_some]
  by_cases hret : ret ≠ 0
  · simp only [if_pos hret]
    rfl
  · obtain ⟨ret', e'', printed', t₃, h3, _, hcase⟩ := loadFileOrCreate_spec h e name
    rw [h1] at h3
    cases h3
    simp only [if_neg hret]
    rcases hcase with ⟨old, _, _, hholds, _⟩ | ⟨_, hbad, _⟩
    · exact runEditorInputLoop_same hinv1 hinv2 hlook hholds _ keys
    · exact absurd (show ret ≠ 0 by omega) hret

/-! ## The nine commands -/

/-- The commands that take a file, `hunt` with the word it looks for. -/
inductive FileCmd where
  | see | write | edit | look | del | top | btm | cnt
  | hunt (word : List UInt8)

/-- `hunt` has a word. -/
def FileCmd.Valid : FileCmd → Prop
  | .hunt word => str (skipSpaces word) ≠ []
  | _ => True

/-- What the command shows for the file `a`, and the keys it leaves. -/
def FileCmd.shows (c : FileCmd) (s : Shell) (a keys : List UInt8) :
    Option (List TerminalCall × List UInt8) :=
  match c with
  | .see => (cmdSee s a).map fun r => (r.2, keys)
  | .write => (cmdWrite s a keys).map Typed.seen
  | .edit => (cmdEdit s a keys).map Typed.seen
  | .look => (cmdLook s a).map fun r => (r.2, keys)
  | .del => (cmdDel s a).map fun r => (r.2, keys)
  | .top => (cmdTop s a).map fun r => (r.2, keys)
  | .btm => (cmdBtm s a).map fun r => (r.2, keys)
  | .cnt => (cmdCnt s a).map fun r => (r.2, keys)
  | .hunt word => (cmdHunt s (a ++ ch ' ' :: word)).map fun r => (r.2, keys)

/-- The shell over another table. -/
def Shell.over (s : Shell) (t : FsTable) : Shell := { s with table := t }

/-- The command looks at the entry of `p` and at no other. -/
structure FileCmd.Consults (c : FileCmd) (s : Shell) (a p : List UInt8) : Prop where
  only : ∀ t t', TableInv t → TableInv t' → SameEntry p t t' →
    ∀ keys, c.shows (s.over t) a keys = c.shows (s.over t') a keys
  really : ∃ t t', TableInv t ∧ TableInv t' ∧
    (fsMap t).keys.card = (fsMap t').keys.card ∧
    ∃ keys, c.shows (s.over t) a keys ≠ c.shows (s.over t') a keys

/-- The command finds a file: it does not answer that there is none. -/
def FileCmd.Finds (c : FileCmd) (s : Shell) (a : List UInt8) : Prop :=
  ∃ out, c.shows s a [] = some (out, []) ∧ ∀ name, out ≠ notFound name

/-! ## One entry -/

/-- A table with a single entry. -/
theorem single_entry (isDir : Bool) (name : List UInt8) (hne : str name ≠ [])
    (hlen : (str name).length ≤ 63) :
    ∃ t, TableInv t ∧ fsMap t = Finmap.singleton (str name) (if isDir then .dir else .file []) := by
  obtain ⟨r, hr, hinv, hcase⟩ := createEntry_spec zeroTable_inv name isDir fun _ => []
  rw [zeroTable_map] at hcase
  rcases hcase with ⟨_, _, hmap⟩ | ⟨hno, _⟩
  · exact ⟨r.table, hinv, hmap⟩
  · refine absurd ⟨List.length_pos_iff.mpr hne, ?_, Finmap.notMem_empty, ?_⟩ hno
    · show _ < 64
      omega
    · decide

/-- What a command does that reads a file and goes on without the table. -/
structure FileCmd.Reads (c : FileCmd) (s : Shell) (a name : List UInt8) (miss : List TerminalCall)
    (found : Int → Chars (fsMaxFilesize + 1) → Option (List TerminalCall)) : Prop where
  shows : ∀ t keys, c.shows (s.over t) a keys =
    (fsRead t name (Chars.uninit (fsMaxFilesize + 1)) (fsMaxFilesize + 1)).bind fun r =>
      (if r.1 < 0 then some miss else found r.1 r.2).map fun out => (out, keys)
  found : ∀ n buf, ∃ out, found n buf = some out ∧ out ≠ miss

namespace FileCmd.Reads

variable {c : FileCmd} {s : Shell} {a : List UInt8} {miss : List TerminalCall}
variable {found : Int → Chars (fsMaxFilesize + 1) → Option (List TerminalCall)}

/-- What is shown tells whether there is a file. -/
theorem cases (hr : c.Reads s a name miss found) (h : TableInv t) (keys : List UInt8) :
    ((∃ bytes, (fsMap t).lookup (str name) = some (.file bytes)) ∧
        ∃ n buf out, found n buf = some out ∧ c.shows (s.over t) a keys = some (out, keys)) ∨
      ((∀ bytes, (fsMap t).lookup (str name) ≠ some (.file bytes)) ∧
        c.shows (s.over t) a keys = some (miss, keys)) := by
  obtain ⟨n, buf, hread, hcase⟩ := fsRead_spec h name (Chars.uninit (fsMaxFilesize + 1))
    (fsMaxFilesize + 1) (by decide) (by decide) (Nat.le_refl _)
  rw [hr.shows, hread, Option.bind_some]
  rcases hcase with ⟨bytes, hb, hn, _⟩ | ⟨hno, hn, _⟩
  · obtain ⟨out, hout, _⟩ := hr.found n buf
    refine .inl ⟨⟨bytes, hb⟩, n, buf, out, hout, ?_⟩
    rw [if_neg (by omega), hout]
    rfl
  · refine .inr ⟨hno, ?_⟩
    rw [if_pos (by omega)]
    rfl

theorem only (hr : c.Reads s a name miss found) (h : TableInv t) (h' : TableInv t')
    (hs : SameEntry (str name) t t') (keys : List UInt8) :
    c.shows (s.over t) a keys = c.shows (s.over t') a keys := by
  rw [hr.shows, hr.shows, fsRead_same h h' hs.lookup _ (by decide) (by decide) (Nat.le_refl _)]

/-- A file and a directory are told apart. -/
theorem ne (hr : c.Reads s a name miss found) (hne : str name ≠ []) (hlen : (str name).length ≤ 63)
    (keys : List UInt8) :
    ∃ t t', TableInv t ∧ TableInv t' ∧ fsMap t = Finmap.singleton (str name) (.file []) ∧
      fsMap t' = Finmap.singleton (str name) .dir ∧
      c.shows (s.over t) a keys ≠ c.shows (s.over t') a keys := by
  obtain ⟨t, hinv, hmap⟩ := single_entry false _ hne hlen
  obtain ⟨t', hinv', hmap'⟩ := single_entry true _ hne hlen
  refine ⟨t, t', hinv, hinv', hmap, hmap', ?_⟩
  intro heq
  rcases hr.cases hinv keys with ⟨_, n, buf, out, hout, hshow⟩ | ⟨hno, _⟩
  · rcases hr.cases hinv' keys with ⟨⟨bytes, hb⟩, _⟩ | ⟨_, hmiss⟩
    · rw [hmap', if_pos rfl, Finmap.lookup_singleton_eq] at hb
      cases hb
    · rw [hshow, hmiss] at heq
      obtain ⟨out', hout', hne'⟩ := hr.found n buf
      rw [hout] at hout'
      cases hout'
      cases heq
      exact hne' rfl
  · refine hno [] ?_
    rw [hmap]
    exact Finmap.lookup_singleton_eq

theorem consults (hr : c.Reads s a name miss found) (hne : str name ≠ [])
    (hlen : (str name).length ≤ 63) : c.Consults s a (str name) := by
  obtain ⟨t, t', hinv, hinv', hmap, hmap', hdiff⟩ := hr.ne hne hlen []
  refine ⟨fun t t' h h' hs keys => hr.only h h' hs keys, t, t', hinv, hinv', ?_, [], hdiff⟩
  rw [hmap, hmap', Finmap.keys_singleton, Finmap.keys_singleton]

/-- A command that answers `notFound` finds a file exactly where there is one. -/
theorem finds_iff (hr : c.Reads s a name (notFound name) found) (h : TableInv s.table)
    (hlines : ∀ n buf out, found n buf = some out → ∀ name', out ≠ notFound name') :
    c.Finds s a ↔ ∃ bytes, (fsMap s.table).lookup (str name) = some (.file bytes) := by
  have hover : s.over s.table = s := rfl
  rcases hr.cases h [] with ⟨hfile, n, buf, out, hout, hshow⟩ | ⟨hno, hshow⟩
  · rw [hover] at hshow
    exact iff_of_true ⟨out, hshow, hlines n buf out hout⟩ hfile
  · rw [hover] at hshow
    refine iff_of_false ?_ (fun ⟨bytes, hb⟩ => hno bytes hb)
    rintro ⟨out, hout, hne⟩
    rw [hshow] at hout
    cases hout
    exact hne name rfl

end FileCmd.Reads

/-! ## The commands that read -/

section
variable {s : Shell} {a word : List UInt8} {path : Chars 64} {file : Chars 32} {count : Int}

theorem see_reads (h0 : ¬ a.headD 0 = 0)
    (hp : resolvePath s.currentDir a (Chars.uninit 64) = some path) :
    FileCmd.see.Reads s a path.bytes (notFound path.bytes) fun _ buf =>
      some [.putchar (ch '\n'), .writestring buf.bytes, .putchar (ch '\n')] := by
  refine ⟨?_, fun n buf => ⟨_, rfl, fun h => by cases h⟩⟩
  intro t keys
  show (cmdSee (s.over t) a).map _ = _
  unfold cmdSee
  have hp' : resolvePath (s.over t).currentDir a (Chars.uninit 64) = some path := hp
  rw [if_neg h0]
  simp only [hp', Option.bind_eq_bind, Option.bind_some]
  show Option.map _ ((fsRead t _ _ _).bind _) = _
  cases fsRead t path.bytes (Chars.uninit (fsMaxFilesize + 1)) (fsMaxFilesize + 1) with
  | none => rfl
  | some r =>
    simp only [Option.bind_some]
    split
    · rfl
    · rfl

theorem look_reads (h0 : ¬ a.headD 0 = 0)
    (hp : resolvePath s.currentDir a (Chars.uninit 64) = some path) :
    FileCmd.look.Reads s a path.bytes (say (text "Not found: " ++ str path.bytes ++ text "\n"))
      fun _ _ => some (say (text "Found: " ++ str path.bytes ++ text "\n")) := by
  constructor
  · intro t keys
    show (cmdLook (s.over t) a).map _ = _
    unfold cmdLook
    have hp' : resolvePath (s.over t).currentDir a (Chars.uninit 64) = some path := hp
    rw [if_neg h0]
    simp only [hp', Option.bind_eq_bind, Option.bind_some]
    show Option.map _ ((fsRead t _ _ _).bind _) = _
    cases fsRead t path.bytes (Chars.uninit (fsMaxFilesize + 1)) (fsMaxFilesize + 1) with
    | none => rfl
    | some r =>
      simp only [Option.bind_some]
      by_cases hn : r.1 ≥ 0
      · rw [if_pos hn, if_neg (by omega)]
        rfl
      · rw [if_neg hn, if_pos (by omega)]
        rfl
  · intro n buf
    refine ⟨_, rfl, ?_⟩
    intro h
    injection h with h
    injection h with h
    injection h with h
    exact absurd h (by decide)

/-- `top` and `btm`. -/
theorem viewCmd_reads {c : FileCmd} {usage : List UInt8}
    {view : Int → Chars (fsMaxFilesize + 1) → Option (List TerminalCall)}
    (hc : ∀ (s : Shell) (a keys : List UInt8), c.shows s a keys =
      (viewCmd s a usage view).map fun r => (r.2, keys))
    (hlines : ∀ count buf, ∃ out, view count buf = some out ∧ Lines out)
    (hf : fileAndCount a = some (file, count)) (h0 : ¬ file.get 0 = 0)
    (hp : resolvePath s.currentDir file.bytes (Chars.uninit 64) = some path) :
    c.Reads s a path.bytes (notFound path.bytes) fun _ buf => view count buf := by
  constructor
  · intro t keys
    rw [hc]
    unfold viewCmd
    have hp' : resolvePath (s.over t).currentDir file.bytes (Chars.uninit 64) = some path := hp
    simp only [hf, Option.bind_eq_bind, Option.bind_some, if_neg h0, hp']
    show Option.map _ ((fsRead t _ _ _).bind _) = _
    cases fsRead t path.bytes (Chars.uninit (fsMaxFilesize + 1)) (fsMaxFilesize + 1) with
    | none => rfl
    | some r =>
      simp only [Option.bind_some]
      split
      · rfl
      · cases view count r.2 with
        | none => rfl
        | some out => rfl
  · intro n buf
    obtain ⟨out, hout, hl⟩ := hlines count buf
    exact ⟨out, hout, hl.ne_notFound _⟩

/-- What `cnt` shows of a file of `n` bytes. -/
def cntShown (n : Int) (buf : Chars (fsMaxFilesize + 1)) : List TerminalCall :=
  let (lines, words, _) := (buf.bytes.take n.toNat).foldl cntByte (0, 0, false)
  let lines := if n > 0 ∧ buf.get (n.toNat - 1) ≠ ch '\n' then lines + 1 else lines
  say (text "Lines : " ++ decimal lines ++ text "\nWords : " ++ decimal words ++
    text "\nBytes : " ++ decimal n.toNat ++ text "\n")

theorem cntShown_lines (n : Int) (buf : Chars (fsMaxFilesize + 1)) : Lines (cntShown n buf) :=
  lines_say _

/-- `cnt` reads its argument. -/
theorem cnt_reads (h0 : ¬ a.headD 0 = 0) :
    FileCmd.cnt.Reads s a a (notFound a) fun n buf => some (cntShown n buf) := by
  refine ⟨?_, fun n buf => ⟨_, rfl, (cntShown_lines n buf).ne_notFound _⟩⟩
  intro t keys
  show (cmdCnt (s.over t) a).map _ = _
  unfold cmdCnt
  rw [if_neg h0]
  show Option.map _ ((fsRead t _ _ _).bind _) = _
  cases fsRead t a (Chars.uninit (fsMaxFilesize + 1)) (fsMaxFilesize + 1) with
  | none => rfl
  | some r =>
    simp only [Option.bind_some]
    split
    · rfl
    · rfl

/-- What `hunt` shows of a file. -/
def huntView (word : List UInt8) (buf : Chars (fsMaxFilesize + 1)) : Option (List TerminalCall) := do
  let w ← lineLoop (fun _ => true) (huntShown word) buf
  some (w.out ++ huntShown word w.line (w.buf.bytes.drop w.start))

theorem huntView_lines (word : List UInt8) (buf : Chars (fsMaxFilesize + 1)) :
    ∃ out, huntView word buf = some out ∧ Lines out := by
  obtain ⟨w, hw, hout⟩ := lineLoop_spec (fun _ => true) (huntShown_lines word) buf
  unfold huntView
  rw [hw]
  exact ⟨_, rfl, hout.append (huntShown_lines _ _ _)⟩

/-- `hunt` reads the first of its arguments. -/
theorem hunt_reads {dst : Chars 32} (hargs : twoArgs (a ++ ch ' ' :: word) = some (some (file, dst))) :
    (FileCmd.hunt word).Reads s a file.bytes (notFound file.bytes) fun _ buf =>
      huntView dst.bytes buf := by
  constructor
  · intro t keys
    show (cmdHunt (s.over t) _).map _ = _
    unfold cmdHunt
    simp only [hargs, Option.bind_eq_bind, Option.bind_some]
    show Option.map _ ((fsRead t _ _ _).bind _) = _
    cases fsRead t file.bytes (Chars.uninit (fsMaxFilesize + 1)) (fsMaxFilesize + 1) with
    | none => rfl
    | some r =>
      simp only [Option.bind_some, huntView]
      split
      · rfl
      · cases lineLoop (fun _ => true) (huntShown dst.bytes) r.2 with
        | none => rfl
        | some w => rfl
  · intro n buf
    obtain ⟨out, hout, hl⟩ := huntView_lines dst.bytes buf
    exact ⟨out, hout, hl.ne_notFound _⟩

end

/-! ## The commands that change a file -/

section
variable {s : Shell} {a : List UInt8} {path : Chars 64}

/-- A file and a directory under one name. -/
theorem file_and_dir {name : List UInt8} (hne : str name ≠ []) (hlen : (str name).length ≤ 63) :
    ∃ t t', TableInv t ∧ TableInv t' ∧ (fsMap t).keys.card = (fsMap t').keys.card ∧
      (fsMap t).lookup (str name) = some (.file []) ∧ (fsMap t').lookup (str name) = some .dir := by
  obtain ⟨t, hinv, hmap⟩ := single_entry false _ hne hlen
  obtain ⟨t', hinv', hmap'⟩ := single_entry true _ hne hlen
  refine ⟨t, t', hinv, hinv', ?_, ?_, ?_⟩
  · rw [hmap, hmap', Finmap.keys_singleton, Finmap.keys_singleton]
  · rw [hmap]
    exact Finmap.lookup_singleton_eq
  · rw [hmap']
    exact Finmap.lookup_singleton_eq

/-- What `write` shows once its line is read and stored. -/
theorem write_shows (h0 : ¬ a.headD 0 = 0)
    (hp : resolvePath s.currentDir a (Chars.uninit 64) = some path) {t : FsTable}
    {keys : List UInt8} {line : Typed (Nat × Chars fsMaxFilesize)} {r : FsResult}
    (hline : keyboardReadline s.textBuf fsMaxFilesize keys = some line)
    (hr : fsWrite t path.bytes line.val.2.bytes (strlen line.val.2.bytes) = some r) :
    FileCmd.write.shows (s.over t) a keys = some (say (text "\nEnter text: ") ++ line.out ++
      say r.printed ++ (if r.ret ≥ 0 then say (text "Written to " ++ str path.bytes ++
        text " (" ++ decimal r.ret.toNat ++ text " bytes)\n") else []), line.keys) := by
  show (cmdWrite (s.over t) a keys).map _ = _
  unfold cmdWrite
  have hp' : resolvePath (s.over t).currentDir a (Chars.uninit 64) = some path := hp
  have hline' : keyboardReadline (s.over t).textBuf fsMaxFilesize keys = some line := hline
  have hr' : fsWrite (s.over t).table path.bytes line.val.2.bytes (strlen line.val.2.bytes) =
      some r := hr
  rw [if_neg h0]
  simp only [hp', hline', hr', Option.bind_eq_bind, Option.bind_some]
  rfl

theorem write_consults (h0 : ¬ a.headD 0 = 0)
    (hp : resolvePath s.currentDir a (Chars.uninit 64) = some path) (hne : str path.bytes ≠ [])
    (hlen : (str path.bytes).length ≤ 63) : FileCmd.write.Consults s a (str path.bytes) := by
  have hroom : ∀ buf : Chars fsMaxFilesize, min (strlen buf.bytes) fsMaxFilesize ≤
      buf.bytes.length := by
    intro buf
    rw [buf.length_eq]
    exact Nat.min_le_right _ _
  constructor
  · intro t t' h h' hs keys
    cases hline : keyboardReadline s.textBuf fsMaxFilesize keys with
    | none =>
      have hnone : ∀ t, FileCmd.write.shows (s.over t) a keys = none := by
        intro t
        show (cmdWrite (s.over t) a keys).map _ = _
        unfold cmdWrite
        have hp' : resolvePath (s.over t).currentDir a (Chars.uninit 64) = some path := hp
        have hline' : keyboardReadline (s.over t).textBuf fsMaxFilesize keys = none := hline
        rw [if_neg h0]
        simp only [hp', hline', Option.bind_eq_bind, Option.bind_some]
        rfl
      rw [hnone, hnone]
    | some line =>
      obtain ⟨r, r', hr, hr', hret, hprinted⟩ := fsWrite_same h h' hs.lookup
        (hroom line.val.2)
      rw [write_shows h0 hp hline hr, write_shows h0 hp hline hr', hret, hprinted]
  · obtain ⟨t, t', hinv, hinv', hcard, hfile, hdir⟩ := file_and_dir hne hlen
    obtain ⟨line, hline, _, _⟩ := keyboardReadline_plain (by decide) s.textBuf []
      (fun c hc => by cases hc) (by decide) []
    obtain ⟨r, hr, _, hcase⟩ := fsWrite_spec hinv path.bytes line.val.2.bytes
      (strlen line.val.2.bytes) (hroom line.val.2)
    obtain ⟨r', hr', _, hcase'⟩ := fsWrite_spec hinv' path.bytes line.val.2.bytes
      (strlen line.val.2.bytes) (hroom line.val.2)
    have hret : r.ret ≥ 0 := by
      rcases hcase with ⟨_, _, hret, _⟩ | ⟨hno, _⟩
      · omega
      · exact absurd hfile (hno [])
    have hret' : ¬ r'.ret ≥ 0 := by
      rcases hcase' with ⟨_, hf, _⟩ | ⟨_, hret, _⟩
      · rw [hdir] at hf
        cases hf
      · omega
    refine ⟨t, t', hinv, hinv', hcard, [] ++ [ch '\r'], ?_⟩
    rw [write_shows h0 hp hline hr, write_shows h0 hp hline hr', if_pos hret, if_neg hret']
    intro heq
    have hlens := congrArg (fun r => (r.map fun x => x.1.length)) heq
    simp [say] at hlens

theorem edit_consults (h0 : ¬ a.headD 0 = 0)
    (hp : resolvePath s.currentDir a (Chars.uninit 64) = some path) (hne : str path.bytes ≠ [])
    (hlen : (str path.bytes).length ≤ 63) : FileCmd.edit.Consults s a (str path.bytes) := by
  have hrun : ∀ t keys, FileCmd.edit.shows (s.over t) a keys =
      (editorOpen t s.editor path.bytes keys).map Typed.seen := by
    intro t keys
    show (cmdEdit (s.over t) a keys).map _ = _
    unfold cmdEdit
    have hp' : resolvePath (s.over t).currentDir a (Chars.uninit 64) = some path := hp
    rw [if_neg h0]
    simp only [hp', Option.bind_eq_bind, Option.bind_some]
    show Option.map _ ((editorOpen t s.editor path.bytes keys).bind _) = _
    cases editorOpen t s.editor path.bytes keys with
    | none => rfl
    | some r => rfl
  constructor
  · intro t t' h h' hs keys
    rw [hrun, hrun, editorOpen_same h h' hs]
  · -- ESC saves the file, and is left unread where a directory cannot be opened
    obtain ⟨t, t', hinv, hinv', hcard, hfile, hdir⟩ := file_and_dir hne hlen
    obtain ⟨r, hr, _, hcase⟩ := editorOpen_spec hinv s.editor hne (List.not_mem_nil (a := keyEsc)) []
    obtain ⟨r', hr', _, hcase'⟩ := editorOpen_spec hinv' s.editor hne
      (List.not_mem_nil (a := keyEsc)) []
    refine ⟨t, t', hinv, hinv', hcard, [] ++ keyEsc :: [], ?_⟩
    rw [hrun, hrun, hr, hr']
    intro heq
    have hkeys : r.keys = r'.keys := by
      injection heq with heq
      exact congrArg Prod.snd heq
    rcases hcase with ⟨_, _, hk, _⟩ | ⟨hno, _⟩
    · rcases hcase' with ⟨old, hopen, _⟩ | ⟨_, hk', _⟩
      · rcases hopen with hf | ⟨hc, _⟩
        · rw [hdir] at hf
          cases hf
        · exact hc.2.2.1 (Finmap.mem_of_lookup_eq_some hdir)
      · rw [hk, hk'] at hkeys
        cases hkeys
    · exact hno [] (.inl hfile)

theorem del_consults (h0 : ¬ a.headD 0 = 0)
    (hp : resolvePath s.currentDir a (Chars.uninit 64) = some path) (hne : str path.bytes ≠ [])
    (hlen : (str path.bytes).length ≤ 62) : FileCmd.del.Consults s a (str path.bytes) := by
  have hrun : ∀ t keys, FileCmd.del.shows (s.over t) a keys =
      some (if (fsFind t path.bytes).isSome
        then say (text "Deleted: " ++ str path.bytes ++ text "\n")
        else notFound path.bytes, keys) := by
    intro t keys
    show (cmdDel (s.over t) a).map _ = _
    unfold cmdDel fsDelete
    have hp' : resolvePath (s.over t).currentDir a (Chars.uninit 64) = some path := hp
    have htab : (s.over t).table = t := rfl
    rw [if_neg h0]
    simp only [hp', Option.bind_eq_bind, Option.bind_some, htab]
    cases fsFind t path.bytes with
    | none => rfl
    | some i => rfl
  constructor
  · intro t t' _ _ hs keys
    rw [hrun, hrun]
    have hfind := fsFind_isSome_same hs.lookup
    by_cases h : (fsFind t path.bytes).isSome
    · rw [if_pos h, if_pos (hfind.mp h)]
    · rw [if_neg h, if_neg (fun h' => h (hfind.mpr h'))]
  · -- the file, and a file with another name
    have hother : str (str path.bytes ++ text "x") = str path.bytes ++ text "x" := by
      rw [str_append (zero_not_mem_str _)]
      rfl
    obtain ⟨t, hinv, hmap⟩ := single_entry false _ hne (by omega)
    obtain ⟨t', hinv', hmap'⟩ := single_entry false (str path.bytes ++ text "x")
      (by rw [hother]; exact List.append_ne_nil_of_left_ne_nil hne _)
      (by rw [hother, List.length_append, show (text "x").length = 1 from rfl]; omega)
    refine ⟨t, t', hinv, hinv', ?_, [], ?_⟩
    · rw [hmap, hmap', Finmap.keys_singleton, Finmap.keys_singleton]
      rfl
    · rw [hrun, hrun, if_pos, if_neg]
      · intro h
        injection h with h
        injection h with h _
        injection h with h _
        injection h with h
        injection h with h _
        exact absurd h (by decide)
      · rw [fsFind_isSome_iff, hmap', Finmap.mem_singleton, hother]
        intro h
        have := congrArg List.length h
        rw [List.length_append, show (text "x").length = 1 from rfl] at this
        omega
      · rw [fsFind_isSome_iff, hmap]
        exact (Finmap.mem_singleton _ _ _).mpr rfl

end

/-! ## Agreement -/

/-- A name of at most 31 characters is read whole by `top` and `btm`. -/
theorem fileAndCount_spec {a : List UInt8} (h31 : a.length ≤ 31) (h0 : 0 ∉ a) (hspace : ch ' ' ∉ a)
    (hhead : a.headD 0 = ch '/') :
    ∃ file, fileAndCount a = some (file, 10) ∧ str file.bytes = a := by
  have hskip : skipSpaces a = a := by
    apply skipSpaces_of_ne
    · rw [hhead]
      decide
    · rw [hhead]
      decide
  have hchr : strchr a (ch ' ') = none := by
    rcases strchr_spec a (c := ch ' ') (by decide) with ⟨h, _⟩ | ⟨u, v, h, _, _⟩
    · exact h
    · rw [str_of_not_mem h0] at h
      rw [h] at hspace
      exact absurd (List.mem_append_right _ List.mem_cons_self) hspace
  obtain ⟨f₁, file, h1, h2, hfile⟩ := strncpy_put_spec (Chars.uninit 32) 0 a (32 - 1) (by omega)
    (Nat.zero_le _)
  rw [Nat.zero_add] at h2
  rw [List.take_zero, List.nil_append, str_of_not_mem h0, List.take_of_length_le h31] at hfile
  refine ⟨file, ?_, hfile⟩
  unfold fileAndCount
  simp only [hskip, hchr, h1, h2, Option.bind_eq_bind, Option.bind_some]

/-- An absolute path of at most 63 characters is its own resolution. -/
theorem resolve_absolute (currentDir : Chars 64) {arg : List UInt8} (hhead : arg.headD 0 = ch '/')
    (hlen : (str arg).length ≤ 63) :
    ∃ path, resolvePath currentDir arg (Chars.uninit 64) = some path ∧ str path.bytes = str arg := by
  obtain ⟨path, hp, hs⟩ := resolvePath_spec currentDir arg (Chars.uninit 64) (.inr (.inl hhead))
  refine ⟨path, hp, ?_⟩
  have hne : str arg ≠ [] := by
    rw [Ne, ← headD_eq_zero_iff, hhead]
    decide
  rw [hs, joinPath, if_neg hne, headD_str, if_pos hhead, List.take_of_length_le hlen]

theorem absolute_head {a : List UInt8} (habs : a.headD 0 = ch '/') : ¬ a.headD 0 = 0 ∧ a ≠ [] := by
  have hhead0 : ¬ a.headD 0 = 0 := by
    rw [habs]
    decide
  refine ⟨hhead0, ?_⟩
  rintro rfl
  exact hhead0 rfl

/-- `see`, `cnt`, `hunt`, `top` and `btm` read an absolute argument. -/
theorem view_reads {s : Shell} {a word : List UInt8} (h31 : a.length ≤ 31) (h0 : 0 ∉ a)
    (hspace : ch ' ' ∉ a) (habs : a.headD 0 = ch '/') (hw : str (skipSpaces word) ≠ [])
    {c : FileCmd} (hc : c ∈ [FileCmd.see, .cnt, .hunt word, .top, .btm]) :
    ∃ name found, str name = a ∧ c.Reads s a name (notFound name) found ∧
      ∀ n buf out, found n buf = some out → ∀ name', out ≠ notFound name' := by
  have hstr : str a = a := str_of_not_mem h0
  obtain ⟨hhead0, hne⟩ := absolute_head habs
  have hlines : ∀ view : Int → Chars (fsMaxFilesize + 1) → Option (List TerminalCall),
      (∀ count buf, ∃ out, view count buf = some out ∧ Lines out) → ∀ count buf out,
        view count buf = some out → ∀ name, out ≠ notFound name := by
    intro view hview count buf out hout name
    obtain ⟨out', hout', hl⟩ := hview count buf
    rw [hout] at hout'
    cases hout'
    exact hl.ne_notFound name
  obtain ⟨path, hp, hps⟩ := resolve_absolute s.currentDir habs (by rw [hstr]; omega)
  obtain ⟨file, hfile, hfs⟩ := fileAndCount_spec h31 h0 hspace habs
  have hfhead : file.bytes.headD 0 = ch '/' := by
    rw [← headD_str, hfs, habs]
  have hf0 : ¬ file.get 0 = 0 := by
    rw [Chars.get_zero, hfhead]
    decide
  obtain ⟨fpath, hfp, hfps⟩ := resolve_absolute s.currentDir hfhead (by rw [hfs]; omega)
  rw [List.mem_cons, List.mem_cons, List.mem_cons, List.mem_cons, List.mem_singleton] at hc
  rcases hc with rfl | rfl | rfl | rfl | rfl
  · refine ⟨_, _, hps.trans hstr, see_reads hhead0 hp, ?_⟩
    intro n buf out hout name heq
    cases hout
    cases heq
  · refine ⟨_, _, hstr, cnt_reads hhead0, ?_⟩
    intro n buf out hout name
    cases hout
    exact (cntShown_lines n buf).ne_notFound name
  · obtain ⟨src, dst, hargs, hsrc, _⟩ := twoArgs_read h0 hspace (by rw [habs]; decide) hne hw
    rw [List.take_of_length_le h31] at hsrc
    exact ⟨_, _, hsrc, hunt_reads hargs, hlines (fun _ => huntView dst.bytes)
      fun _ => huntView_lines dst.bytes⟩
  · exact ⟨_, _, hfps.trans hfs, viewCmd_reads (fun _ _ _ => rfl) topView_lines hfile hf0 hfp,
      fun _ => hlines _ topView_lines 10⟩
  · exact ⟨_, _, hfps.trans hfs, viewCmd_reads (fun _ _ _ => rfl) btmView_lines hfile hf0 hfp,
      fun _ => hlines _ btmView_lines 10⟩

/-- All nine commands look at the entry of an absolute argument. -/
theorem consults_absolute {s : Shell} {a : List UInt8} (h31 : a.length ≤ 31) (h0 : 0 ∉ a)
    (hspace : ch ' ' ∉ a) (habs : a.headD 0 = ch '/') {c : FileCmd} (hc : c.Valid) :
    c.Consults s a a := by
  have hstr : str a = a := str_of_not_mem h0
  obtain ⟨hhead0, hne⟩ := absolute_head habs
  obtain ⟨path, hp, hps⟩ := resolve_absolute s.currentDir habs (by rw [hstr]; omega)
  rw [hstr] at hps
  have hpne : str path.bytes ≠ [] := by rw [hps]; exact hne
  have hplen : (str path.bytes).length ≤ 62 := by rw [hps]; omega
  have hview : ∀ {word : List UInt8}, str (skipSpaces word) ≠ [] →
      c ∈ [FileCmd.see, .cnt, .hunt word, .top, .btm] → c.Consults s a a := by
    intro word hw hmem
    obtain ⟨name, found, hname, hr, _⟩ := view_reads (s := s) h31 h0 hspace habs hw hmem
    have := hr.consults (by rw [hname]; exact hne) (by rw [hname]; omega)
    rwa [hname] at this
  have hx : str (skipSpaces (text "x")) ≠ [] := by decide
  cases c with
  | see | cnt | top | btm => exact hview hx (by simp)
  | hunt word => exact hview hc (by simp)
  | look =>
    have := (look_reads hhead0 hp).consults hpne (by omega)
    rwa [hps] at this
  | write =>
    have := write_consults hhead0 hp hpne (by omega)
    rwa [hps] at this
  | edit =>
    have := edit_consults hhead0 hp hpne (by omega)
    rwa [hps] at this
  | del =>
    have := del_consults hhead0 hp hpne hplen
    rwa [hps] at this

/-- **One name for all.**  The nine commands look at the entry of the resolved path, and `see`,
`cnt`, `hunt`, `top` and `btm` find the file there, exactly if the argument is absolute. -/
theorem views_agree_iff {s : Shell} (hs : shellMachine.Reach s) {a : List UInt8}
    (h1 : 1 ≤ a.length) (h31 : a.length ≤ 31) (h0 : 0 ∉ a) (hspace : ch ' ' ∉ a) :
    (∃ path, resolvePath s.currentDir a (Chars.uninit 64) = some path ∧
      (∀ c : FileCmd, c.Valid → c.Consults s a (str path.bytes)) ∧
      ∀ word, str (skipSpaces word) ≠ [] →
        ∀ c ∈ [FileCmd.see, .cnt, .hunt word, .top, .btm],
          (c.Finds s a ↔ ∃ bytes, (fsMap s.table).lookup (str path.bytes) = some (.file bytes))) ↔
      a.headD 0 = ch '/' := by
  have hstr : str a = a := str_of_not_mem h0
  have hne : a ≠ [] := List.length_pos_iff.mp h1
  constructor
  · -- `cnt` looks at the argument itself, which is no absolute path
    rintro ⟨path, hp, hall, _⟩
    by_contra hrel
    have hpne : str path.bytes ≠ a := by
      intro heq
      refine hrel ?_
      rw [← heq, resolvePath_str hp]
      exact path_headD (shell_reach_absolute hs) a
    have hhead0 : ¬ a.headD 0 = 0 := by
      rw [headD_eq_zero_iff, hstr]
      exact hne
    obtain ⟨t, t', h, h', hmap, hmap', hdiff⟩ := (cnt_reads (s := s) hhead0).ne
      (by rw [hstr]; exact hne) (by rw [hstr]; omega) []
    rw [hstr] at hmap hmap'
    refine hdiff ((hall .cnt trivial).only t t' h h' ⟨?_, ?_⟩ [])
    · rw [hmap, hmap', Finmap.lookup_eq_none.mpr, Finmap.lookup_eq_none.mpr]
      · exact fun hm => hpne ((Finmap.mem_singleton _ _ _).mp hm)
      · exact fun hm => hpne ((Finmap.mem_singleton _ _ _).mp hm)
    · rw [hmap, hmap', Finmap.keys_singleton, Finmap.keys_singleton]
  · intro habs
    obtain ⟨path, hp, hps⟩ := resolve_absolute s.currentDir habs (by rw [hstr]; omega)
    rw [hstr] at hps
    refine ⟨path, hp, ?_, ?_⟩
    · intro c hc
      rw [hps]
      exact consults_absolute h31 h0 hspace habs hc
    · intro word hw c hc
      obtain ⟨name, found, hname, hr, hlines⟩ := view_reads (s := s) h31 h0 hspace habs hw hc
      have hfinds := hr.finds_iff (shell_reach_inv hs).table hlines
      rw [hname] at hfinds
      rw [hps]
      exact hfinds

theorem views_agree_iff_absolute : ∃ s, shellMachine.Reach s ∧
    FileCmd.see.Finds s (text "/root/a.txt") ∧ FileCmd.cnt.Finds s (text "/root/a.txt") := by
  obtain ⟨s, hs, _, hmap⟩ := new_reach (text "a.txt") (by decide) (by decide) (by decide)
    (by decide) (by decide) (by decide)
  obtain ⟨path, hp, _, hfinds⟩ := (views_agree_iff hs (a := text "/root/a.txt") (by decide)
    (by decide) (by decide) (by decide)).mpr (by decide)
  obtain ⟨path', hp', hps⟩ := resolve_absolute s.currentDir 
    (show (text "/root/a.txt").headD 0 = ch '/' by decide) (by decide)
  rw [hp] at hp'
  cases hp'
  have hfile : ∃ bytes, (fsMap s.table).lookup (str path.bytes) = some (.file bytes) := by
    refine ⟨[], ?_⟩
    rw [hps, hmap]
    decide
  exact ⟨s, hs, (hfinds (text "x") (by decide) .see (by simp)).mpr hfile,
    (hfinds (text "x") (by decide) .cnt (by simp)).mpr hfile⟩

/-- After `new a.txt` in `/root`, `see a.txt` finds the file, `cnt a.txt` and `hunt a.txt x`
answer that there is none. -/
theorem see_cnt_differ : ∃ s, shellMachine.Reach s ∧ str s.currentDir.bytes = text "/root" ∧
    FileCmd.see.Finds s (text "a.txt") ∧ ¬ FileCmd.cnt.Finds s (text "a.txt") ∧
      ¬ (FileCmd.hunt (text "x")).Finds s (text "a.txt") := by
  obtain ⟨s, hs, hdir, hmap⟩ := new_reach (text "a.txt") (by decide) (by decide) (by decide)
    (by decide) (by decide) (by decide)
  have hinv := (shell_reach_inv hs).table
  have hnone : ¬ ∃ bytes, (fsMap s.table).lookup (text "a.txt") = some (.file bytes) := by
    rw [hmap]
    rintro ⟨bytes, hb⟩
    rw [show Finmap.lookup (text "a.txt") _ = none from by decide] at hb
    cases hb
  refine ⟨s, hs, hdir, ?_, ?_, ?_⟩
  · obtain ⟨path, hp, hps⟩ := resolvePath_spec s.currentDir (text "a.txt") (Chars.uninit 64)
      (.inr (.inr (by rw [hdir]; decide)))
    rw [hdir] at hps
    refine ((see_reads (by decide) hp).finds_iff hinv ?_).mpr ⟨[], ?_⟩
    · intro n buf out hout name heq
      cases hout
      cases heq
    · rw [hps, hmap]
      decide
  · refine fun h => hnone (((cnt_reads (a := text "a.txt") (by decide)).finds_iff hinv ?_).mp h)
    intro n buf out hout name
    cases hout
    exact (cntShown_lines n buf).ne_notFound name
  · obtain ⟨src, dst, hargs, hsrc, _⟩ := twoArgs_read (a := text "a.txt") (b := text "x")
      (by decide) (by decide) (by decide) (by decide) (by decide)
    intro h
    have hfound := ((hunt_reads hargs).finds_iff hinv ?_).mp h
    · rw [hsrc] at hfound
      exact hnone hfound
    · intro n buf out hout name
      obtain ⟨out', hout', hl⟩ := huntView_lines dst.bytes buf
      rw [hout] at hout'
      cases hout'
      exact hl.ne_notFound name

end MiniOS
