import MiniOS.Editor.Session
import MiniOS.Shell.TransferNames

/-!
# What a command does to the table

A command changes the map by entries it creates, files it writes over and names
it deletes (`Change`); which entries and names these may be is read off its
argument, the keys and the state before (`ShellCall.Creates`,
`ShellCall.Deletes`).  `run_changes` says so for every command; an invariant of
the table then needs one look at each kind of change.
-/

namespace MiniOS

open Lib

/-! ## Changes of the map -/

/-- One change: an entry of `C` is created, a file written over, or a name of `D` deleted. -/
inductive Change (C : List UInt8 → Node → Prop) (D : List UInt8 → Prop) (m : FsMap) : FsMap → Prop
  | create {name : List UInt8} {v : Node} :
      C name v → Creatable m name → Change C D m (m.insert name v)
  | write {name old bytes : List UInt8} :
      m.lookup name = some (.file old) → Change C D m (m.insert name (.file bytes))
  | delete {name : List UInt8} : D name → name ∈ m → Change C D m (m.erase name)

/-- Any number of changes, one after the other. -/
abbrev Changes (C : List UInt8 → Node → Prop) (D : List UInt8 → Prop) : FsMap → FsMap → Prop :=
  Relation.ReflTransGen (Change C D)

variable {C C' : List UInt8 → Node → Prop} {D D' : List UInt8 → Prop} {m m' : FsMap}

theorem Changes.refl (C : List UInt8 → Node → Prop) (D : List UInt8 → Prop) (m : FsMap) :
    Changes C D m m := Relation.ReflTransGen.refl

/-- A name that may not go stays. -/
theorem Changes.mem_of_mem {p : List UInt8} (h : Changes C D m m') (hD : ¬ D p) (hp : p ∈ m) :
    p ∈ m' := by
  induction h with
  | refl => exact hp
  | tail _ hc ih =>
    cases hc with
    | create _ _ => exact Finmap.mem_insert.mpr (.inr ih)
    | write _ => exact Finmap.mem_insert.mpr (.inr ih)
    | delete hd _ =>
      rw [Finmap.mem_erase]
      refine ⟨?_, ih⟩
      rintro rfl
      exact hD hd

/-- A directory that may not go stays one. -/
theorem Changes.dir_of_dir {p : List UInt8} (h : Changes C D m m') (hD : ¬ D p)
    (hp : m.lookup p = some .dir) : m'.lookup p = some .dir := by
  induction h with
  | refl => exact hp
  | @tail m₁ m₂ _ hc ih =>
    cases hc with
    | @create name v _ hcr =>
      have hne : p ≠ name := by
        rintro rfl
        exact hcr.2.2.1 (Finmap.mem_of_lookup_eq_some ih)
      rw [Finmap.lookup_insert_of_ne _ hne, ih]
    | @write name old bytes hl =>
      have hne : p ≠ name := by
        rintro rfl
        rw [ih] at hl
        cases hl
      rw [Finmap.lookup_insert_of_ne _ hne, ih]
    | @delete name hd _ =>
      have hne : p ≠ name := by
        rintro rfl
        exact hD hd
      rw [Finmap.lookup_erase_ne hne, ih]

/-- A directory was there before, or is one that may be created. -/
theorem Changes.dir_before {p : List UInt8} (h : Changes C D m m') (hp : m'.lookup p = some .dir) :
    m.lookup p = some .dir ∨ C p .dir := by
  induction h with
  | refl => exact .inl hp
  | @tail m₁ m₂ _ hc ih =>
    cases hc with
    | @create name v hcv _ =>
      by_cases hne : p = name
      · subst hne
        rw [Finmap.lookup_insert] at hp
        cases hp
        exact .inr hcv
      · rw [Finmap.lookup_insert_of_ne _ hne] at hp
        exact ih hp
    | @write name old bytes _ =>
      by_cases hne : p = name
      · subst hne
        rw [Finmap.lookup_insert] at hp
        cases hp
      · rw [Finmap.lookup_insert_of_ne _ hne] at hp
        exact ih hp
    | @delete name _ _ =>
      by_cases hne : p = name
      · subst hne
        rw [Finmap.lookup_erase] at hp
        cases hp
      · rw [Finmap.lookup_erase_ne hne] at hp
        exact ih hp

/-- A name was there before, or is one that may be created. -/
theorem Changes.mem_before {p : List UInt8} (h : Changes C D m m') (hp : p ∈ m') :
    p ∈ m ∨ ∃ v, C p v := by
  induction h with
  | refl => exact .inl hp
  | tail _ hc ih =>
    cases hc with
    | create hcv _ =>
      rcases Finmap.mem_insert.mp hp with rfl | hp
      · exact .inr ⟨_, hcv⟩
      · exact ih hp
    | write hl =>
      rcases Finmap.mem_insert.mp hp with rfl | hp
      · exact ih (Finmap.mem_of_lookup_eq_some hl)
      · exact ih hp
    | delete _ _ => exact ih (Finmap.mem_erase.mp hp).2

/-- A new file and its bytes. -/
theorem Changes.create_write {p : List UInt8} (hC : C p (.file [])) (hc : Creatable m p)
    (bytes : List UInt8) : Changes C D m (m.insert p (.file bytes)) := by
  have h1 : Change C D m (m.insert p (.file [])) := .create hC hc
  have h2 : Change C D (m.insert p (.file [])) ((m.insert p (.file [])).insert p (.file bytes)) :=
    .write (Finmap.lookup_insert _)
  rw [Finmap.insert_insert] at h2
  exact (Relation.ReflTransGen.single h1).tail h2

/-! ## The calls on the table -/

variable {t : FsTable}

theorem Creates.changes {name : List UInt8} {v : Node} {r : FsResult} (h : Creates t name v r)
    (hC : Creatable (fsMap t) (str name) → C (str name) v) :
    Changes C D (fsMap t) (fsMap r.table) := by
  rcases h.2 with ⟨hcr, _, hmap⟩ | ⟨_, _, htab⟩
  · rw [hmap]
    exact Relation.ReflTransGen.single (.create (hC hcr) hcr)
  · rw [htab]

theorem fsCreate_changes (h : TableInv t) {name : List UInt8} {r : FsResult}
    (hr : fsCreate t name = some r)
    (hC : Creatable (fsMap t) (str name) → C (str name) (.file [])) :
    Changes C D (fsMap t) (fsMap r.table) := (fsCreate_creates h hr).changes hC

theorem fsCreateDir_changes (h : TableInv t) {name : List UInt8} {r : FsResult}
    (hr : fsCreateDir t name = some r)
    (hC : Creatable (fsMap t) (str name) → C (str name) .dir) :
    Changes C D (fsMap t) (fsMap r.table) := (fsCreateDir_creates h hr).changes hC

theorem fsWrite_changes (h : TableInv t) {name : List UInt8} {n len : Nat} {data : Chars n}
    {r : FsResult} (hr : fsWrite t name data.bytes len = some r) (hn : fsMaxFilesize ≤ n) :
    Changes C D (fsMap t) (fsMap r.table) := by
  obtain ⟨_, hcase⟩ := fsWrite_writes h hr (by rw [data.length_eq]; omega)
  rcases hcase with ⟨old, hl, _, hmap⟩ | ⟨_, _, htab⟩
  · rw [hmap]
    exact Relation.ReflTransGen.single (.write hl)
  · rw [htab]

theorem fsDelete_changes (h : TableInv t) (name : List UInt8)
    (hD : str name ∈ fsMap t → D (str name)) :
    Changes C D (fsMap t) (fsMap (fsDelete t name).table) := by
  rcases (fsDelete_spec h name).2 with ⟨hm, _, hmap⟩ | ⟨_, _, htab⟩
  · rw [hmap]
    exact Relation.ReflTransGen.single (.delete (hD hm) hm)
  · rw [htab]

/-! ## What a command may create and delete -/

/-- The path `resolve_path` leaves for an argument. -/
def Shell.path (s : Shell) (arg : List UInt8) : List UInt8 :=
  (joinPath (str s.currentDir.bytes) (str arg)).take 63

/-- The file name `notes new` makes of a title. -/
def noteFile (title : List UInt8) : List UInt8 := text "note_" ++ title.take 20

/-- A transfer that is not blocked: it reads `p` and creates `q`. -/
def TransferKind.Makes (k : TransferKind) (s : Shell) (arg p q : List UInt8) : Prop :=
  ∃ src dst, twoArgs arg = some (some (src, dst)) ∧ p = s.path src.bytes ∧
    q = (k.target p (s.path dst.bytes)).take 63 ∧
    ¬ k.Blocked (fsMap s.table) p (s.path dst.bytes)

/-- In some round of `cmd_fm` the key `c` is read in the state `r`, and then a name. -/
def FmTyped (s : Shell) (keys : List UInt8) (c : UInt8) (r : Shell) (name : List UInt8) : Prop :=
  ∃ before after rest line, Rounds fmBody ⟨s, [], keys⟩ before ∧ fmBody before = .inl after ∧
    before.val = r ∧ before.keys = c :: rest ∧
    keyboardReadline (Chars.uninit 64) 64 rest = some line ∧ str line.val.2.bytes = name

/-- A name typed at Create that the table takes. -/
def FmCreates (s : Shell) (keys p : List UInt8) : Prop :=
  ∃ c r, (c = ch 'c' ∨ c = ch 'C') ∧ FmTyped s keys c r p ∧ Creatable (fsMap r.table) p

/-- A name typed at Delete that is in the table. -/
def FmDeletes (s : Shell) (keys p : List UInt8) : Prop :=
  ∃ c r, (c = ch 'd' ∨ c = ch 'D') ∧ FmTyped s keys c r p ∧ p ∈ fsMap r.table

/-- The entry a command is asked to make, and can make. -/
def ShellCall.Creates (s : Shell) (e : ShellCall) (p : List UInt8) (v : Node) : Prop :=
  match e.cmd with
  | .new =>
    str e.arg ≠ [] ∧ hasExtension (basename e.arg) ∧ p = s.path e.arg ∧ v = .file [] ∧
      Creatable (fsMap s.table) p
  | .edit => str e.arg ≠ [] ∧ p = s.path e.arg ∧ v = .file [] ∧ Creatable (fsMap s.table) p
  | .mkd => str e.arg ≠ [] ∧ p = s.path e.arg ∧ v = .dir ∧ Creatable (fsMap s.table) p
  | .notes =>
    strcmp e.arg (text "new") = 0 ∧ v = .file [] ∧ Creatable (fsMap s.table) p ∧
      ∃ title, keyboardReadline (Chars.uninit 32) 32 e.keys = some title ∧
        p = s.path (noteFile (str title.val.2.bytes))
  | .cpy => v = .file [] ∧ ∃ src, TransferKind.cpy.Makes s e.arg src p
  | .mov => v = .file [] ∧ ∃ src, TransferKind.mov.Makes s e.arg src p
  | .rename => v = .file [] ∧ ∃ src, TransferKind.rename.Makes s e.arg src p
  | .fm => v = .file [] ∧ FmCreates s e.keys p
  | _ => False

/-- The name a command deletes. -/
def ShellCall.Deletes (s : Shell) (e : ShellCall) (p : List UInt8) : Prop :=
  match e.cmd with
  | .del | .deld => str e.arg ≠ [] ∧ p = s.path e.arg ∧ p ∈ fsMap s.table
  | .mov => ∃ dst, TransferKind.mov.Makes s e.arg p dst
  | .rename => ∃ dst, TransferKind.rename.Makes s e.arg p dst
  | .fm => FmDeletes s e.keys p
  | _ => False

/-! ## What each command changes -/

variable {s : Shell}

/-- A transfer that is not done leaves the table. -/
theorem transfer_untouched (h : TableInv s.table) {k : TransferKind} {arg : List UInt8}
    {r : Transfer} (hr : k.run s arg = some r) (hout : ∀ p q, r.outcome ≠ .done p q) :
    r.table = s.table := by
  rcases transfer_cases hr with ⟨htab, _⟩ | ⟨src, dst, verb, hr⟩
  · exact htab
  · obtain ⟨r', hr', _, hcase⟩ := transferFile_spec h src dst (k != .cpy) verb
    rw [hr] at hr'
    cases hr'
    rcases hcase with ⟨_, htab, _⟩ | ⟨_, _, _, hdone, _⟩
    · exact htab
    · exact absurd hdone (hout _ _)

/-- The line is no two tokens, or the transfer between their paths is made or blocked. -/
theorem transfer_does (h : TableInv s.table) {k : TransferKind} {arg : List UInt8} {r : Transfer}
    (hr : k.run s arg = some r) :
    (twoArgs arg = some none ∧ ∀ p q, r.outcome ≠ .done p q) ∨
      ∃ src dst, twoArgs arg = some (some (src, dst)) ∧
        k.Does (fsMap s.table) (s.path src.bytes) (s.path dst.bytes) r := by
  have hcmd : ∀ {usage verb : List UInt8}, k ≠ .mov →
      transferCmd s arg usage (k != .cpy) verb = some r →
      (twoArgs arg = some none ∧ ∀ p q, r.outcome ≠ .done p q) ∨
        ∃ src dst, twoArgs arg = some (some (src, dst)) ∧
          k.Does (fsMap s.table) (s.path src.bytes) (s.path dst.bytes) r := by
    intro usage verb hk hr
    have hrun := hr
    simp only [transferCmd, Option.bind_eq_bind, Option.bind_eq_some_iff] at hr
    obtain ⟨args, hargs, hr⟩ := hr
    cases args with
    | none =>
      cases hr
      exact .inl ⟨hargs, fun p q h => by cases h⟩
    | some sd =>
      simp only [Option.bind_eq_some_iff] at hr
      obtain ⟨pathSrc, hsrc, pathDst, hdst, _⟩ := hr
      have hs := resolvePath_str hsrc
      have hd := resolvePath_str hdst
      obtain ⟨r', hr', hdoes⟩ := transferCmd_does h hk hargs hsrc hdst
        (by rw [hd, List.length_take]; omega) usage verb
      rw [hrun] at hr'
      cases hr'
      rw [hs, hd] at hdoes
      exact .inr ⟨sd.1, sd.2, hargs, hdoes⟩
  cases k with
  | cpy => exact hcmd (fun hk => by cases hk) hr
  | rename => exact hcmd (fun hk => by cases hk) hr
  | mov =>
    have hrun : cmdMov s arg = some r := hr
    simp only [TransferKind.run, cmdMov, Option.bind_eq_bind, Option.bind_eq_some_iff] at hr
    obtain ⟨args, hargs, hr⟩ := hr
    cases args with
    | none =>
      cases hr
      exact .inl ⟨hargs, fun p q h => by cases h⟩
    | some sd =>
      simp only [Option.bind_eq_some_iff] at hr
      obtain ⟨pathSrc, hsrc, pathDst, hdst, hr⟩ := hr
      have hs := resolvePath_str hsrc
      have hd := resolvePath_str hdst
      refine .inr ⟨sd.1, sd.2, hargs, ?_⟩
      by_cases hdir : fsIsDir s.table pathDst.bytes
      · rw [if_pos hdir] at hr
        simp only [Option.bind_eq_some_iff] at hr
        obtain ⟨joined, hj, _⟩ := hr
        simp only [joinBasename, Option.bind_eq_bind, Option.bind_eq_some_iff] at hj
        obtain ⟨slashed, hslash, _⟩ := hj
        obtain ⟨r', hr', hdoes⟩ := cmdMov_does h hargs hsrc hdst (appendSlash_fits hslash)
        rw [hrun] at hr'
        cases hr'
        rw [hs, hd] at hdoes
        exact hdoes
      · rw [if_neg hdir] at hr
        cases hr
        rw [fsIsDir_iff, hd, not_or] at hdir
        exact .inl ⟨.inl ⟨rfl, hdir.1, hdir.2⟩, fun p q h => by cases h⟩

/-- **A transfer.**  It leaves the table, or makes the entry its line asks for. -/
theorem transfer_makes (h : TableInv s.table) {k : TransferKind} {arg : List UInt8} {r : Transfer}
    (hr : k.run s arg = some r) :
    (r.table = s.table ∧ ∀ p q, ¬ k.Makes s arg p q) ∨
      ∃ p q bytes, k.Makes s arg p q ∧ (fsMap s.table).lookup p = some (.file bytes) ∧
        Creatable (fsMap s.table) q ∧
        fsMap r.table = moved (k != .cpy) ((fsMap s.table).insert q (.file bytes)) p := by
  rcases transfer_does h hr with ⟨hargs, hout⟩ | ⟨src, dst, hargs, hdoes⟩
  · refine .inl ⟨transfer_untouched h hr hout, ?_⟩
    rintro p q ⟨src, dst, hargs', _⟩
    rw [hargs] at hargs'
    cases hargs'
  · rcases hdoes with ⟨hblocked, hout⟩ | ⟨hfree, _, bytes, hlook, hcr, hmap⟩
    · refine .inl ⟨transfer_untouched h hr hout, ?_⟩
      rintro p q ⟨src', dst', hargs', rfl, _, hfree⟩
      rw [hargs] at hargs'
      cases hargs'
      exact hfree hblocked
    · exact .inr ⟨_, _, bytes, ⟨src, dst, hargs, rfl, rfl, hfree⟩, hlook, hcr, hmap⟩

theorem transfer_changes (h : TableInv s.table) {k : TransferKind} {arg : List UInt8}
    {r : Transfer} (hr : k.run s arg = some r)
    (hC : ∀ p q, k.Makes s arg p q → C q (.file []))
    (hD : ∀ p q, k.Makes s arg p q → k ≠ .cpy → D p) :
    Changes C D (fsMap s.table) (fsMap r.table) := by
  rcases transfer_makes h hr with ⟨htab, _⟩ | ⟨p, q, bytes, hmakes, hlook, hcr, hmap⟩
  · rw [htab]
  · have hpm : p ∈ fsMap s.table := Finmap.mem_of_lookup_eq_some hlook
    have hwrite := Changes.create_write (D := D) (hC p q hmakes) hcr bytes
    rw [hmap]
    unfold moved
    split
    · rename_i hk
      exact hwrite.tail (.delete (hD p q hmakes (by simpa using hk))
        (Finmap.mem_insert.mpr (.inr hpm)))
    · exact hwrite

end MiniOS
