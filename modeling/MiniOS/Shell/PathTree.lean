import MiniOS.Filesystem.Listings
import MiniOS.Shell.TypedNames

/-!
# Names and parents

MiniFS is documented as a hierarchy of absolute paths; the table only stores
flat names.  Two properties of it, and what each takes.

* Every name begins with `/`, is listed for its parent path and resolves to
  itself (`EntryReached`).  The commands that resolve their path make absolute
  names, the file manager takes what is typed; a name `//v` is listed nowhere,
  and a tab at the end of a row stops the listing.  `names_reached_iff` says that
  this is all.
* The parent of every absolute name is a directory (`TreeShape`).  Only `mov`
  looks whether there is one, and a directory is deleted whatever it holds.
  `step_treeShape_iff` says that nothing else goes wrong.
-/

namespace MiniOS

open Lib

/-! ## The names that are asked for -/

theorem withSlash_headD {dir : List UInt8} (h : dir.headD 0 = ch '/') :
    (withSlash dir).headD 0 = ch '/' := by
  unfold withSlash
  split
  · exact h
  · rw [headD_append (ne_nil_of_slash h), h]

theorem path_headD {s : Shell} (habs : (str s.currentDir.bytes).headD 0 = ch '/')
    (arg : List UInt8) : (s.path arg).headD 0 = ch '/' := by
  unfold Shell.path joinPath
  rw [headD_take (by decide)]
  split
  · exact habs
  split
  · assumption
  · have h := withSlash_headD habs
    rw [headD_append (ne_nil_of_slash h), h]

/-- What a command other than the file manager makes has an absolute name. -/
theorem creates_headD {s : Shell} (habs : (str s.currentDir.bytes).headD 0 = ch '/')
    {e : ShellCall} (hfm : e.cmd ≠ .fm) {p : List UInt8} {v : Node} (hC : e.Creates s p v) :
    p.headD 0 = ch '/' := by
  have hmakes : ∀ {k : TransferKind}, (∃ src, k.Makes s e.arg src p) → p.headD 0 = ch '/' := by
    rintro k ⟨_, src, dst, _, _, rfl, _⟩
    have hdst := path_headD habs dst.bytes
    rw [headD_take (by decide)]
    unfold TransferKind.target
    split
    · have h := withSlash_headD hdst
      rw [headD_append (ne_nil_of_slash h), h]
    · exact hdst
  obtain ⟨cmd, arg, keys⟩ := e
  cases cmd with
  | new =>
    obtain ⟨_, _, rfl, _⟩ := hC
    exact path_headD habs arg
  | edit | mkd =>
    obtain ⟨_, rfl, _⟩ := hC
    exact path_headD habs arg
  | notes =>
    obtain ⟨_, _, _, title, _, rfl⟩ := hC
    exact path_headD habs _
  | cpy | mov | rename => exact hmakes hC.2
  | fm => exact absurd rfl hfm
  | write | see | laf | del | look | wdir | goto | deld => cases hC

/-! ## Entries that are listed -/

variable {t : FsTable} {i : Fin fsMaxFiles}

/-- The parent of every absolute name is a directory. -/
def TreeShape (t : FsTable) : Prop :=
  ∀ i, (t i).used → (str (t i).name.bytes).headD 0 = ch '/' →
    fsIsDir t (parentPath (str (t i).name.bytes))

def ParentIsDir (m : FsMap) (p : List UInt8) : Prop :=
  parentPath p = text "/" ∨ m.lookup (parentPath p) = some .dir

theorem zero_not_mem_parentPath {p : List UInt8} (h : 0 ∉ p) : 0 ∉ parentPath p := by
  unfold parentPath
  split
  · split
    · decide
    · intro hm
      exact h (List.mem_of_mem_take hm)
  · decide

theorem parentPath_eq_self {p : List UInt8} (h0 : 0 ∉ p) (habs : p.headD 0 = ch '/')
    (h : parentPath p = p) : p = text "/" := by
  obtain ⟨u, v, rfl, hv⟩ := exists_append_slash habs
  rw [parentPath_append h0 hv] at h
  split at h
  · exact h.symm
  · have hl := congrArg List.length h
    rw [List.length_append, List.length_cons] at hl
    omega

theorem mem_fsMap_no_zero {t : FsTable} (h : TableInv t) {p : List UInt8} (hp : p ∈ fsMap t) :
    0 ∉ p := by
  obtain ⟨i, _, rfl⟩ := (mem_fsMap_iff h).mp hp
  exact zero_not_mem_str _

theorem treeShape_iff_map {t : FsTable} (h : TableInv t) :
    TreeShape t ↔ ∀ p, p ∈ fsMap t → p.headD 0 = ch '/' → ParentIsDir (fsMap t) p := by
  have hdir : ∀ {p : List UInt8}, 0 ∉ p → (fsIsDir t (parentPath p) ↔ ParentIsDir (fsMap t) p) := by
    intro p hp
    rw [fsIsDir_iff, str_of_not_mem (zero_not_mem_parentPath hp)]
    exact Iff.rfl
  constructor
  · intro ht p hp habs
    obtain ⟨i, hu, rfl⟩ := (mem_fsMap_iff h).mp hp
    exact (hdir (zero_not_mem_str _)).mp (ht i hu habs)
  · intro ht i hu habs
    exact (hdir (zero_not_mem_str _)).mpr (ht _ ((mem_fsMap_iff h).mpr ⟨i, hu, rfl⟩) habs)

/-- Every entry the step makes has a parent, and no directory goes that is one. -/
def KeepsParents (s : Shell) (e : ShellCall) : Prop :=
  (∀ p v, e.Creates s p v → ParentIsDir (fsMap s.table) p) ∧
    ∀ p q, e.Deletes s p → q ∈ fsMap s.table → q.headD 0 = ch '/' → parentPath q = p →
      p = text "/"

/-- A command makes one entry. -/
theorem creates_unique {s : Shell} {e : ShellCall} (hfm : e.cmd ≠ .fm) {p q : List UInt8}
    {v w : Node} (hp : e.Creates s p v) (hq : e.Creates s q w) : p = q := by
  have hmakes : ∀ {k : TransferKind}, (∃ src, k.Makes s e.arg src p) →
      (∃ src, k.Makes s e.arg src q) → p = q := by
    rintro k ⟨_, hm⟩ ⟨_, hm'⟩
    exact (hm.unique hm').2
  obtain ⟨cmd, arg, keys⟩ := e
  cases cmd with
  | new => rw [hp.2.2.1, hq.2.2.1]
  | edit | mkd => rw [hp.2.1, hq.2.1]
  | notes =>
    obtain ⟨_, _, _, title, htitle, rfl⟩ := hp
    obtain ⟨_, _, _, title', htitle', rfl⟩ := hq
    rw [htitle] at htitle'
    cases htitle'
    rfl
  | cpy | mov | rename => exact hmakes hp.2 hq.2
  | fm => exact absurd rfl hfm
  | write | see | laf | del | look | wdir | goto | deld => cases hp

/-- `mov` and `rename` delete a file, the others make nothing where they delete. -/
theorem deletes_cases {s : Shell} {e : ShellCall} (hfm : e.cmd ≠ .fm) {p : List UInt8}
    (hp : e.Deletes s p) :
    (∃ bytes, (fsMap s.table).lookup p = some (.file bytes)) ∨
      (∀ q v, ¬ e.Creates s q v) ∧ (e.cmd = .del ∨ e.cmd = .deld) ∧ str e.arg ≠ [] ∧
        p = s.path e.arg := by
  have hmakes : ∀ {k : TransferKind}, (∃ dst, k.Makes s e.arg p dst) →
      ∃ bytes, (fsMap s.table).lookup p = some (.file bytes) := by
    rintro k ⟨_, src, dst, _, _, _, hfree⟩
    by_contra hno
    apply hfree
    refine .inr (.inl ?_)
    intro bytes hb
    exact hno ⟨bytes, hb⟩
  obtain ⟨cmd, arg, keys⟩ := e
  cases cmd with
  | del =>
    refine .inr ⟨?_, .inl rfl, hp.1, hp.2.1⟩
    intro q v hC
    exact hC
  | deld =>
    refine .inr ⟨?_, .inr rfl, hp.1, hp.2.1⟩
    intro q v hC
    exact hC
  | mov | rename => exact .inl (hmakes hp)
  | fm => exact absurd rfl hfm
  | new | edit | write | see | laf | notes | cpy | look | wdir | goto | mkd => cases hp

/-- **One step.**  The parents are there exactly if the step keeps them. -/
theorem step_treeShape_iff {s : Shell} (hinv : ShellInv s)
    (habs : (str s.currentDir.bytes).headD 0 = ch '/') (ht : TreeShape s.table) {e : ShellCall}
    (hfm : e.cmd ≠ .fm) {r : Typed Shell} (hr : e.run s = some r) :
    TreeShape r.val.table ↔ KeepsParents s e := by
  have hchanges := run_changes hinv.table hr
  have hinv' := (run_shellInv hr hinv).table
  rw [treeShape_iff_map hinv.table] at ht
  rw [treeShape_iff_map hinv']
  constructor
  · intro ht'
    constructor
    · intro p v hC
      have hp := run_creates hinv.table hr hfm hC
      have hpabs := creates_headD habs hfm hC
      rcases ht' p hp hpabs with h | h
      · exact .inl h
      · rcases hchanges.dir_before h with hd | hC'
        · exact .inr hd
        · -- a directory made is not its own parent
          have hself := (creates_unique hfm hC hC').symm
          have hroot := parentPath_eq_self (mem_fsMap_no_zero hinv' hp) hpabs hself
          exact .inl (by rw [hself, hroot])
    · intro p q hD hq hqabs hqp
      rcases deletes_cases hfm hD with ⟨bytes, hfile⟩ | ⟨_, hcmd, hne, hpath⟩
      · rcases ht q hq hqabs with h | h
        · rw [← hqp, h]
        · rw [hqp, hfile] at h
          cases h
      · by_contra hroot
        have hmap := run_deletes hinv.table hr hcmd hne
        rw [← hpath] at hmap
        have hqne : q ≠ p := by
          rintro rfl
          exact hroot (parentPath_eq_self (mem_fsMap_no_zero hinv.table hq) hqabs hqp)
        have hq' : q ∈ fsMap r.val.table := by
          rw [hmap]
          exact Finmap.mem_erase.mpr ⟨hqne, hq⟩
        rcases ht' q hq' hqabs with h | h
        · exact hroot (by rw [← hqp, h])
        · rw [hqp, hmap, Finmap.lookup_erase] at h
          cases h
  · rintro ⟨hmake, hgo⟩ q hq hqabs
    -- a parent that is there stays
    have hstay : ∀ {d : List UInt8}, ¬ e.Deletes s d → (fsMap s.table).lookup d = some .dir →
        (fsMap r.val.table).lookup d = some .dir := fun hD hd => hchanges.dir_of_dir hD hd
    by_cases hq0 : q ∈ fsMap s.table
    · rcases ht q hq0 hqabs with h | h
      · exact .inl h
      · by_cases hD : e.Deletes s (parentPath q)
        · exact .inl (hgo _ q hD hq0 hqabs rfl)
        · exact .inr (hstay hD h)
    · obtain ⟨v, hC⟩ : ∃ v, e.Creates s q v := by
        rcases hchanges.mem_before hq with h | h
        · exact absurd h hq0
        · exact h
      rcases hmake q v hC with h | h
      · exact .inl h
      · refine .inr (hstay ?_ h)
        intro hD
        rcases deletes_cases hfm hD with ⟨bytes, hfile⟩ | ⟨hno, _⟩
        · rw [h] at hfile
          cases hfile
        · exact hno q v hC

end MiniOS
