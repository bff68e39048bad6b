import MiniOS.Shell.GotoBack

/-!
# The whole tree

The stored names form a tree if every entry has a directory as its parent
(`step_treeShape_iff`).  Then every entry can also be reached from `/`: `goto`
leads to its directory, and `dtree` shows it (`WholeTree`), if its path has no
empty component, and no tab in its last one that is printed at column 72 or
behind it (`wholeTree_iff`).  No command looks for any of this.
-/

namespace MiniOS

open Lib

/-! ## Reached from the root -/

/-- A `goto` that moves, and what it says comes to its end on any terminal. -/
def GotoStep (a b : Shell) : Prop :=
  ∃ arg, a.Moves arg b ∧ ∀ term, terminalMachine.Reach term →
    CallsReturn term (say (text "Moved to: " ++ str b.currentDir.bytes ++ text "\n"))

/-- From `/` the directory is reached by `goto`. -/
def GotoReaches (t : FsTable) (p : List UInt8) : Prop :=
  ∀ s : Shell, s.table = t → str s.currentDir.bytes = text "/" →
    ∃ s', Relation.ReflTransGen GotoStep s s' ∧ str s'.currentDir.bytes = p

/-- The parent of the entry is a directory that is reached, and so is the entry if it is one. -/
structure EntryInTree (t : FsTable) (i : Fin fsMaxFiles) : Prop where
  parent : fsIsDir t (parentPath (str (t i).name.bytes))
  parentReached : GotoReaches t (parentPath (str (t i).name.bytes))
  reached : (t i).isDir → GotoReaches t (str (t i).name.bytes)

/-- Every absolute name is in the tree, and `dtree` shows them all from `/` on any terminal. -/
structure WholeTree (t : FsTable) : Prop where
  entry : ∀ i, (t i).used → (str (t i).name.bytes).headD 0 = ch '/' → EntryInTree t i
  shown : ∃ rows out, TreeListing t [] rows ∧
    fsPrintTree fsMaxFilename t (text "/") = some out ∧ printedText out = treeText (text "/") rows ∧
    (∀ i, (t i).used → (str (t i).name.bytes).headD 0 = ch '/' → i ∈ rows.map (·.idx)) ∧
    ∀ term, terminalMachine.Reach term → CallsReturn term out

/-- The path has no empty component, and no tab in its last one that is printed at column 72 or
behind it in its row. -/
def TreeName (p : List UInt8) : Prop :=
  ∃ cs c, p = joined (ch '/') (cs ++ [c]) ∧ (∀ d ∈ cs ++ [c], Component d) ∧
    TabsFit (4 * (cs.length + 1)) c

variable {t : FsTable} {i j : Fin fsMaxFiles} {p : List UInt8}

/-! ## Paths of components -/

theorem joined_length {cs : List (List UInt8)} (h : ∀ c ∈ cs, Component c) :
    2 * cs.length ≤ (joined (ch '/') cs).length := by
  induction cs with
  | nil => exact Nat.le_refl 0
  | cons c cs ih =>
    obtain ⟨hc, hcs⟩ := List.forall_mem_cons.mp h
    have hpos := List.length_pos_iff.mpr hc.1
    have := ih hcs
    rw [joined_cons, List.length_cons, List.length_cons, List.length_append]
    omega

theorem joined_ne_root {cs : List (List UInt8)} (h : ∀ c ∈ cs, Component c) (hne : cs ≠ []) :
    joined (ch '/') cs ≠ text "/" := by
  intro heq
  have hlen := joined_length h
  have hpos := List.length_pos_iff.mpr hne
  rw [heq, show (text "/").length = 1 from rfl] at hlen
  omega

theorem joined_snoc (cs : List (List UInt8)) (c : List UInt8) :
    joined (ch '/') (cs ++ [c]) = joined (ch '/') cs ++ ch '/' :: c := by
  rw [joined_append, joined_cons, joined_nil, List.append_nil]

theorem parentPath_joined {cs : List (List UInt8)} {c : List UInt8} (hc : ch '/' ∉ c)
    (h0 : 0 ∉ joined (ch '/') (cs ++ [c])) :
    parentPath (joined (ch '/') (cs ++ [c])) =
      if joined (ch '/') cs = [] then text "/" else joined (ch '/') cs := by
  rw [joined_snoc] at h0 ⊢
  exact parentPath_append h0 hc

/-- A path from the root is the name. -/
theorem pathTo_root_iff {cs : List (List UInt8)} :
    PathTo t [] i cs ↔ (∀ c ∈ cs, Component c) ∧ str (t i).name.bytes = joined (ch '/') cs :=
  ⟨fun h => ⟨h.component, h.name_eq⟩, fun h => ⟨h.1, h.2⟩⟩

/-- A path in the table is shorter than the tree can be deep. -/
theorem PathTo.length_lt (h : TableInv t) (hu : (t i).used) {cs : List (List UInt8)}
    (hpath : PathTo t [] i cs) : cs.length < fsMaxFiles := by
  have hlen := joined_length hpath.component
  have hname := (h.entry i hu).terminated
  rw [hpath.name_eq] at hname
  have hmax : fsMaxFilename = 64 := rfl
  have hfiles : fsMaxFiles = 32 := rfl
  rw [List.nil_append] at hname
  omega

/-! ## `dtree` -/

/-- An entry whose parents are all directories is in the tree. -/
theorem inTree_of_parents (h : TableInv t)
    (hparent : ∀ p ∈ fsMap t, ParentIsDir (fsMap t) p) {cs : List (List UInt8)} {c : List UInt8}
    (hu : (t i).used) (hpath : PathTo t [] i (cs ++ [c])) : InTree t [] i := by
  induction cs using List.reverseRecOn generalizing i c with
  | nil => exact IsChild.inTree ⟨hu, c, hpath⟩
  | append_singleton cs d ih =>
    have hmem : str (t i).name.bytes ∈ fsMap t := (mem_fsMap_iff h).mpr ⟨i, hu, rfl⟩
    obtain ⟨hcomp, hjoin⟩ := pathTo_root_iff.mp hpath
    obtain ⟨hcs, hc⟩ := List.forall_mem_append.mp hcomp
    have hne : cs ++ [d] ≠ [] := List.append_ne_nil_of_right_ne_nil _ (List.cons_ne_nil d [])
    have hnil : joined (ch '/') (cs ++ [d]) ≠ [] := by
      rw [joined_snoc]
      exact List.append_ne_nil_of_right_ne_nil _ (List.cons_ne_nil _ _)
    -- the parent is an entry of its own
    have hdir : (fsMap t).lookup (joined (ch '/') (cs ++ [d])) = some .dir := by
      have hpar := hparent _ hmem
      rw [ParentIsDir, hjoin, parentPath_joined (hc c (List.mem_singleton_self c)).2
        (hjoin ▸ zero_not_mem_str _), if_neg hnil] at hpar
      exact hpar.resolve_left (joined_ne_root hcs hne)
    obtain ⟨j, huj, hisDir, hj⟩ := (lookup_dir_iff h).mp hdir
    have hpathj : PathTo t [] j (cs ++ [d]) := pathTo_root_iff.mpr ⟨hcs, hj⟩
    obtain ⟨-, cs', d', hpathj', habove⟩ := ih huj hpathj
    obtain ⟨rfl, -⟩ := List.append_inj' (hpathj'.inj hpathj) rfl
    refine ⟨hu, cs' ++ [d], c, hpath, ?_⟩
    intro ds hds hpre
    rcases List.prefix_concat_iff.mp hpre with rfl | hpre
    · exact ⟨j, huj, hisDir, hpathj⟩
    · exact habove ds hds hpre

theorem TreeListing.rows_plain (h : TableInv t) (h8 : ∀ p ∈ fsMap t, 8 ∉ p) {rows : List TreeRow}
    (hlist : TreeListing t [] rows) :
    ∀ r ∈ rows, 8 ∉ str r.name ∧ r.ancestors.length < fsMaxFiles := by
  intro r hr
  obtain ⟨hu, -⟩ := (hlist.mem_iff r.idx).mp (List.mem_map_of_mem hr)
  obtain ⟨-, cs, hlen, hpath⟩ := hlist.shows r hr
  constructor
  · intro hname
    refine h8 _ ((mem_fsMap_iff h).mpr ⟨r.idx, hu, rfl⟩) ?_
    rw [(pathTo_root_iff.mp hpath).2, joined_snoc]
    exact List.mem_append_right _ (List.mem_cons_of_mem _ hname)
  · have := hpath.length_lt h hu
    rw [List.length_append, List.length_singleton] at this
    omega

/-- `dtree /` comes to its end exactly if the names of its rows fit. -/
theorem fsPrintTree_root_iff (h : TableInv t) (h8 : ∀ p ∈ fsMap t, 8 ∉ p) {rows : List TreeRow}
    (hlist : TreeListing t [] rows) {out : List TerminalCall}
    (hrun : fsPrintTree fsMaxFilename t (text "/") = some out)
    (htext : printedText out = treeText (text "/") rows) {term : Terminal}
    (hterm : terminalMachine.Reach term) :
    CallsReturn term out ↔ ∀ r ∈ rows, TabsFit (4 * (r.ancestors.length + 1)) (str r.name) := by
  obtain ⟨rows', hrows, -⟩ := Option.bind_eq_some_iff.mp hrun
  have hd := fsPrintTree_displays (text "/") rows'
  rw [fsPrintTree_rows hrows] at hrun
  cases hrun
  rw [hd.return_iff hterm, ← hd.text_eq, htext,
    tabsFit_treeText (by decide) (hlist.rows_plain h h8)]

/-! ## `goto` -/

theorem gotoReaches_root (t : FsTable) : GotoReaches t (text "/") :=
  fun s _ hroot => ⟨s, .refl, hroot⟩

/-- One `goto` leads to a directory with an absolute name. -/
theorem gotoReaches_dir (hdir : (fsMap t).lookup p = some .dir) (habs : p.headD 0 = ch '/')
    (hlen : p.length ≤ 63) (hp : ∀ c ∈ p, IsPrintable c) : GotoReaches t p := by
  rintro s rfl hroot
  have h0 : 0 ∉ p := fun h => (hp 0 h).ne_of_lt (by decide) rfl
  have htab : ch '\t' ∉ text "Moved to: " ++ p ++ text "\n" := by
    simp only [List.mem_append, not_or]
    exact ⟨⟨by decide, fun h => (hp _ h).ne_of_lt (by decide) rfl⟩, by decide⟩
  have hzero : 0 ∉ text "Moved to: " ++ p ++ text "\n" := by
    simp only [List.mem_append, not_or]
    exact ⟨⟨by decide, h0⟩, by decide⟩
  have hdots : p ≠ text ".." := by
    rintro rfl
    exact absurd habs (by decide)
  have hgoto : gotoPath (str s.currentDir.bytes) (str p) = p := by
    rw [str_of_not_mem h0, gotoPath, if_neg (ne_nil_of_slash habs), if_neg hdots, if_pos habs,
      List.take_of_length_le hlen]
  have habs₀ : (str s.currentDir.bytes).headD 0 = ch '/' := by
    rw [hroot]
    rfl
  have hlen₀ : (str s.currentDir.bytes).length ≤ 63 := by
    rw [hroot]
    decide
  obtain ⟨s₁, hmove⟩ := moves_of_lookup p habs₀ hlen₀ (by rw [hgoto]; exact hdir)
  obtain ⟨-, hat⟩ := hmove.spec habs₀ hlen₀
  rw [hgoto] at hat
  refine ⟨s₁, .single ⟨p, hmove, ?_⟩, hat⟩
  intro term hterm
  rw [hat, (displays_say hzero).return_iff hterm]
  exact tabsFit_plain htab _

/-! ## What the tree takes -/

/-- **The tree is whole** if every name has a directory as its parent and can be shown. -/
theorem wholeTree_iff (h : TableInv t) (habs : ∀ p ∈ fsMap t, p.headD 0 = ch '/')
    (h8 : ∀ p ∈ fsMap t, 8 ∉ p)
    (hdirs : ∀ p, (fsMap t).lookup p = some .dir → ∀ c ∈ p, IsPrintable c) :
    WholeTree t ↔ TreeShape t ∧ ∀ p ∈ fsMap t, TreeName p := by
  constructor
  · rintro ⟨hentry, rows, out, hlist, hrun, htext, hall, hback⟩
    refine ⟨fun i hu ha => (hentry i hu ha).parent, ?_⟩
    intro p hp
    obtain ⟨i, hu, rfl⟩ := (mem_fsMap_iff h).mp hp
    obtain ⟨r, hr, rfl⟩ := List.mem_map.mp (hall i hu (habs _ hp))
    obtain ⟨-, cs, hlen, hpath⟩ := hlist.shows r hr
    obtain ⟨hcomp, hname⟩ := pathTo_root_iff.mp hpath
    have hfits := (fsPrintTree_root_iff h h8 hlist hrun htext (terminalAtCol_reach 0)).mp
      (hback _ (terminalAtCol_reach 0)) r hr
    exact ⟨cs, str r.name, hname, hcomp, hlen ▸ hfits⟩
  · rintro ⟨hshape, hname⟩
    have hparent : ∀ p ∈ fsMap t, ParentIsDir (fsMap t) p :=
      fun p hp => (treeShape_iff_map h).mp hshape p hp (habs p hp)
    have hreach : ∀ {p : List UInt8}, (fsMap t).lookup p = some .dir → GotoReaches t p := by
      intro p hdir
      have hp : p ∈ fsMap t := Finmap.mem_of_lookup_eq_some hdir
      obtain ⟨i, hu, rfl⟩ := (mem_fsMap_iff h).mp hp
      exact gotoReaches_dir hdir (habs _ hp) (Nat.le_of_lt_succ (h.entry i hu).terminated)
        (hdirs _ hdir)
    constructor
    · intro i hu ha
      refine ⟨hshape i hu ha, ?_, ?_⟩
      · rcases hparent _ ((mem_fsMap_iff h).mpr ⟨i, hu, rfl⟩) with hroot | hdir
        · rw [hroot]
          exact gotoReaches_root t
        · exact hreach hdir
      · exact fun hdir => hreach ((lookup_dir_iff h).mpr ⟨i, hu, hdir, rfl⟩)
    · obtain ⟨rows, hrows, hlist⟩ := fsTreeRows_listing h.treeNames (text "/")
        (Nat.le_refl fsMaxFilename)
      have hrun := fsPrintTree_rows hrows
      have htext := (fsPrintTree_displays (text "/") rows).text_eq
      refine ⟨rows, _, hlist, hrun, htext, ?_, ?_⟩
      · intro i hu _
        obtain ⟨cs, c, hjoin, hcomp, -⟩ := hname _ ((mem_fsMap_iff h).mpr ⟨i, hu, rfl⟩)
        exact (hlist.mem_iff i).mpr
          (inTree_of_parents h hparent hu (pathTo_root_iff.mpr ⟨hcomp, hjoin⟩))
      · intro term hterm
        rw [fsPrintTree_root_iff h h8 hlist hrun htext hterm]
        intro r hr
        obtain ⟨hu, -⟩ := (hlist.mem_iff r.idx).mp (List.mem_map_of_mem hr)
        obtain ⟨-, cs, hlen, hpath⟩ := hlist.shows r hr
        obtain ⟨cs', c', hjoin, hcomp, hfit⟩ := hname _ ((mem_fsMap_iff h).mpr ⟨r.idx, hu, rfl⟩)
        obtain ⟨rfl, hc⟩ := List.append_inj' (hpath.inj (pathTo_root_iff.mpr ⟨hcomp, hjoin⟩)) rfl
        cases hc
        rw [← hlen]
        exact hfit

/-! ## Runs -/

/-- Every entry the step makes has a parent and can be shown, and no directory goes that is a
parent. -/
def KeepsTree (s : Shell) (e : ShellCall) : Prop :=
  KeepsParents s e ∧ ∀ p v, e.Creates s p v → TreeName p

/-- What holds along a run of typed commands without the file manager. -/
structure TreeInv (s : Shell) : Prop where
  reach : shellMachine.Reach s
  names : TypedNames s
  absolute : ∀ p ∈ fsMap s.table, p.headD 0 = ch '/'
  whole : WholeTree s.table

theorem TreeInv.step_iff {s : Shell} (h : TreeInv s) {e : ShellCall} (hfm : e.cmd ≠ .fm)
    (harg : TypedArg e) {r : Typed Shell} (hr : e.run s = some r) :
    (TypedNames r.val ∧ ∀ p ∈ fsMap r.val.table, p.headD 0 = ch '/') ∧
      (WholeTree r.val.table ↔ KeepsTree s e) := by
  have hinv := shell_reach_inv h.reach
  have habs := shell_reach_absolute h.reach
  have hinv' := (run_shellInv hr hinv).table
  have hnames' := run_typedNames hinv habs h.names harg hr
  have habs' : ∀ p ∈ fsMap r.val.table, p.headD 0 = ch '/' := by
    intro p hp
    rcases (run_changes hinv.table hr).mem_before hp with hp | ⟨v, hC⟩
    · exact h.absolute p hp
    · exact creates_headD habs hfm hC
  obtain ⟨hshape, hname⟩ :=
    (wholeTree_iff hinv.table h.absolute h.names.names h.names.dirs).mp h.whole
  refine ⟨⟨hnames', habs'⟩, ?_⟩
  rw [wholeTree_iff hinv' habs' hnames'.names hnames'.dirs,
    step_treeShape_iff hinv habs hshape hfm hr, KeepsTree, and_congr_right_iff]
  intro _
  constructor
  · exact fun hall p v hC => hall p (run_creates hinv.table hr hfm hC)
  · intro hmake p hp
    rcases (run_changes hinv.table hr).mem_before hp with hp | ⟨v, hC⟩
    · exact hname p hp
    · exact hmake p v hC

theorem boot_treeInv {t : FsTable} (ht : fsInit = some t) : TreeInv (bootShell t) := by
  obtain ⟨t₀, h0, hinv, hmap⟩ := fsInit_spec
  rw [ht] at h0
  cases h0
  have hnames := boot_typedNames ht
  have hall : ∀ p ∈ fsMap t, p = text "/root" := by
    intro p hp
    rw [hmap, rootMap, Finmap.mem_singleton] at hp
    exact hp
  have habs : ∀ p ∈ fsMap t, p.headD 0 = ch '/' := by
    intro p hp
    rw [hall p hp]
    rfl
  refine ⟨Machine.Reach.init ⟨t, ht, rfl⟩, hnames, habs, ?_⟩
  apply (wholeTree_iff hinv habs hnames.names hnames.dirs).mpr
  constructor
  · rw [treeShape_iff_map hinv]
    intro p hp _
    rw [hall p hp]
    exact .inl (by decide)
  · intro p hp
    rw [hall p hp]
    refine ⟨[], text "root", rfl, List.forall_mem_singleton.mpr ⟨by decide, by decide⟩, by decide⟩

/-- **The tree.**  In every run of typed commands, the file manager apart, in which each entry made
has a parent and can be shown, and no parent is deleted, the stored paths form a tree that is
reached from `/` by `goto` and `dtree`; the first step that does otherwise ends this. -/
theorem wholeTree_run_iff {s : Shell}
    (h : (shellMachine.restrict fun s e => (e.cmd ≠ .fm ∧ TypedArg e) ∧ KeepsTree s e).Reach s) :
    WholeTree s.table ∧ ∀ e o s', e.cmd ≠ .fm → TypedArg e → shellMachine.legal s e →
      shellMachine.step s e = some (o, s') → (WholeTree s'.table ↔ KeepsTree s e) := by
  have hinv : TreeInv s := by
    refine h.invariant (I := TreeInv) ?_ ?_
    · rintro _ ⟨t, ht, rfl⟩
      exact boot_treeInv ht
    · rintro s e o s' hinv ⟨hl, ⟨hfm, harg⟩, hkeeps⟩ hs
      have hreach' : shellMachine.Reach s' := hinv.reach.step hl hs
      obtain ⟨r, hr, hrs⟩ := Option.map_eq_some_iff.mp hs
      cases hrs
      obtain ⟨⟨hnames', habs'⟩, hiff⟩ := hinv.step_iff hfm harg hr
      exact ⟨hreach', hnames', habs', hiff.mpr hkeeps⟩
  refine ⟨hinv.whole, ?_⟩
  intro e o s' hfm harg _ hs
  obtain ⟨r, hr, hrs⟩ := Option.map_eq_some_iff.mp hs
  cases hrs
  exact (hinv.step_iff hfm harg hr).2

theorem wholeTree_run_iff_docs :
    ∃ s, (shellMachine.restrict fun s e => (e.cmd ≠ .fm ∧ TypedArg e) ∧ KeepsTree s e).Reach s ∧
      ∀ o s', shellMachine.step s ⟨.mkd, text "docs", []⟩ = some (o, s') → WholeTree s'.table := by
  obtain ⟨t, ht, _, hmap⟩ := fsInit_spec
  have hreach : (shellMachine.restrict fun s e => (e.cmd ≠ .fm ∧ TypedArg e) ∧ KeepsTree s e).Reach
      (bootShell t) := Machine.Reach.init ⟨t, ht, rfl⟩
  have hpath : (bootShell t).path (text "docs") = text "/root/docs" := by
    show (joinPath (str bootDir.bytes) _).take 63 = _
    rw [bootDir_str]
    decide
  have harg : TypedArg ⟨.mkd, text "docs", []⟩ := by
    show ∀ c ∈ text "docs", IsPrintable c
    exact forall_of_all (by decide)
  refine ⟨bootShell t, hreach, ?_⟩
  intro o s' hs
  apply ((wholeTree_run_iff hreach).2 ⟨.mkd, text "docs", []⟩ o s' (by decide) harg
    (by show _ ≤ 255; decide) hs).mpr
  refine ⟨⟨?_, fun p q h => h.elim⟩, ?_⟩
  · rintro p v ⟨_, rfl, _⟩
    refine .inr ?_
    show (fsMap t).lookup (parentPath ((bootShell t).path (text "docs"))) = _
    rw [hpath, hmap]
    decide
  · rintro p v ⟨_, rfl, _⟩
    show TreeName ((bootShell t).path (text "docs"))
    rw [hpath]
    exact ⟨[text "root"], text "docs", rfl, List.forall_mem_cons.mpr
      ⟨⟨by decide, by decide⟩, List.forall_mem_singleton.mpr ⟨by decide, by decide⟩⟩, by decide⟩

/-- `mkd /x/y` makes a directory in one that does not exist. -/
theorem mkd_orphan :
    ∃ s, (shellMachine.restrict fun _ e =>
        e.cmd ∈ [.new, .edit, .mkd, .cpy, .mov, .rename, .notes, .del, .deld]).Reach s ∧
      ¬ WholeTree s.table := by
  obtain ⟨t, ht, hinv, hmap⟩ := fsInit_spec
  have hreach : (shellMachine.restrict fun _ e =>
      e.cmd ∈ [.new, .edit, .mkd, .cpy, .mov, .rename, .notes, .del, .deld]).Reach (bootShell t) :=
    Machine.Reach.init ⟨t, ht, rfl⟩
  have habs : (text "/x/y").headD 0 = ch '/' := by decide
  obtain ⟨t', hmkd, hinv', hmap'⟩ := cmdMkd_creates (s := bootShell t) hinv (p := text "/x/y")
    (show str (text "/x/y") ≠ [] by decide) (.inl habs)
    (by show (joinPath (str bootDir.bytes) _).take 63 = _; rw [bootDir_str]; decide)
    (by rw [show fsMap (bootShell t).table = _ from hmap]; decide)
  have hrun : (⟨.mkd, text "/x/y", []⟩ : ShellCall).run (bootShell t) = some (Shown.typed []
      ({ bootShell t with table := t' }, say (text "Directory created: " ++ text "/x/y" ++
        text "\n"))) := by
    show (cmdMkd _ _).map _ = _
    rw [hmkd]
    rfl
  refine ⟨{ bootShell t with table := t' }, hreach.step (e := ⟨.mkd, text "/x/y", []⟩)
    (o := (say (text "Directory created: " ++ text "/x/y" ++ text "\n"), []))
    ⟨by show _ ≤ 255; decide, List.mem_cons_of_mem _ (List.mem_cons_of_mem _ List.mem_cons_self)⟩
    (by show Option.map _ (ShellCall.run _ _) = _; rw [hrun]; rfl), ?_⟩
  intro htree
  have hshape : TreeShape t' := fun i hu ha => (htree.entry i hu ha).parent
  rw [treeShape_iff_map hinv', hmap', show fsMap (bootShell t).table = _ from hmap] at hshape
  rcases hshape (text "/x/y") (Finmap.mem_insert.mpr (.inl rfl)) habs with h | h
  · exact absurd h (by decide)
  · exact absurd h (by decide)

end MiniOS
