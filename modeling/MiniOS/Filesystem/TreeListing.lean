import MiniOS.Filesystem.Refinement
import MiniOS.Filesystem.Tree
import MiniOS.Lib.PathNames
import MiniOS.Screen.Printing

/-!
# What the tree shows

A name below a directory goes on from `nameBase` of it, component by component
(`PathTo`); the directory's tree is all that can be reached over entries that are
directories (`InTree`).

* `children_spec`: the children are all found, and come in the order of their last
  components;
* `printChildren_spec`: their rows, each with the rows below it, are in the order
  of the components (`TreeLt`);
* `fsPrintTreeInternal_spec`: so are all rows, by induction over the fuel.  A
  name below is longer by two bytes at least, so names of 63 bytes bound both the
  fuel and the depth.

In the order of the components an entry is before what is below it and that is
before the next sibling, which is what `TreeListing` says of the rows.

What is printed is the text of the rows (`treeText`); it comes to its end exactly
if the tabs in the names fit on the screen (`fsPrintTree_listing_iff`).
-/

namespace MiniOS

open Lib

variable {t : FsTable} {base dir : List UInt8} {i j k : Fin fsMaxFiles}

/-! ## The tree -/

/-- A component of a path. -/
def Component (c : List UInt8) : Prop := c ≠ [] ∧ ch '/' ∉ c

/-- The name of entry `i` goes on from `base` with the components `cs`. -/
structure PathTo (t : FsTable) (base : List UInt8) (i : Fin fsMaxFiles)
    (cs : List (List UInt8)) : Prop where
  component : ∀ c ∈ cs, Component c
  name_eq : str (t i).name.bytes = base ++ joined (ch '/') cs

/-- Entry `i` is in the tree: every shorter path to it is one of a directory. -/
def InTree (t : FsTable) (base : List UInt8) (i : Fin fsMaxFiles) : Prop :=
  (t i).used ∧ ∃ cs c, PathTo t base i (cs ++ [c]) ∧
    ∀ ds, ds ≠ [] → ds <+: cs → ∃ j, (t j).used ∧ (t j).isDir ∧ PathTo t base j ds

/-- Entry `i` is directly in the directory. -/
def IsChild (t : FsTable) (base : List UInt8) (i : Fin fsMaxFiles) : Prop :=
  (t i).used ∧ ∃ c, PathTo t base i [c]

/-- Entry `i` is the child `k`, or below it. -/
def OnBranch (t : FsTable) (k i : Fin fsMaxFiles) : Prop :=
  i = k ∨ (t k).isDir ∧ InTree t (str (t k).name.bytes) i

/-- Names are told apart, and fit their arrays. -/
structure TreeNames (t : FsTable) : Prop where
  distinct : ∀ i j, (t i).used → (t j).used → str (t i).name.bytes = str (t j).name.bytes → i = j
  length_lt : ∀ i, (t i).used → (str (t i).name.bytes).length < fsMaxFilename

/-- What is shown of the tree of a directory. -/
structure TreeListing (t : FsTable) (base : List UInt8) (rows : List TreeRow) : Prop where
  nodup : (rows.map (·.idx)).Nodup
  mem_iff : ∀ i, i ∈ rows.map (·.idx) ↔ InTree t base i
  /-- A row shows the last component, behind one branch for each component before it. -/
  shows : ∀ r ∈ rows, r.isDir = (t r.idx).isDir ∧
    ∃ cs, cs.length = r.ancestors.length ∧ PathTo t base r.idx (cs ++ [str r.name])
  after_parent : ∀ j ∈ rows.map (·.idx), ∀ cs c, PathTo t base j (cs ++ [c]) → cs ≠ [] →
    ∃ i, (t i).isDir ∧ PathTo t base i cs ∧ [i, j].Sublist (rows.map (·.idx))
  /-- Siblings are in the order of `strcmp`, what is below the first of them between them. -/
  before_next : ∀ i ∈ rows.map (·.idx), ∀ i' ∈ rows.map (·.idx), ∀ cs c c',
    PathTo t base i (cs ++ [c]) → PathTo t base i' (cs ++ [c']) →
    strcmp (t i).name.bytes (t i').name.bytes < 0 →
    ∀ j ∈ rows.map (·.idx), ∀ ds, PathTo t base j (cs ++ c :: ds) →
      [j, i'].Sublist (rows.map (·.idx))

theorem PathTo.inj {cs ds : List (List UInt8)} (hi : PathTo t base i cs)
    (hj : PathTo t base i ds) : cs = ds := by
  apply joined_inj (fun c hc => (hi.component c hc).2) fun d hd => (hj.component d hd).2
  exact List.append_cancel_left (hi.name_eq.symm.trans hj.name_eq)

/-- A path over a child. -/
theorem pathTo_cons_iff {c : List UInt8} {cs : List (List UInt8)} (hk : PathTo t base k [c]) :
    PathTo t base i (c :: cs) ↔ PathTo t (str (t k).name.bytes) i cs := by
  have hname : str (t k).name.bytes ++ joined (ch '/') cs =
      base ++ joined (ch '/') (c :: cs) := by
    rw [hk.name_eq, joined_cons, joined_cons, joined_nil]
    simp
  constructor
  · intro h
    exact ⟨fun d hd => h.component d (List.mem_cons_of_mem c hd), by rw [h.name_eq, hname]⟩
  · intro h
    refine ⟨?_, by rw [h.name_eq, hname]⟩
    intro d hd
    rcases List.mem_cons.mp hd with rfl | hd
    · exact hk.component d (List.mem_singleton_self d)
    · exact h.component d hd

theorem IsChild.inTree (h : IsChild t base i) : InTree t base i := by
  obtain ⟨hu, c, hc⟩ := h
  refine ⟨hu, [], c, hc, ?_⟩
  intro ds hne hpre
  exact absurd (List.prefix_nil.mp hpre) hne

theorem InTree.below (hk : IsChild t base k) (hdir : (t k).isDir)
    (h : InTree t (str (t k).name.bytes) i) : InTree t base i := by
  obtain ⟨huk, d, hd⟩ := hk
  obtain ⟨hu, cs, c, hpath, hdirs⟩ := h
  refine ⟨hu, d :: cs, c, (pathTo_cons_iff hd).mpr hpath, ?_⟩
  intro ds hne hpre
  cases ds with
  | nil => exact absurd rfl hne
  | cons d' ds =>
    obtain ⟨rfl, htail⟩ := List.cons_prefix_cons.mp hpre
    cases ds with
    | nil => exact ⟨k, huk, hdir, hd⟩
    | cons e es =>
      obtain ⟨j, huj, hdj, hj⟩ := hdirs (e :: es) (List.cons_ne_nil e es) htail
      exact ⟨j, huj, hdj, (pathTo_cons_iff hd).mpr hj⟩

/-- **The tree, level by level.** -/
theorem inTree_iff : InTree t base i ↔ ∃ k, IsChild t base k ∧ OnBranch t k i := by
  constructor
  · rintro ⟨hu, cs, c, hpath, hdirs⟩
    cases cs with
    | nil => exact ⟨i, ⟨hu, c, hpath⟩, .inl rfl⟩
    | cons d cs =>
      obtain ⟨k, huk, hdk, hk⟩ := hdirs [d] (List.cons_ne_nil d []) ⟨cs, rfl⟩
      refine ⟨k, ⟨huk, d, hk⟩, .inr ⟨hdk, hu, cs, c, (pathTo_cons_iff hk).mp hpath, ?_⟩⟩
      intro ds hne hpre
      obtain ⟨j, huj, hdj, hj⟩ := hdirs (d :: ds) (List.cons_ne_nil d ds)
        (List.cons_prefix_cons.mpr ⟨rfl, hpre⟩)
      exact ⟨j, huj, hdj, (pathTo_cons_iff hk).mp hj⟩
  · rintro ⟨k, hk, rfl | ⟨hdk, h⟩⟩
    · exact hk.inTree
    · exact h.below hk hdk

/-! ## The order of the rows -/

/-- The order of the components. -/
def TreeLt (t : FsTable) (base : List UInt8) (i j : Fin fsMaxFiles) : Prop :=
  ∃ cs ds, PathTo t base i cs ∧ PathTo t base j ds ∧ cs < ds

theorem TreeLt.asymm (h : TreeLt t base i j) : ¬ TreeLt t base j i := by
  rintro ⟨ds', cs', hj', hi', hlt'⟩
  obtain ⟨cs, ds, hi, hj, hlt⟩ := h
  rw [hi'.inj hi, hj'.inj hj] at hlt'
  exact List.lt_asymm hlt hlt'

theorem TreeLt.of_child (hk : IsChild t base k) (h : TreeLt t (str (t k).name.bytes) i j) :
    TreeLt t base i j := by
  obtain ⟨-, c, hc⟩ := hk
  obtain ⟨cs, ds, hi, hj, hlt⟩ := h
  exact ⟨c :: cs, c :: ds, (pathTo_cons_iff hc).mpr hi, (pathTo_cons_iff hc).mpr hj,
    List.cons_lt_cons_iff.mpr (.inr ⟨rfl, hlt⟩)⟩

/-- `strcmp` of siblings. -/
theorem strcmp_sibling_iff {cs : List (List UInt8)} {c d : List UInt8}
    (hi : PathTo t base i (cs ++ [c])) (hj : PathTo t base j (cs ++ [d])) :
    strcmp (t i).name.bytes (t j).name.bytes < 0 ↔ c < d := by
  have hname : ∀ e : List UInt8,
      base ++ joined (ch '/') (cs ++ [e]) = (base ++ joined (ch '/') cs ++ [ch '/']) ++ e := by
    intro e
    rw [joined_append, joined_cons, joined_nil]
    simp
  rw [strcmp_neg_iff, hi.name_eq, hj.name_eq, hname, hname]
  exact append_lt_append_iff UInt8.lt_irrefl

/-! ## The children -/

theorem pathTo_singleton_iff {c : List UInt8} : PathTo t base i [c] ↔
    Component c ∧ str (t i).name.bytes = base ++ [ch '/'] ++ c := by
  have hjoin : base ++ joined (ch '/') [c] = base ++ [ch '/'] ++ c := by
    rw [joined_cons, joined_nil]
    simp
  rw [← hjoin]
  constructor
  · intro h
    exact ⟨h.component c (List.mem_singleton_self c), h.name_eq⟩
  · rintro ⟨hc, hname⟩
    exact ⟨List.forall_mem_singleton.mpr hc, hname⟩

theorem isTreeChild_iff : isTreeChild dir (t i) ↔ IsChild t (nameBase dir) i := by
  have hslash : ch '/' ≠ 0 := by decide
  unfold isTreeChild IsChild
  simp only [pathTo_singleton_iff]
  rw [childName_eq]
  by_cases hpre : nameBase dir ++ [ch '/'] <+: str (t i).name.bytes
  · rw [if_pos hpre]
    obtain ⟨c, hc⟩ := hpre
    have hcomp : (∃ d, Component d ∧ str (t i).name.bytes = nameBase dir ++ [ch '/'] ++ d) ↔
        Component c := by
      constructor
      · rintro ⟨d, hd, hname⟩
        rw [List.append_cancel_left (hc.trans hname)]
        exact hd
      · intro h
        exact ⟨c, h, hc.symm⟩
    rw [hcomp, Component, ← List.length_pos_iff]
    by_cases hu : (t i).used
    · simp only [hu, if_true, Bool.and_eq_true, decide_eq_true_eq, strlen_eq,
        strchr_isNone_iff _ hslash, str_drop_append hc.symm, true_and]
    · simp [hu]
  · rw [if_neg hpre]
    refine iff_of_false (by simp) ?_
    rintro ⟨-, c, -, hname⟩
    exact hpre ⟨c, hname.symm⟩

/-- The scan stores no more than there are entries. -/
theorem scanChildren_eq (t : FsTable) (dir : List UInt8) :
    scanChildren t dir = some ((List.finRange fsMaxFiles).filter fun i => isTreeChild dir (t i)) := by
  have hfold : ∀ (l children : List (Fin fsMaxFiles)), children.length + l.length ≤ fsMaxFiles →
      l.foldlM (fun children i =>
          if isTreeChild dir (t i) then storeChild children i else some children) children =
        some (children ++ l.filter fun i => isTreeChild dir (t i)) := by
    intro l
    induction l with
    | nil =>
      intro children _
      rw [List.filter_nil, List.append_nil]
      rfl
    | cons i l ih =>
      intro children hlen
      rw [List.length_cons] at hlen
      rw [List.foldlM_cons]
      by_cases hi : isTreeChild dir (t i)
      · have hstore : storeChild children i = some (children ++ [i]) := by
          unfold storeChild
          rw [if_pos (by omega)]
        have hrest := ih (children ++ [i]) (by
          rw [List.length_append, List.length_singleton]
          omega)
        rw [if_pos hi, hstore]
        show List.foldlM _ _ l = _
        rw [hrest, List.filter_cons, if_pos hi, List.append_assoc]
        rfl
      · rw [if_neg hi, List.filter_cons, if_neg hi]
        apply ih children
        omega
  apply hfold
  rw [List.length_finRange]
  exact Nat.le_refl _

theorem sortChildren_spec (t : FsTable) (l : List (Fin fsMaxFiles)) :
    ∃ l', sortChildren t l = some l' ∧ l'.Perm l ∧
      l'.Pairwise fun i j => ¬ str (t j).name.bytes < str (t i).name.bytes := by
  unfold sortChildren
  apply bubbleSort_spec
  · intro i j h
    rw [← strcmp_pos_iff]
    exact of_decide_eq_false h
  · intro i j h
    have hlt := (strcmp_pos_iff _ _).mp (of_decide_eq_true h)
    exact List.lt_asymm hlt
  · intro i j k hij hjk
    rw [List.not_lt] at hij hjk ⊢
    exact List.le_trans hij hjk

/-- The children of a directory, in the order they are printed. -/
theorem children_spec (hn : TreeNames t) (dir : List UInt8) :
    ∃ scanned children, scanChildren t dir = some scanned ∧
      sortChildren t scanned = some children ∧
      (∀ k, k ∈ children ↔ IsChild t (nameBase dir) k) ∧
      children.Pairwise (TreeLt t (nameBase dir)) := by
  obtain ⟨children, hsort, hperm, hle⟩ := sortChildren_spec t
    ((List.finRange fsMaxFiles).filter fun i => isTreeChild dir (t i))
  have hmem : ∀ k, k ∈ children ↔ IsChild t (nameBase dir) k := by
    intro k
    rw [hperm.mem_iff, List.mem_filter, isTreeChild_iff]
    exact and_iff_right (List.mem_finRange k)
  have hnodup : children.Nodup := hperm.nodup_iff.mpr ((List.nodup_finRange _).filter _)
  refine ⟨_, children, scanChildren_eq t dir, hsort, hmem, ?_⟩
  refine (hle.and hnodup).imp_of_mem ?_
  rintro i j hi hj ⟨hnot, hne⟩
  obtain ⟨hui, c, hc⟩ := (hmem i).mp hi
  obtain ⟨huj, d, hd⟩ := (hmem j).mp hj
  refine ⟨[c], [d], hc, hd, List.cons_lt_cons_iff.mpr (.inl ?_)⟩
  rw [← strcmp_sibling_iff (show PathTo t _ i ([] ++ [c]) from hc) hd, strcmp_neg_iff]
  by_contra hnlt
  exact hne (hn.distinct i j hui huj (Std.Trichotomous.trichotomous _ _ hnlt hnot))

/-! ## The rows -/

/-- Rows of a call at `depth` in the order of the components, one for each entry `P` holds of. -/
structure RowsFor (t : FsTable) (depth : Nat) (base : List UInt8) (P : Fin fsMaxFiles → Prop)
    (rows : List TreeRow) : Prop where
  sorted : (rows.map (·.idx)).Pairwise (TreeLt t base)
  mem_iff : ∀ i, i ∈ rows.map (·.idx) ↔ P i
  shows : ∀ r ∈ rows, r.isDir = (t r.idx).isDir ∧
    ∃ cs, depth + cs.length = r.ancestors.length ∧ PathTo t base r.idx (cs ++ [str r.name])

theorem OnBranch.path {c : List UInt8} (hk : PathTo t base k [c]) (h : OnBranch t k i) :
    ∃ ds, PathTo t base i (c :: ds) := by
  rcases h with rfl | ⟨-, -, cs, d, hd, -⟩
  · exact ⟨[], hk⟩
  · exact ⟨cs ++ [d], (pathTo_cons_iff hk).mpr hd⟩

/-- All of a branch is before the branches of later children. -/
theorem OnBranch.lt {k' : Fin fsMaxFiles} (hlt : TreeLt t base k k') (hk : IsChild t base k)
    (hk' : IsChild t base k') (hi : OnBranch t k i) (hj : OnBranch t k' j) : TreeLt t base i j := by
  obtain ⟨-, c, hc⟩ := hk
  obtain ⟨-, d, hd⟩ := hk'
  obtain ⟨es, he⟩ := hi.path hc
  obtain ⟨fs, hf⟩ := hj.path hd
  obtain ⟨cs, ds, hcs, hds, hcd⟩ := hlt
  rw [hcs.inj hc, hds.inj hd, List.cons_lt_cons_iff] at hcd
  refine ⟨c :: es, d :: fs, he, hf, List.cons_lt_cons_iff.mpr (.inl ?_)⟩
  rcases hcd with h | ⟨-, h⟩
  · exact h
  · exact absurd h (List.not_lt_nil [])

theorem TreeLt.below (hk : IsChild t base k) (h : InTree t (str (t k).name.bytes) i) :
    TreeLt t base k i := by
  obtain ⟨-, c, hc⟩ := hk
  obtain ⟨-, cs, d, hd, -⟩ := h
  refine ⟨[c], c :: (cs ++ [d]), hc, (pathTo_cons_iff hc).mpr hd, ?_⟩
  rw [List.cons_lt_cons_iff]
  refine .inr ⟨rfl, ?_⟩
  cases cs with
  | nil => exact List.nil_lt_cons d []
  | cons e cs => exact List.nil_lt_cons e _

theorem rowsFor_nil (depth : Nat) :
    RowsFor t depth base (fun i => ∃ k ∈ ([] : List (Fin fsMaxFiles)), OnBranch t k i) [] := by
  refine ⟨List.Pairwise.nil, ?_, ?_⟩
  · simp
  · simp

/-- **The rows of a child**, the rows below it and those of the later children. -/
theorem RowsFor.cons {depth : Nat} {children : List (Fin fsMaxFiles)} {row : TreeRow}
    {below rows : List TreeRow} (hk : IsChild t base k) (hlater : ∀ k' ∈ children, IsChild t base k' ∧ TreeLt t base k k')
    (hrow : row.idx = k) (hanc : row.ancestors.length = depth)
    (hshow : row.isDir = (t k).isDir ∧ PathTo t base k [str row.name])
    (hbelow : RowsFor t (depth + 1) (str (t k).name.bytes)
      (fun i => (t k).isDir ∧ InTree t (str (t k).name.bytes) i) below)
    (hrows : RowsFor t depth base (fun i => ∃ k ∈ children, OnBranch t k i) rows) :
    RowsFor t depth base (fun i => ∃ k' ∈ k :: children, OnBranch t k' i) (row :: below ++ rows) := by
  have hbranch : ∀ i, i ∈ (row :: below).map (·.idx) ↔ OnBranch t k i := by
    intro i
    rw [List.map_cons, List.mem_cons, hbelow.mem_iff, hrow]
    exact Iff.rfl
  constructor
  · rw [List.map_append]
    apply List.pairwise_append.mpr
    refine ⟨?_, hrows.sorted, ?_⟩
    · rw [List.map_cons, hrow]
      apply List.pairwise_cons.mpr
      refine ⟨?_, hbelow.sorted.imp fun h => h.of_child hk⟩
      intro i hi
      exact TreeLt.below hk ((hbelow.mem_iff i).mp hi).2
    · intro i hi j hj
      obtain ⟨k', hk', hj'⟩ := (hrows.mem_iff j).mp hj
      obtain ⟨hchild', hlt⟩ := hlater k' hk'
      exact OnBranch.lt hlt hk hchild' ((hbranch i).mp hi) hj'
  · intro i
    rw [List.map_append, List.mem_append, hbranch, hrows.mem_iff]
    simp only [List.mem_cons, exists_eq_or_imp]
  · intro r hr
    rcases List.mem_append.mp hr with hr | hr
    · rcases List.mem_cons.mp hr with rfl | hr
      · rw [hrow]
        exact ⟨hshow.1, [], hanc.symm, hshow.2⟩
      · obtain ⟨hdir, cs, hlen, hcs⟩ := hbelow.shows r hr
        obtain ⟨-, c, hc⟩ := hk
        refine ⟨hdir, c :: cs, ?_, (pathTo_cons_iff hc).mpr hcs⟩
        rw [List.length_cons]
        omega
    · exact hrows.shows r hr

/-! ## The recursion -/

theorem str_relativeName_append {fname c : List UInt8}
    (hname : str fname = nameBase dir ++ [ch '/'] ++ c) : str (relativeName dir fname) = c := by
  have hdrop : relativeName dir fname = fname.drop (nameBase dir ++ [ch '/']).length := by
    rw [List.length_append, List.length_singleton]
    unfold relativeName nameBase
    split
    · rfl
    · rw [strlen_eq]
  rw [hdrop]
  exact str_drop_append hname

theorem str_relativeName {c : List UInt8} (hk : PathTo t (nameBase dir) k [c]) :
    str (relativeName dir (t k).name.bytes) = c :=
  str_relativeName_append (pathTo_singleton_iff.mp hk).2

/-- The flags are read at the depths above. -/
theorem ancestors_some (lasts : List Bool) (l : List Nat) (hl : ∀ d ∈ l, d < lasts.length) :
    ∃ ancestors, l.mapM (lasts[·]?) = some ancestors ∧ ancestors.length = l.length := by
  induction l with
  | nil => exact ⟨[], rfl, rfl⟩
  | cons d l ih =>
    obtain ⟨hd, hl'⟩ := List.forall_mem_cons.mp hl
    obtain ⟨rest, hrest, hlen⟩ := ih hl'
    refine ⟨lasts[d] :: rest, ?_, congrArg (· + 1) hlen⟩
    rw [List.mapM_cons, List.getElem?_eq_getElem hd, hrest]
    rfl

/-- What the recursive call is to do: it comes back with the rows below a directory. -/
def Prints (t : FsTable) (depth : Nat)
    (print : List UInt8 → Nat → List Bool → Option (List TreeRow × List Bool))
    (k : Fin fsMaxFiles) : Prop :=
  ∀ lasts : List Bool, lasts.length = fsMaxFiles →
    ∃ rows lasts', print (t k).name.bytes (depth + 1) lasts = some (rows, lasts') ∧
      lasts'.length = fsMaxFiles ∧
      RowsFor t (depth + 1) (str (t k).name.bytes) (InTree t (str (t k).name.bytes)) rows

section

variable {depth : Nat} {lasts : List Bool} (hdepth : depth < fsMaxFiles)
  (hlasts : lasts.length = fsMaxFiles)
  {print : List UInt8 → Nat → List Bool → Option (List TreeRow × List Bool)}

include hdepth hlasts

theorem printBelow_spec (hprint : (t k).isDir → Prints t depth print k) (isLast : Bool) :
    ∃ rows lasts', printBelow t depth print k isLast lasts = some (rows, lasts') ∧
      lasts'.length = fsMaxFiles ∧
      RowsFor t (depth + 1) (str (t k).name.bytes)
        (fun i => (t k).isDir ∧ InTree t (str (t k).name.bytes) i) rows := by
  unfold printBelow
  by_cases hdir : (t k).isDir
  · obtain ⟨rows, lasts', hrun, hlen, hrows⟩ := hprint hdir (lasts.set depth isLast)
      (by rw [List.length_set, hlasts])
    refine ⟨rows, lasts', ?_, hlen, hrows.sorted, ?_, hrows.shows⟩
    · rw [if_pos hdir, setLast, if_pos (by omega)]
      exact hrun
    · intro i
      rw [hrows.mem_iff]
      exact (and_iff_right hdir).symm
  · refine ⟨[], lasts, if_neg hdir, hlasts, List.Pairwise.nil, ?_, ?_⟩
    · intro i
      exact iff_of_false List.not_mem_nil fun h => hdir h.1
    · intro r hr
      cases hr

/-- **The last loop.** -/
theorem printChildren_spec {children : List (Fin fsMaxFiles)}
    (hchild : ∀ k ∈ children, IsChild t (nameBase dir) k)
    (hsort : children.Pairwise (TreeLt t (nameBase dir)))
    (hprint : ∀ k ∈ children, (t k).isDir → Prints t depth print k) :
    ∃ rows lasts', printChildren t dir depth print children lasts = some (rows, lasts') ∧
      lasts'.length = fsMaxFiles ∧
      RowsFor t depth (nameBase dir) (fun i => ∃ k ∈ children, OnBranch t k i) rows := by
  induction children generalizing lasts with
  | nil => exact ⟨[], lasts, rfl, hlasts, rowsFor_nil depth⟩
  | cons k children ih =>
    obtain ⟨hk, hchild'⟩ := List.forall_mem_cons.mp hchild
    obtain ⟨hlt, hsort'⟩ := List.pairwise_cons.mp hsort
    obtain ⟨hprintk, hprint'⟩ := List.forall_mem_cons.mp hprint
    have hlater : ∀ k' ∈ children, IsChild t (nameBase dir) k' ∧ TreeLt t (nameBase dir) k k' :=
      fun k' hk' => ⟨hchild' k' hk', hlt k' hk'⟩
    obtain ⟨ancestors, hanc, hlen⟩ := ancestors_some lasts (List.range depth) (by
      intro d hd
      rw [List.mem_range] at hd
      omega)
    rw [List.length_range] at hlen
    have hshow : PathTo t (nameBase dir) k [str (relativeName dir (t k).name.bytes)] := by
      obtain ⟨-, c, hc⟩ := hk
      rw [str_relativeName hc]
      exact hc
    obtain ⟨below, lasts₁, hbelow, hlen₁, hfor⟩ :=
      printBelow_spec hdepth hlasts hprintk children.isEmpty
    obtain ⟨rows, lasts', hrun, hlen', hrows⟩ := ih hlen₁ hchild' hsort' hprint'
    let row : TreeRow := ⟨k, ancestors, children.isEmpty,
      relativeName dir (t k).name.bytes, (t k).isDir⟩
    refine ⟨row :: below ++ rows, lasts', ?_, hlen',
      RowsFor.cons hk hlater rfl hlen ⟨rfl, hshow⟩ hfor hrows⟩
    rw [printChildren, hanc]
    simp only [Option.bind_eq_bind, Option.bind_some, hbelow, hrun]
    rfl

end

/-- **All rows.**  A name below has at least two more bytes, so that names of 63
bytes bound the fuel and the depth. -/
theorem fsPrintTreeInternal_spec (hn : TreeNames t) {fuel : Nat} {dir : List UInt8} {depth : Nat}
    (hfuel : 0 < fuel) (hlong : fsMaxFilename ≤ fuel + (nameBase dir).length)
    (hdepth : depth < fsMaxFiles) (hdeep : 2 * depth ≤ (nameBase dir).length) {lasts : List Bool}
    (hlasts : lasts.length = fsMaxFiles) :
    ∃ rows lasts', fsPrintTreeInternal t fuel dir depth lasts = some (rows, lasts') ∧
      lasts'.length = fsMaxFiles ∧
      RowsFor t depth (nameBase dir) (InTree t (nameBase dir)) rows := by
  induction fuel generalizing dir depth lasts with
  | zero => cases hfuel
  | succ fuel ih =>
    obtain ⟨scanned, children, hscan, hsorted, hmem, hpair⟩ := children_spec hn dir
    have hbelow : ∀ k ∈ children, (t k).isDir →
        Prints t depth (fsPrintTreeInternal t fuel) k := by
      intro k hk hdirk lasts hlen
      obtain ⟨hu, c, hpath⟩ := (hmem k).mp hk
      obtain ⟨hc, hname⟩ := pathTo_singleton_iff.mp hpath
      have hcpos := List.length_pos_iff.mpr hc.1
      have hlength := congrArg List.length hname
      simp only [List.length_append, List.length_singleton] at hlength
      have hlt := hn.length_lt k hu
      have hbase : nameBase (t k).name.bytes = str (t k).name.bytes := by
        rw [nameBase_eq, if_neg]
        intro hroot
        have hone := congrArg List.length hroot
        rw [show (text "/").length = 1 by decide] at hone
        omega
      have hmax : fsMaxFilename = 64 := rfl
      have hfiles : fsMaxFiles = 32 := rfl
      rw [← hbase] at hlength hlt ⊢
      apply ih
      all_goals omega
    obtain ⟨rows, lasts', hrun, hlen, hrows⟩ := printChildren_spec hdepth hlasts
      (fun k hk => (hmem k).mp hk) hpair hbelow
    refine ⟨rows, lasts', ?_, hlen, hrows.sorted, ?_, hrows.shows⟩
    · rw [fsPrintTreeInternal, hscan]
      simp only [Option.bind_eq_bind, Option.bind_some]
      rw [hsorted]
      exact hrun
    · intro i
      rw [hrows.mem_iff, inTree_iff]
      simp only [hmem]

/-! ## The listing -/

/-- The directory a deeper entry is in has a row too. -/
theorem InTree.parent {cs : List (List UInt8)} {c : List UInt8} (h : InTree t base j)
    (hj : PathTo t base j (cs ++ [c])) (hne : cs ≠ []) :
    ∃ i, (t i).isDir ∧ PathTo t base i cs ∧ InTree t base i := by
  obtain ⟨-, cs', c', hj', hdirs⟩ := h
  obtain ⟨rfl, -⟩ := List.append_inj' (hj'.inj hj) rfl
  obtain ⟨i, hui, hdi, hi⟩ := hdirs cs' hne (List.prefix_refl cs')
  refine ⟨i, hdi, hi, hui, cs'.dropLast, cs'.getLast hne, ?_, ?_⟩
  · rw [List.dropLast_append_getLast hne]
    exact hi
  · intro ds hds hpre
    exact hdirs ds hds (hpre.trans (List.dropLast_prefix cs'))

theorem RowsFor.treeListing {rows : List TreeRow} (h : RowsFor t 0 base (InTree t base) rows) :
    TreeListing t base rows where
  nodup := by
    apply h.sorted.imp
    rintro i _ hlt rfl
    exact hlt.asymm hlt
  mem_iff := h.mem_iff
  shows := by
    intro r hr
    obtain ⟨hdir, cs, hlen, hpath⟩ := h.shows r hr
    exact ⟨hdir, cs, by omega, hpath⟩
  after_parent := by
    intro j hj cs c hpath hne
    obtain ⟨i, hdir, hi, htree⟩ := InTree.parent ((h.mem_iff j).mp hj) hpath hne
    refine ⟨i, hdir, hi, ?_⟩
    apply before_of_pairwise (fun a b hab => hab.asymm) h.sorted ((h.mem_iff i).mpr htree) hj
    exact ⟨cs, cs ++ [c], hi, hpath, lt_below cs c []⟩
  before_next := by
    intro i _ i' hi' cs c c' hi hc' hlt j hj ds hds
    apply before_of_pairwise (fun a b hab => hab.asymm) h.sorted hj hi'
    exact ⟨cs ++ c :: ds, cs ++ [c'], hds, hc',
      below_lt cs ((strcmp_sibling_iff hi hc').mp hlt) ds []⟩

theorem TableInv.treeNames (h : TableInv t) : TreeNames t :=
  ⟨h.distinct, fun i hu => (h.entry i hu).terminated⟩

/-- The recursion comes to its end, with a row for each entry of the tree. -/
theorem fsTreeRows_listing (hn : TreeNames t) (dir : List UInt8) {fuel : Nat}
    (hfuel : fsMaxFilename ≤ fuel) :
    ∃ rows, fsTreeRows fuel t dir = some rows ∧ TreeListing t (nameBase dir) rows := by
  have hpos : 0 < fuel := Nat.lt_of_lt_of_le (by decide) hfuel
  obtain ⟨rows, lasts, hrun, -, hrows⟩ := fsPrintTreeInternal_spec hn hpos
    (Nat.le_add_right_of_le hfuel) (show 0 < fsMaxFiles by decide)
    (Nat.zero_le (nameBase dir).length)
    (List.length_replicate : (List.replicate fsMaxFiles false).length = fsMaxFiles)
  refine ⟨rows, ?_, hrows.treeListing⟩
  unfold fsTreeRows
  rw [hrun]
  rfl

/-! ## The text -/

/-- The line of a row: four cells for each directory it is in and for its own branch, and
behind them the name, with a `/` if it is a directory. -/
def rowText (r : TreeRow) : List UInt8 :=
  (r.ancestors.flatMap fun last => if last then text "    " else [179, ch ' ', ch ' ', ch ' ']) ++
    (if r.isLast then 192 else 195) :: 196 :: 196 :: ch ' ' :: str r.name ++
    if r.isDir then text "/\n" else text "\n"

/-- The name of the directory, and a line for each row. -/
def treeText (dir : List UInt8) (rows : List TreeRow) : List UInt8 :=
  str dir ++ text "\n" ++ rows.flatMap rowText

theorem TreeRow.displays (r : TreeRow) : Displays r.calls (rowText r) := by
  have h0 : ∀ {s : List UInt8}, 0 ∉ s → 0 ∉ str r.name ++ s := by
    intro s hs h
    rcases List.mem_append.mp h with h | h
    · exact zero_not_mem_str _ h
    · exact hs h
  have hanc : Displays
      (r.ancestors.map fun last => .writestring (if last then text "    " else 179 :: text "   "))
      (r.ancestors.flatMap fun last =>
        if last then text "    " else [179, ch ' ', ch ' ', ch ' ']) := by
    rw [← List.flatMap_singleton' (r.ancestors.map _), List.flatMap_map]
    apply Displays.flatten
    rintro (_ | _) _
    · exact displays_string (by decide)
    · exact displays_string (by decide)
  have hbranch : Displays
      [.writestring (if r.isLast then [192, 196, 196, ch ' '] else [195, 196, 196, ch ' '])]
      [if r.isLast then 192 else 195, 196, 196, ch ' '] := by
    cases r.isLast
    · exact displays_string (by decide)
    · exact displays_string (by decide)
  have hname : Displays
      (if r.isDir then
        [.setcolor .lightBlue .black, .writestring (str r.name ++ text "/\n"),
          .setcolor .white .black]
      else [.writestring (str r.name ++ text "\n")])
      (str r.name ++ if r.isDir then text "/\n" else text "\n") := by
    cases r.isDir
    · exact displays_string (h0 (by decide))
    · exact (displays_string (h0 (by decide))).colored _ _ _ _
  have h := (hanc.append hbranch).append hname
  refine ⟨h.prints, h.text_eq.trans ?_⟩
  rw [rowText, List.append_assoc, List.append_assoc]
  rfl

theorem fsPrintTree_displays (dir : List UInt8) (rows : List TreeRow) :
    Displays (treeHeader dir ++ rows.flatMap TreeRow.calls) (treeText dir rows) := by
  have h0 : 0 ∉ str dir ++ text "\n" := by
    intro h
    rcases List.mem_append.mp h with h | h
    · exact zero_not_mem_str _ h
    · exact absurd h (by decide)
  exact ((displays_string h0).colored _ _ _ _).append
    (Displays.flatten fun r _ => r.displays)

/-- The part of a row in front of the name. -/
def rowBranches (r : TreeRow) : List UInt8 :=
  (r.ancestors.flatMap fun last => if last then text "    " else [179, ch ' ', ch ' ', ch ' ']) ++
    [if r.isLast then 192 else 195, 196, 196, ch ' ']

theorem rowText_eq (r : TreeRow) :
    rowText r = rowBranches r ++ (str r.name ++ if r.isDir then text "/\n" else text "\n") := by
  rw [rowText, rowBranches, List.append_assoc, List.append_assoc]
  rfl

theorem rowBranches_printable (r : TreeRow) : ∀ c ∈ rowBranches r, Printable c := by
  have hcell : ∀ last : Bool, ∀ c ∈ if last then text "    " else [179, ch ' ', ch ' ', ch ' '],
      Printable c := by
    rintro (_ | _)
    · exact forall_of_all (by decide)
    · exact forall_of_all (by decide)
  unfold rowBranches
  rw [List.forall_mem_append]
  constructor
  · intro c hc
    obtain ⟨last, _, hc⟩ := List.mem_flatMap.mp hc
    exact hcell last c hc
  · cases r.isLast
    · exact forall_of_all (by decide)
    · exact forall_of_all (by decide)

theorem rowBranches_length (r : TreeRow) :
    (rowBranches r).length = 4 * (r.ancestors.length + 1) := by
  have hcell : ∀ last : Bool,
      (if last then text "    " else [179, ch ' ', ch ' ', ch ' ']).length = 4 := by
    rintro (_ | _)
    · rfl
    · rfl
  have hanc : ∀ l : List Bool, (l.flatMap fun last =>
      if last then text "    " else [179, ch ' ', ch ' ', ch ' ']).length = 4 * l.length := by
    intro l
    induction l with
    | nil => rfl
    | cons last l ih =>
      rw [List.flatMap_cons, List.length_append, ih, hcell, List.length_cons]
      omega
  rw [rowBranches, List.length_append, hanc]
  show 4 * r.ancestors.length + 4 = _
  omega

/-- A row fits if its name fits in its column. -/
theorem tabsFit_rowText {r : TreeRow} (hdeep : r.ancestors.length < fsMaxFiles) :
    TabsFit 0 (rowText r) ↔ TabsFit (4 * (r.ancestors.length + 1)) (str r.name) := by
  have hfiles : fsMaxFiles = 32 := rfl
  have hcells : screenCells = 1920 := rfl
  have hlen := rowBranches_length r
  have hend : ch '\t' ∉ if r.isDir then text "/\n" else text "\n" := by
    split
    · decide
    · decide
  rw [rowText_eq, tabsFit_cells (rowBranches_printable r) (by omega), hlen, Nat.zero_add,
    tabsFit_append_plain hend]

theorem rowText_line {r : TreeRow} (h8 : 8 ∉ str r.name) :
    ∃ body, 8 ∉ body ∧ rowText r = body ++ [ch '\n'] := by
  have hbranch : 8 ∉ rowBranches r := fun h => (rowBranches_printable r 8 h).2.2.1 rfl
  rw [rowText_eq]
  cases r.isDir
  · refine ⟨rowBranches r ++ str r.name, ?_, by rw [List.append_assoc]; rfl⟩
    rw [List.mem_append, not_or]
    exact ⟨hbranch, h8⟩
  · refine ⟨rowBranches r ++ (str r.name ++ text "/"), ?_,
      by rw [List.append_assoc, List.append_assoc]; rfl⟩
    rw [List.mem_append, List.mem_append, not_or, not_or]
    exact ⟨hbranch, h8, by decide⟩

/-- **The tree fits** if every name fits in its column. -/
theorem tabsFit_treeText {rows : List TreeRow} (htab : ch '\t' ∉ str dir)
    (hrows : ∀ r ∈ rows, 8 ∉ str r.name ∧ r.ancestors.length < fsMaxFiles) (pos : Nat) :
    TabsFit pos (treeText dir rows) ↔
      ∀ r ∈ rows, TabsFit (4 * (r.ancestors.length + 1)) (str r.name) := by
  have hhead : ch '\t' ∉ str dir ++ [ch '\n'] := by
    rw [List.mem_append, not_or]
    exact ⟨htab, by decide⟩
  obtain ⟨p, hp⟩ := cursorAfter_plain hhead pos
  have hlines := tabsFit_lines (fun r hr => rowText_line (hrows r hr).1) (cursorAfter_newline hp)
  have hfit : TabsFit pos (treeText dir rows) ↔ TabsFit p (rows.flatMap rowText) := by
    show TabsFit pos (str dir ++ [ch '\n'] ++ _) ↔ _
    rw [tabsFit_append, hp]
    constructor
    · rintro ⟨q, hq, h⟩
      cases hq
      exact h
    · exact fun h => ⟨p, rfl, h⟩
  rw [hfit, hlines]
  constructor
  · intro h r hr
    exact (tabsFit_rowText (hrows r hr).2).mp (h r hr)
  · intro h r hr
    exact (tabsFit_rowText (hrows r hr).2).mpr (h r hr)

theorem fsPrintTree_rows {fuel : Nat} {rows : List TreeRow}
    (h : fsTreeRows fuel t dir = some rows) :
    fsPrintTree fuel t dir = some (treeHeader dir ++ rows.flatMap TreeRow.calls) := by
  unfold fsPrintTree
  rw [h]
  rfl

/-- **The tree.**  Its entries are told once each, an entry after its directory and before the
directory's next sibling; and they are all printed, exactly if their tabs fit. -/
theorem fsPrintTree_listing_iff (hn : TreeNames t) (dir : List UInt8) {fuel : Nat}
    (hfuel : fsMaxFilename ≤ fuel) {term : Terminal} (hterm : terminalMachine.Reach term) :
    ∃ rows, TreeListing t (nameBase dir) rows ∧
      ∃ out, fsPrintTree fuel t dir = some out ∧ printedText out = treeText dir rows ∧
        (CallsReturn term out ↔ TabsFit term.grid.pos (treeText dir rows)) := by
  obtain ⟨rows, hrows, hlist⟩ := fsTreeRows_listing hn dir hfuel
  have hd := fsPrintTree_displays dir rows
  exact ⟨rows, hlist, _, fsPrintTree_rows hrows, hd.text_eq, hd.return_iff hterm⟩

/-- A name that can be typed behind `  Enter filename: `, where its last two tabs are in columns 0
and 8 of the next row.  In the tree the last one is in column 72. -/
def tabbedName : List UInt8 :=
  text "/root/" ++ List.replicate 6 (ch '\t') ++ List.replicate 8 (ch 'a') ++ text "\t\t"

/-- The tree of `/` with a new file in it. -/
def treeWith (name : List UInt8) : Option (FsTable × List TerminalCall) := do
  let t ← fsInit
  let r ← fsCreate t name
  let out ← fsPrintTree fsMaxFilename r.table (text "/")
  some (r.table, out)

theorem treeWith_reach {name : List UInt8} {out : List TerminalCall}
    (h : treeWith name = some (t, out)) :
    fsMachine.Reach t ∧ fsPrintTree fsMaxFilename t (text "/") = some out := by
  unfold treeWith at h
  simp only [Option.bind_eq_bind, Option.bind_eq_some_iff, Option.some.injEq, Prod.mk.injEq] at h
  obtain ⟨t₀, hinit, r, hr, _, hout, rfl, rfl⟩ := h
  refine ⟨(Machine.Reach.init hinit).step (e := .create name) trivial (o := (r.ret, [])) ?_, hout⟩
  show (fsCreate t₀ name).map _ = _
  rw [hr]
  rfl

/-- In the tree the tab of `/root/a\tb` is in column 9. -/
theorem fsPrintTree_listing_iff_tab : ∃ t out, fsMachine.Reach t ∧
    fsPrintTree fsMaxFilename t (text "/") = some out ∧ CallsReturn (terminalAtCol 3) out := by
  obtain ⟨t, out, htree, htext⟩ : ∃ t out, treeWith (text "/root/a\tb") = some (t, out) ∧
      TabsFit 3 (printedText out) := by
    refine ⟨_, _, rfl, ?_⟩
    decide +kernel
  obtain ⟨hreach, hrun⟩ := treeWith_reach htree
  obtain ⟨rows, -, out', hrun', hprinted, hiff⟩ := fsPrintTree_listing_iff
    (fs_reach_inv hreach).treeNames (text "/") (Nat.le_refl _) (terminalAtCol_reach 3)
  rw [hrun] at hrun'
  cases hrun'
  exact ⟨t, out, hreach, hrun, hiff.mpr (hprinted ▸ htext)⟩

/-- `dtree /` never comes back from the line of this file. -/
theorem fsPrintTree_hangs : TabsFit 18 tabbedName ∧ ∃ t out, fsMachine.Reach t ∧
    fsPrintTree fsMaxFilename t (text "/") = some out ∧
    ∀ fuel, runCalls fuel (terminalAtCol 0) out = none := by
  refine ⟨by decide +kernel, ?_⟩
  obtain ⟨t, out, htree, htext⟩ : ∃ t out, treeWith tabbedName = some (t, out) ∧
      ¬ TabsFit 0 (printedText out) := by
    refine ⟨_, _, rfl, ?_⟩
    decide +kernel
  obtain ⟨hreach, hrun⟩ := treeWith_reach htree
  obtain ⟨rows, hrows, -⟩ := Option.bind_eq_some_iff.mp hrun
  have hd := fsPrintTree_displays (text "/") rows
  rw [fsPrintTree_rows hrows] at hrun
  cases hrun
  rw [hd.text_eq] at htext
  exact ⟨t, _, hreach, fsPrintTree_rows hrows, hd.hangs (terminalAtCol_reach 0) htext⟩

/-- `/root/b` has what is below it between itself and `/root/c`. -/
example :
    (do
      let t ← fsInit
      let r ← fsCreate t (text "/root/c")
      let r ← fsCreateDir r.table (text "/root/b")
      let r ← fsCreate r.table (text "/root/b/x")
      (fsTreeRows 64 r.table (text "/")).map (·.map fun r => (r.ancestors, r.isLast, str r.name))) =
      some [([], true, text "root"), ([true], false, text "b"), ([true, false], true, text "x"),
        ([true], true, text "c")] := by
  rfl

end MiniOS
