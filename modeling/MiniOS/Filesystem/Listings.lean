import MiniOS.Filesystem.Refinement
import MiniOS.Filesystem.TreeListing
import MiniOS.Memory.Numbers

/-!
# The flat listing and the tree

`fs_list_dir` and `fs_print_tree_internal` test the names for the children of a
directory in the same way but for an empty child name, which only the tree
leaves out (`isTreeChild_iff_listed`).  So both tell the same entries exactly if
no entry is named as the directory with a `/` behind it; and both come to their
end exactly if the tabs of what they print fit (`listings_agree_iff`).
-/

namespace MiniOS

open Lib

variable {t : FsTable} {dir : List UInt8} {i : Fin fsMaxFiles}

/-! ## The listing -/

/-- The entries `fs_list_dir` prints a line for, with the names in the lines. -/
def listed (t : FsTable) (dir : List UInt8) : List (Fin fsMaxFiles × List UInt8) :=
  (List.finRange fsMaxFiles).filterMap fun i =>
    (listedChild dir (t i)).map fun child => (i, str child)

/-- The line behind the entries. -/
def listTotal (n : Nat) : List TerminalCall :=
  if n = 0 then [.writestring (text "  (no files)\n")]
  else [.writestring (text "  " ++ decimal n ++ text " item(s)\n")]

theorem fsListDir_eq (t : FsTable) (dir : List UInt8) :
    fsListDir t dir =
      (listed t dir).flatMap (fun p => listLine (t p.1) p.2) ++ listTotal (listed t dir).length := by
  have hline : ∀ e child, listLine e (str child) = listLine e child := by
    intro e child
    unfold listLine
    rw [str_of_not_mem (zero_not_mem_str child)]
  have hlines : ((List.finRange fsMaxFiles).filterMap fun i =>
      (listedChild dir (t i)).map (listLine (t i))) =
        (listed t dir).map fun p => listLine (t p.1) p.2 := by
    unfold listed
    rw [List.map_filterMap]
    simp only [Option.map_map, Function.comp_def, hline]
  unfold fsListDir listTotal
  simp only [hlines, List.length_map, List.flatMap_def]

/-- A child name is the name the tree prints. -/
theorem childName_relative {fname child : List UInt8} (h : childName dir fname = some child) :
    child = relativeName dir fname := by
  unfold childName at h
  unfold relativeName
  split at h
  · rename_i hroot
    rw [if_pos hroot]
    split at h
    · exact (Option.some.inj h).symm
    · cases h
  · rename_i hroot
    rw [if_neg hroot]
    split at h
    · exact (Option.some.inj h).symm
    · cases h

theorem listedChild_relative {e : FileEntry} {child : List UInt8}
    (h : listedChild dir e = some child) : child = relativeName dir e.name.bytes := by
  unfold listedChild at h
  split at h
  · exact childName_relative (Option.filter_eq_some_iff.mp h).1
  · cases h

theorem listedChild_isSome_iff (e : FileEntry) : (listedChild dir e).isSome ↔
    e.used ∧ ∃ c, str e.name.bytes = nameBase dir ++ [ch '/'] ++ c ∧ ch '/' ∉ c := by
  have hslash : ch '/' ≠ 0 := by decide
  unfold listedChild
  rw [childName_eq]
  by_cases hu : e.used
  · rw [if_pos hu, and_iff_right hu]
    by_cases hpre : nameBase dir ++ [ch '/'] <+: str e.name.bytes
    · obtain ⟨c, hc⟩ := hpre
      rw [if_pos ⟨c, hc⟩, Option.filter_some]
      have hkeep : (strchr (e.name.bytes.drop (nameBase dir ++ [ch '/']).length) (ch '/')).isNone ↔
          ch '/' ∉ c := by
        rw [strchr_isNone_iff _ hslash, str_drop_append hc.symm]
      by_cases hno : ch '/' ∉ c
      · rw [if_pos (hkeep.mpr hno)]
        exact iff_of_true rfl ⟨c, hc.symm, hno⟩
      · rw [if_neg (fun h => hno (hkeep.mp h))]
        refine iff_of_false Bool.false_ne_true ?_
        rintro ⟨c', hc', hno'⟩
        rw [← hc] at hc'
        exact hno (List.append_cancel_left hc' ▸ hno')
    · rw [if_neg hpre]
      refine iff_of_false Bool.false_ne_true ?_
      rintro ⟨c, hc, -⟩
      exact hpre ⟨c, hc.symm⟩
  · rw [if_neg hu]
    exact iff_of_false Bool.false_ne_true fun h => hu h.1

/-- **The two tests.**  The tree leaves out an empty child name. -/
theorem isTreeChild_iff_listed (e : FileEntry) : isTreeChild dir e ↔
    (listedChild dir e).isSome ∧ str (relativeName dir e.name.bytes) ≠ [] := by
  unfold isTreeChild listedChild
  by_cases hu : e.used
  · rw [if_pos hu, if_pos hu]
    cases hc : childName dir e.name.bytes with
    | none => exact iff_of_false Bool.false_ne_true fun h => Bool.false_ne_true h.1
    | some child =>
      rw [← childName_relative hc, Option.filter_some]
      show (decide (strlen child > 0) && (strchr child (ch '/')).isNone) = true ↔ _
      rw [Bool.and_eq_true, decide_eq_true_iff, strlen_eq, gt_iff_lt, List.length_pos_iff]
      by_cases hno : (strchr child (ch '/')).isNone
      · rw [if_pos hno]
        exact ⟨fun h => ⟨rfl, h.1⟩, fun h => ⟨h.2, hno⟩⟩
      · rw [if_neg hno]
        exact iff_of_false (fun h => hno h.2) fun h => Bool.false_ne_true h.1
  · rw [if_neg hu, if_neg hu]
    exact iff_of_false Bool.false_ne_true fun h => Bool.false_ne_true h.1

theorem listed_eq (t : FsTable) (dir : List UInt8) :
    listed t dir = ((List.finRange fsMaxFiles).filter fun i => (listedChild dir (t i)).isSome).map
      fun i => (i, str (relativeName dir (t i).name.bytes)) := by
  unfold listed
  induction List.finRange fsMaxFiles with
  | nil => rfl
  | cons i is ih =>
    cases hc : listedChild dir (t i) with
    | none =>
      have hno : ¬ (listedChild dir (t i)).isSome := by
        rw [hc]
        exact Bool.false_ne_true
      rw [List.filterMap_cons, hc, List.filter_cons, if_neg hno]
      exact ih
    | some child =>
      have hyes : (listedChild dir (t i)).isSome := by
        rw [hc]
        rfl
      rw [List.filterMap_cons, hc, List.filter_cons, if_pos hyes, List.map_cons, ← ih,
        ← listedChild_relative hc]
      rfl

/-- A line without a name is one of an entry that is named as the directory and a `/`. -/
theorem listed_empty_iff (h : TableInv t) :
    (∃ i, (listedChild dir (t i)).isSome ∧ str (relativeName dir (t i).name.bytes) = []) ↔
      nameBase dir ++ [ch '/'] ∈ fsMap t := by
  rw [mem_fsMap_iff h]
  constructor
  · rintro ⟨i, hsome, hempty⟩
    obtain ⟨hu, c, hc, -⟩ := (listedChild_isSome_iff _).mp hsome
    rw [str_relativeName_append hc] at hempty
    exact ⟨i, hu, by rw [hc, hempty, List.append_nil]⟩
  · rintro ⟨i, hu, hname⟩
    rw [← List.append_nil (nameBase dir ++ [ch '/'])] at hname
    exact ⟨i, (listedChild_isSome_iff _).mpr ⟨hu, [], hname, List.not_mem_nil⟩,
      str_relativeName_append hname⟩

/-! ## The rows without indentation -/

def TreeRow.depth (r : TreeRow) : Nat := r.ancestors.length

/-- The rows at depth 0, with their names. -/
def topRows (rows : List TreeRow) : List (Fin fsMaxFiles × List UInt8) :=
  (rows.filter (·.depth = 0)).map fun r => (r.idx, str r.name)

theorem mapM_length {α β : Type*} {f : α → Option β} {l : List α} {l' : List β}
    (h : l.mapM f = some l') : l'.length = l.length := by
  induction l generalizing l' with
  | nil =>
    cases h
    rfl
  | cons a l ih =>
    rw [List.mapM_cons] at h
    obtain ⟨b, _, h⟩ := Option.bind_eq_some_iff.mp h
    obtain ⟨bs, hbs, h⟩ := Option.bind_eq_some_iff.mp h
    cases h
    rw [List.length_cons, List.length_cons, ih hbs]

section

variable {depth : Nat} {print : List UInt8 → Nat → List Bool → Option (List TreeRow × List Bool)}

/-- **The last loop.**  A row of its own for each child, and those of the calls below. -/
theorem printChildren_depth {children : List (Fin fsMaxFiles)} {lasts lasts' : List Bool}
    {rows : List TreeRow}
    (hdeep : ∀ k lasts rows lasts', print (t k).name.bytes (depth + 1) lasts = some (rows, lasts') →
      ∀ r ∈ rows, depth + 1 ≤ r.depth)
    (hrun : printChildren t dir depth print children lasts = some (rows, lasts')) :
    (∀ r ∈ rows, depth ≤ r.depth) ∧
      (rows.filter (·.depth = depth)).map (fun r => (r.idx, r.name)) =
        children.map fun k => (k, relativeName dir (t k).name.bytes) := by
  induction children generalizing lasts rows lasts' with
  | nil =>
    cases hrun
    exact ⟨fun _ hr => absurd hr List.not_mem_nil, rfl⟩
  | cons k children ih =>
    rw [printChildren] at hrun
    obtain ⟨ancestors, hanc, hrun⟩ := Option.bind_eq_some_iff.mp hrun
    obtain ⟨⟨below, lasts₁⟩, hbelow, hrun⟩ := Option.bind_eq_some_iff.mp hrun
    obtain ⟨⟨later, lasts₂⟩, hlater, hrun⟩ := Option.bind_eq_some_iff.mp hrun
    cases hrun
    obtain ⟨hle, hmap⟩ := ih hlater
    have hlen : ancestors.length = depth := (mapM_length hanc).trans List.length_range
    have hlow : ∀ r ∈ below, depth + 1 ≤ r.depth := by
      unfold printBelow at hbelow
      split at hbelow
      · obtain ⟨lasts₃, _, hprint⟩ := Option.bind_eq_some_iff.mp hbelow
        exact hdeep k _ _ _ hprint
      · cases hbelow
        exact fun _ hr => absurd hr List.not_mem_nil
    constructor
    · intro r hr
      rcases List.mem_append.mp hr with hr | hr
      · rcases List.mem_cons.mp hr with rfl | hr
        · exact Nat.le_of_eq hlen.symm
        · exact Nat.le_of_succ_le (hlow r hr)
      · exact hle r hr
    · have hnone : below.filter (·.depth = depth) = [] := by
        rw [List.filter_eq_nil_iff]
        intro r hr hd
        have := hlow r hr
        have := of_decide_eq_true hd
        omega
      rw [List.cons_append, List.filter_cons, if_pos (by exact decide_eq_true hlen),
        List.filter_append, hnone, List.nil_append, List.map_cons, hmap, List.map_cons]

end

/-- All rows of a call are as deep as the call. -/
theorem fsPrintTreeInternal_depth {fuel depth : Nat} {lasts lasts' : List Bool}
    {rows : List TreeRow}
    (hrun : fsPrintTreeInternal t fuel dir depth lasts = some (rows, lasts')) :
    ∀ r ∈ rows, depth ≤ r.depth := by
  induction fuel generalizing dir depth lasts rows lasts' with
  | zero => cases hrun
  | succ fuel ih =>
    rw [fsPrintTreeInternal] at hrun
    obtain ⟨scanned, _, hrun⟩ := Option.bind_eq_some_iff.mp hrun
    obtain ⟨children, _, hrun⟩ := Option.bind_eq_some_iff.mp hrun
    exact (printChildren_depth (fun k _ _ _ hprint => ih hprint) hrun).1

/-- **Depth 0** has a row for each child. -/
theorem topRows_perm {fuel : Nat} {rows : List TreeRow} (hrows : fsTreeRows fuel t dir = some rows) :
    (topRows rows).Perm (((List.finRange fsMaxFiles).filter fun i => isTreeChild dir (t i)).map
      fun i => (i, str (relativeName dir (t i).name.bytes))) := by
  obtain ⟨⟨rows, lasts⟩, hrun, rfl⟩ := Option.map_eq_some_iff.mp hrows
  cases fuel with
  | zero => cases hrun
  | succ fuel =>
    obtain ⟨children, hsort, hperm, -⟩ := sortChildren_spec t
      ((List.finRange fsMaxFiles).filter fun i => isTreeChild dir (t i))
    rw [fsPrintTreeInternal, scanChildren_eq] at hrun
    simp only [Option.bind_eq_bind, Option.bind_some, hsort] at hrun
    obtain ⟨-, hmap⟩ := printChildren_depth
      (fun k _ _ _ hprint => fsPrintTreeInternal_depth hprint) hrun
    have htop : topRows rows = children.map fun i => (i, str (relativeName dir (t i).name.bytes)) := by
      have hstr := congrArg (List.map fun p : Fin fsMaxFiles × List UInt8 => (p.1, str p.2)) hmap
      rw [List.map_map, List.map_map] at hstr
      exact hstr
    show (topRows rows).Perm _
    rw [htop]
    exact hperm.map _

/-! ## The two listings -/

/-- The listings show the same entries, and each with a name, exactly if no name is empty. -/
theorem listed_perm_iff (h : TableInv t) {fuel : Nat} {rows : List TreeRow}
    (hrows : fsTreeRows fuel t dir = some rows) :
    ((listed t dir).Perm (topRows rows) ∧ ∀ p ∈ listed t dir, p.2 ≠ []) ↔
      nameBase dir ++ [ch '/'] ∉ fsMap t := by
  have htop := topRows_perm hrows
  rw [← listed_empty_iff h]
  constructor
  · rintro ⟨-, hne⟩ ⟨i, hsome, hempty⟩
    refine hne (i, str (relativeName dir (t i).name.bytes)) ?_ hempty
    rw [listed_eq]
    exact List.mem_map_of_mem (List.mem_filter.mpr ⟨List.mem_finRange i, hsome⟩)
  · intro hno
    have hne : ∀ i, (listedChild dir (t i)).isSome → str (relativeName dir (t i).name.bytes) ≠ [] :=
      fun i hsome hempty => hno ⟨i, hsome, hempty⟩
    have hsame : ((List.finRange fsMaxFiles).filter fun i => isTreeChild dir (t i)) =
        (List.finRange fsMaxFiles).filter fun i => (listedChild dir (t i)).isSome := by
      apply List.filter_congr
      intro i _
      rw [Bool.eq_iff_iff, isTreeChild_iff_listed]
      exact ⟨And.left, fun hsome => ⟨hsome, hne i hsome⟩⟩
    refine ⟨?_, ?_⟩
    · rw [listed_eq, ← hsame]
      exact htop.symm
    · intro p hp
      rw [listed_eq] at hp
      obtain ⟨i, hi, rfl⟩ := List.mem_map.mp hp
      exact hne i (List.mem_filter.mp hi).2

/-- The lines of a flat listing: the entries whose names go on from `base` with one `/`, in the
order of the table, and what is behind the `/`. -/
structure FlatListing (t : FsTable) (base : List UInt8) (lines : List (Fin fsMaxFiles × List UInt8)) :
    Prop where
  sorted : lines.Pairwise fun p q => p.1 < q.1
  mem_iff : ∀ i c, (i, c) ∈ lines ↔
    (t i).used ∧ str (t i).name.bytes = base ++ [ch '/'] ++ c ∧ ch '/' ∉ c

theorem listed_flatListing (t : FsTable) (dir : List UInt8) :
    FlatListing t (nameBase dir) (listed t dir) := by
  rw [listed_eq]
  constructor
  · rw [List.pairwise_map]
    exact (List.pairwise_lt_finRange _).filter _
  · intro i c
    rw [List.mem_map]
    constructor
    · rintro ⟨j, hj, heq⟩
      obtain ⟨rfl, rfl⟩ := Prod.mk.inj heq
      obtain ⟨hu, c, hname, hno⟩ := (listedChild_isSome_iff _).mp (List.mem_filter.mp hj).2
      rw [str_relativeName_append hname]
      exact ⟨hu, hname, hno⟩
    · rintro ⟨hu, hname, hno⟩
      refine ⟨i, List.mem_filter.mpr ⟨List.mem_finRange i, ?_⟩, ?_⟩
      · exact (listedChild_isSome_iff _).mpr ⟨hu, c, hname, hno⟩
      · rw [str_relativeName_append hname]

/-! ## The text of the listing -/

/-- The line of an entry: its name in 24 columns, and what it is. -/
def lineText (e : FileEntry) (name : List UInt8) : List UInt8 :=
  text "  " ++ name ++ List.replicate (24 - name.length) (ch ' ') ++
    if e.isDir then text "  <DIR>\n" else text "  (" ++ decimal e.size.toNat ++ text " bytes)\n"

/-- The lines, and how many there are. -/
def listText (t : FsTable) (lines : List (Fin fsMaxFiles × List UInt8)) : List UInt8 :=
  (lines.flatMap fun p => lineText (t p.1) p.2) ++
    if lines = [] then text "  (no files)\n"
    else text "  " ++ decimal lines.length ++ text " item(s)\n"

theorem listLine_displays (e : FileEntry) (child : List UInt8) :
    Displays (listLine e child) (lineText e (str child)) := by
  have h0 : ∀ {s : List UInt8}, 0 ∉ s →
      0 ∉ text "  " ++ str child ++ List.replicate (24 - (str child).length) (ch ' ') ++ s := by
    intro s hs
    simp only [List.mem_append, List.mem_replicate, not_or]
    exact ⟨⟨⟨by decide, zero_not_mem_str child⟩, fun h => absurd h.2 (by decide)⟩, hs⟩
  unfold listLine lineText padRight
  rw [← List.append_assoc (text "  ")]
  split
  · exact (displays_string (h0 (by decide))).colored _ _ _ _
  · rw [List.append_assoc _ (text "  ("), List.append_assoc _ (_ ++ _)]
    refine displays_string (h0 ?_)
    simp only [List.mem_append, not_or]
    exact ⟨⟨by decide, zero_notMem_decimal _⟩, by decide⟩

theorem listTotal_displays (n : Nat) : Displays (listTotal n)
    (if n = 0 then text "  (no files)\n" else text "  " ++ decimal n ++ text " item(s)\n") := by
  unfold listTotal
  split
  · exact displays_string (by decide)
  · apply displays_string
    simp only [List.mem_append, not_or]
    exact ⟨⟨by decide, zero_notMem_decimal n⟩, by decide⟩

theorem fsListDir_displays (t : FsTable) (dir : List UInt8) :
    Displays (fsListDir t dir) (listText t (listed t dir)) := by
  rw [fsListDir_eq]
  refine Displays.append (Displays.flatten ?_) ?_
  · intro p hp
    obtain ⟨i, -, hi⟩ := List.mem_filterMap.mp hp
    obtain ⟨child, -, rfl⟩ := Option.map_eq_some_iff.mp hi
    have hd := listLine_displays (t i) (str child)
    rw [str_of_not_mem (zero_not_mem_str child)] at hd
    exact hd
  · have hd := listTotal_displays (listed t dir).length
    simp only [List.length_eq_zero_iff] at hd
    exact hd

/-! ## The tabs of the listing -/

/-- **Two listings.**  `fs_list_dir` and `fs_print_tree` both come to their end, and the entries
of the one are those of the other at depth 0, with the same names and none of them empty,
exactly if no entry is named as the directory with a `/` behind it and the tabs of both texts
fit. -/
theorem listings_agree_iff (h : fsMachine.Reach t) (dir : List UInt8) {fuel : Nat}
    (hfuel : fsMaxFilename ≤ fuel) {term : Terminal} (hterm : terminalMachine.Reach term) :
    ∃ lines rows out, FlatListing t (nameBase dir) lines ∧ TreeListing t (nameBase dir) rows ∧
      printedText (fsListDir t dir) = listText t lines ∧
      fsPrintTree fuel t dir = some out ∧ printedText out = treeText dir rows ∧
      ((CallsReturn term (fsListDir t dir) ∧ CallsReturn term out ∧
          lines.Perm (topRows rows) ∧ ∀ p ∈ lines, p.2 ≠ []) ↔
        nameBase dir ++ [ch '/'] ∉ fsMap t ∧ TabsFit term.grid.pos (listText t lines) ∧
          TabsFit term.grid.pos (treeText dir rows)) := by
  have hinv := fs_reach_inv h
  obtain ⟨rows, hrows, htree⟩ := fsTreeRows_listing hinv.treeNames dir hfuel
  have hflat := fsListDir_displays t dir
  have hdeep := fsPrintTree_displays dir rows
  refine ⟨listed t dir, rows, _, listed_flatListing t dir, htree, hflat.text_eq,
    fsPrintTree_rows hrows, hdeep.text_eq, ?_⟩
  rw [hflat.return_iff hterm, hdeep.return_iff hterm, ← listed_perm_iff hinv hrows]
  constructor
  · rintro ⟨hlist, hprint, hagree⟩
    exact ⟨hagree, hlist, hprint⟩
  · rintro ⟨hagree, hlist, hprint⟩
    exact ⟨hlist, hprint, hagree⟩

theorem listings_agree_iff_boot : ∃ t lines rows, fsMachine.Reach t ∧
    printedText (fsListDir t (text "/")) = listText t lines ∧ TreeListing t [] rows ∧
      CallsReturn (terminalAtCol 0) (fsListDir t (text "/")) ∧ lines.Perm (topRows rows) := by
  obtain ⟨t, out, ht, hrun, hlist, hprint⟩ : ∃ t out, fsInit = some t ∧
      fsPrintTree fsMaxFilename t (text "/") = some out ∧
      TabsFit 0 (printedText (fsListDir t (text "/"))) ∧ TabsFit 0 (printedText out) := by
    refine ⟨_, _, rfl, rfl, ?_⟩
    decide +kernel
  have hmap : fsMap t = rootMap := by
    obtain ⟨t₀, ht₀, -, hmap⟩ := fsInit_spec
    rw [ht] at ht₀
    cases ht₀
    exact hmap
  have hreach : fsMachine.Reach t := Machine.Reach.init ht
  obtain ⟨lines, rows, _, -, hrows, hflat, hrun', hdeep, hiff⟩ := listings_agree_iff hreach (text "/")
    (Nat.le_refl fsMaxFilename) (terminalAtCol_reach 0)
  rw [hrun] at hrun'
  cases hrun'
  obtain ⟨hback, -, hperm, -⟩ := hiff.mpr
    ⟨by rw [hmap]; decide, hflat ▸ hlist, hdeep ▸ hprint⟩
  exact ⟨t, lines, rows, hreach, hflat, hrows, hback, hperm⟩

/-- Once `/root/` is made, the listing of `/root` shows a directory without a name, and the
tree shows nothing. -/
theorem listings_differ : ∃ t out, fsMachine.Reach t ∧
    printedText (fsListDir t (text "/root")) =
      text "  " ++ List.replicate 24 (ch ' ') ++ text "  <DIR>\n  1 item(s)\n" ∧
    fsPrintTree fsMaxFilename t (text "/root") = some out ∧ printedText out = text "/root\n" := by
  obtain ⟨t₀, r, out, hinit, hr, hrun, hlist, hprint⟩ : ∃ t₀ r out, fsInit = some t₀ ∧
      fsCreateDir t₀ (text "/root/") = some r ∧
      fsPrintTree fsMaxFilename r.table (text "/root") = some out ∧
      printedText (fsListDir r.table (text "/root")) =
        text "  " ++ List.replicate 24 (ch ' ') ++ text "  <DIR>\n  1 item(s)\n" ∧
      printedText out = text "/root\n" := by
    refine ⟨_, _, _, rfl, rfl, rfl, ?_⟩
    decide +kernel
  refine ⟨r.table, out, ?_, hlist, hrun, hprint⟩
  refine (Machine.Reach.init hinit).step (e := .createDir (text "/root/")) trivial (o := (r.ret, [])) ?_
  show (fsCreateDir t₀ _).map _ = _
  rw [hr]
  rfl

end MiniOS
