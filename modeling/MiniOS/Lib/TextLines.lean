import Mathlib.Data.List.Basic
import Mathlib.Data.List.FinRange
import Mathlib.Data.List.OfFn

/-!
# The lines and the words of a text

A text is cut at a separator; nothing behind the last separator is no line
(`textLines`).  Every text is some terminated lines and a rest without a
separator (`exists_lines`), which is the form a scanner meets it in.  `numbered`
gives each line its number, `wordCount` counts the runs between blanks.

The last part is about searching: `FirstAt` is the first place a pattern stands
at.
-/

namespace Lib

universe u v

section
variable {α : Type u} [DecidableEq α]

/-- What stands between the separators, but for nothing behind the last one. -/
def textLines (sep : α) (s : List α) : List (List α) :=
  if (s.splitOn sep).getLast? = some [] then (s.splitOn sep).dropLast else s.splitOn sep

/-- The lines, each ended by the separator. -/
def terminated (sep : α) (ls : List (List α)) : List α := ls.flatMap (· ++ [sep])

omit [DecidableEq α] in
@[simp] theorem terminated_nil (sep : α) : terminated sep [] = [] := rfl

omit [DecidableEq α] in
theorem terminated_cons_append (sep : α) (l : List α) (ls : List (List α)) (rest : List α) :
    terminated sep (l :: ls) ++ rest = l ++ sep :: (terminated sep ls ++ rest) := by
  unfold terminated
  rw [List.flatMap_cons, List.append_assoc, List.append_assoc, List.singleton_append]

omit [DecidableEq α] in
/-- What is not in the text is in no line. -/
theorem not_mem_of_terminated {sep x : α} {ls : List (List α)} {rest : List α}
    (h : x ∉ terminated sep ls ++ rest) : (∀ l ∈ ls, x ∉ l) ∧ x ∉ rest := by
  rw [List.mem_append, not_or] at h
  refine ⟨?_, h.2⟩
  intro l hl hx
  exact h.1 (List.mem_flatMap.mpr ⟨l, hl, List.mem_append_left _ hx⟩)

theorem splitOn_terminated {sep : α} {ls : List (List α)} {rest : List α}
    (hls : ∀ l ∈ ls, sep ∉ l) (hrest : sep ∉ rest) :
    (terminated sep ls ++ rest).splitOn sep = ls ++ [rest] := by
  induction ls with
  | nil => exact List.splitOn_eq_singleton hrest
  | cons l ls ih =>
    obtain ⟨hl, hls⟩ := List.forall_mem_cons.mp hls
    rw [terminated_cons_append, List.splitOn_append_cons_self_of_not_mem hl, ih hls,
      List.cons_append]

/-- **Lines and a rest.** -/
theorem exists_lines (sep : α) (s : List α) : ∃ ls rest, s = terminated sep ls ++ rest ∧
    (∀ l ∈ ls, sep ∉ l) ∧ sep ∉ rest := by
  induction s with
  | nil => exact ⟨[], [], rfl, (List.forall_mem_nil _), List.not_mem_nil⟩
  | cons c s ih =>
    obtain ⟨ls, rest, rfl, hls, hrest⟩ := ih
    by_cases hc : c = sep
    · subst hc
      exact ⟨[] :: ls, rest, rfl, List.forall_mem_cons.mpr ⟨List.not_mem_nil, hls⟩, hrest⟩
    · cases ls with
      | nil => exact ⟨[], c :: rest, rfl, hls, List.not_mem_cons_of_ne_of_not_mem (Ne.symm hc) hrest⟩
      | cons l ls =>
        obtain ⟨hl, hls⟩ := List.forall_mem_cons.mp hls
        exact ⟨(c :: l) :: ls, rest, rfl,
          List.forall_mem_cons.mpr ⟨List.not_mem_cons_of_ne_of_not_mem (Ne.symm hc) hl, hls⟩, hrest⟩

theorem textLines_terminated {sep : α} {ls : List (List α)} {rest : List α}
    (hls : ∀ l ∈ ls, sep ∉ l) (hrest : sep ∉ rest) :
    textLines sep (terminated sep ls ++ rest) = ls ++ if rest = [] then [] else [rest] := by
  unfold textLines
  rw [splitOn_terminated hls hrest, List.getLast?_concat, List.dropLast_concat]
  by_cases hnil : rest = []
  · rw [if_pos hnil, if_pos (congrArg some hnil), List.append_nil]
  · rw [if_neg hnil, if_neg (fun h => hnil (Option.some.inj h))]

theorem count_terminated {sep : α} {ls : List (List α)} (hls : ∀ l ∈ ls, sep ∉ l) :
    (terminated sep ls).count sep = ls.length := by
  induction ls with
  | nil => rfl
  | cons l ls ih =>
    obtain ⟨hl, hls⟩ := List.forall_mem_cons.mp hls
    unfold terminated at ih ⊢
    rw [List.flatMap_cons, List.count_append, List.count_append, ih hls, List.count_eq_zero.mpr hl,
      List.count_singleton_self, List.length_cons]
    omega

/-- Counting the separators, and a rest that is not ended by one. -/
theorem length_textLines (sep : α) (s : List α) :
    (textLines sep s).length = s.count sep + if s.getLast?.any (· ≠ sep) then 1 else 0 := by
  obtain ⟨ls, rest, rfl, hls, hrest⟩ := exists_lines sep s
  rw [textLines_terminated hls hrest, List.length_append, List.count_append, count_terminated hls,
    List.count_eq_zero.mpr hrest, Nat.add_zero]
  congr 1
  rcases List.eq_nil_or_concat rest with rfl | ⟨front, c, rfl⟩
  · rw [if_pos rfl, List.append_nil]
    rcases List.eq_nil_or_concat ls with rfl | ⟨ls, l, rfl⟩
    · rfl
    · have hlast : (terminated sep (ls.concat l)).getLast? = some sep := by
        unfold terminated
        rw [List.concat_eq_append, List.flatMap_append, List.flatMap_singleton, ← List.append_assoc,
          List.getLast?_concat]
      rw [hlast, if_neg (by simp)]
      rfl
  · have hc : c ≠ sep := by
      rintro rfl
      exact hrest (by simp)
    rw [List.concat_eq_append, if_neg (by simp), ← List.append_assoc, List.getLast?_concat,
      if_pos (by simpa using hc)]
    rfl

theorem length_textLines_le (sep : α) (s : List α) : (textLines sep s).length ≤ s.length + 1 := by
  rw [length_textLines]
  have := List.count_le_length (l := s) (a := sep)
  split
  · omega
  · omega

end

/-! ## Numbers -/

section
variable {α : Type u} {β : Type v}

/-- What `f` makes of each item and its number, counted from `k`. -/
def numbered (f : Nat → α → List β) (k : Nat) (ls : List α) : List β :=
  (ls.zipIdx k).flatMap fun l => f l.2 l.1

@[simp] theorem numbered_nil (f : Nat → α → List β) (k : Nat) : numbered f k [] = [] := rfl

theorem numbered_cons (f : Nat → α → List β) (k : Nat) (l : α) (ls : List α) :
    numbered f k (l :: ls) = f k l ++ numbered f (k + 1) ls := rfl

theorem numbered_singleton (f : Nat → α → List β) (k : Nat) (l : α) :
    numbered f k [l] = f k l := by
  rw [numbered_cons, numbered_nil, List.append_nil]

theorem numbered_congr {f g : Nat → α → List β} {ls : List α} (h : ∀ l ∈ ls, ∀ i, f i l = g i l)
    (k : Nat) : numbered f k ls = numbered g k ls := by
  induction ls generalizing k with
  | nil => rfl
  | cons l ls ih =>
    obtain ⟨hl, hls⟩ := List.forall_mem_cons.mp h
    rw [numbered_cons, numbered_cons, hl k, ih hls]

theorem numbered_append (f : Nat → α → List β) (k : Nat) (ls ms : List α) :
    numbered f k (ls ++ ms) = numbered f k ls ++ numbered f (k + ls.length) ms := by
  unfold numbered
  rw [List.zipIdx_append, List.flatMap_append]

/-- The first rows of a table, those in use, in their order. -/
theorem flatMap_rows_in_use {n : Nat} (rows : Fin n → α) (c k : Nat) (f : Nat → α → List β) :
    (List.finRange n).flatMap (fun i => if i.val < c then f (k + i.val) (rows i) else []) =
      numbered f k ((List.ofFn rows).take c) := by
  induction n generalizing c k with
  | zero => cases c <;> rfl
  | succ n ih =>
    rw [List.finRange_succ, List.flatMap_cons, List.flatMap_map, List.ofFn_succ]
    cases c with
    | zero =>
      rw [List.take_zero, numbered_nil]
      simp
    | succ c =>
      have hrest := ih (fun i => rows i.succ) c (k + 1)
      rw [List.take_succ_cons, numbered_cons, ← hrest]
      simp only [Fin.val_zero, Nat.zero_lt_succ, if_true, Nat.add_zero, Fin.val_succ,
        Nat.succ_lt_succ_iff, Nat.add_right_comm k 1, Nat.add_assoc]

/-- Items with a number below a bound show nothing. -/
theorem numbered_from (f : Nat → α → List β) (k m : Nat) (ls : List α) :
    numbered (fun i l => if m ≤ i then f i l else []) k ls =
      numbered f (k + (m - k)) (ls.drop (m - k)) := by
  induction ls generalizing k with
  | nil => rw [List.drop_nil, numbered_nil, numbered_nil]
  | cons l ls ih =>
    rw [numbered_cons, ih]
    by_cases hm : m ≤ k
    · rw [if_pos hm, show m - (k + 1) = 0 by omega, show m - k = 0 by omega, List.drop_zero,
        List.drop_zero, Nat.add_zero, Nat.add_zero]
      rfl
    · rw [if_neg hm, List.nil_append, show m - k = m - (k + 1) + 1 by omega, List.drop_succ_cons,
        show k + 1 + (m - (k + 1)) = k + (m - (k + 1) + 1) by omega]

end

/-! ## Words -/

section
variable {α : Type u}

/-- The runs of what is not blank. -/
def wordCount (blank : α → Bool) (s : List α) : Nat := (s.splitOnP blank).countP (· ≠ [])

/-- The same without the first run, if the text starts inside of it. -/
def wordCountInside (blank : α → Bool) (s : List α) : Nat :=
  (s.splitOnP blank).tail.countP (· ≠ [])

theorem wordCount_blank {blank : α → Bool} {c : α} (hc : blank c) (s : List α) :
    wordCount blank (c :: s) = wordCount blank s := by
  unfold wordCount
  rw [List.splitOnP_cons_eq_if_modifyHead, if_pos hc]
  rfl

theorem wordCountInside_blank {blank : α → Bool} {c : α} (hc : blank c) (s : List α) :
    wordCountInside blank (c :: s) = wordCount blank s := by
  unfold wordCount wordCountInside
  rw [List.splitOnP_cons_eq_if_modifyHead, if_pos hc]
  rfl

theorem wordCount_cons {blank : α → Bool} {c : α} (hc : ¬ blank c) (s : List α) :
    wordCount blank (c :: s) = wordCountInside blank s + 1 := by
  unfold wordCount wordCountInside
  rw [List.splitOnP_cons_eq_if_modifyHead, if_neg hc]
  cases hs : s.splitOnP blank with
  | nil => exact absurd hs (List.splitOnP_ne_nil _ _)
  | cons l ls => rw [List.modifyHead_cons, List.countP_cons_of_pos (by simp), List.tail_cons]

theorem wordCountInside_cons {blank : α → Bool} {c : α} (hc : ¬ blank c) (s : List α) :
    wordCountInside blank (c :: s) = wordCountInside blank s := by
  unfold wordCountInside
  rw [List.splitOnP_cons_eq_if_modifyHead, if_neg hc]
  cases hs : s.splitOnP blank with
  | nil => exact absurd hs (List.splitOnP_ne_nil _ _)
  | cons l ls => rfl

end

/-! ## Searching -/

section
variable {α : Type u} {w s : List α} {c : α} {i : Nat}

/-- `w` stands at `i` and nowhere before. -/
def FirstAt (w s : List α) (i : Nat) : Prop :=
  w <+: s.drop i ∧ ∀ j, j < i → ¬ w <+: s.drop j

theorem firstAt_zero : FirstAt w s 0 ↔ w <+: s := by
  constructor
  · exact And.left
  · intro h
    exact ⟨h, fun j hj => absurd hj (Nat.not_lt_zero j)⟩

theorem FirstAt.cons (h : FirstAt w s i) (hc : ¬ w <+: c :: s) : FirstAt w (c :: s) (i + 1) := by
  refine ⟨h.1, ?_⟩
  intro j hj
  cases j with
  | zero => exact hc
  | succ j => exact h.2 j (Nat.lt_of_succ_lt_succ hj)

theorem FirstAt.unique {j : Nat} (hi : FirstAt w s i) (hj : FirstAt w s j) : i = j := by
  apply Nat.le_antisymm
  · exact Nat.le_of_not_lt fun hlt => hi.2 j hlt hj.1
  · exact Nat.le_of_not_lt fun hlt => hj.2 i hlt hi.1

theorem FirstAt.infix (h : FirstAt w s i) : w <:+: s :=
  h.1.isInfix.trans (List.drop_suffix i s).isInfix

end

end Lib
