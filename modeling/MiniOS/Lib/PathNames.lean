import Mathlib.Data.List.Basic

/-!
# Names made of components

A name is the components of a path, each behind a separator (`joined`).  As no
component has a separator in it, the name determines them (`joined_inj`), and a
name that goes on from another one at a separator goes on from its components
(`joined_prefix`).

In the order of the components a node is before what is below it (`lt_below`),
and all that is before what is below a greater sibling (`below_lt`): it is the
order in which a tree is listed depth first.
-/

namespace Lib

variable {α : Type*} {sep : α} {cs ds : List (List α)} {q u v x y : List α}

def joined (sep : α) (cs : List (List α)) : List α := cs.flatMap (sep :: ·)

@[simp] theorem joined_nil (sep : α) : joined sep [] = [] := rfl

theorem joined_cons (sep : α) (c : List α) (cs : List (List α)) :
    joined sep (c :: cs) = sep :: (c ++ joined sep cs) := rfl

theorem joined_append (sep : α) (cs ds : List (List α)) :
    joined sep (cs ++ ds) = joined sep cs ++ joined sep ds := List.flatMap_append

/-- What a component ends before: nothing, or a separator. -/
def Ends (sep : α) (q : List α) : Prop := ∀ a ∈ q.head?, a = sep

theorem ends_joined (sep : α) (cs : List (List α)) : Ends sep (joined sep cs) := by
  cases cs with
  | nil =>
    intro a ha
    cases ha
  | cons c cs =>
    intro a ha
    cases ha
    rfl

theorem Ends.append (hx : Ends sep x) (hy : Ends sep y) : Ends sep (x ++ y) := by
  cases x with
  | nil => exact hy
  | cons a x => exact hx

/-- The first component is determined. -/
theorem cut_unique (hu : sep ∉ u) (hv : sep ∉ v) (hx : Ends sep x) (hy : Ends sep y)
    (h : u ++ x = v ++ y) : u = v ∧ x = y := by
  induction u generalizing v with
  | nil =>
    cases v with
    | nil => exact ⟨rfl, h⟩
    | cons b v =>
      have hb := hx b (by rw [show x = b :: (v ++ y) from h]; rfl)
      exact absurd (hb ▸ List.mem_cons_self) hv
  | cons a u ih =>
    cases v with
    | nil =>
      have ha := hy a (by rw [show y = a :: (u ++ x) from h.symm]; rfl)
      exact absurd (ha ▸ List.mem_cons_self) hu
    | cons b v =>
      obtain ⟨rfl, htail⟩ := List.cons.inj h
      rw [List.mem_cons, not_or] at hu hv
      obtain ⟨rfl, hxy⟩ := ih hu.2 hv.2 htail
      exact ⟨rfl, hxy⟩

/-- **Going on.**  A name that goes on from `cs` has further components. -/
theorem joined_prefix (hcs : ∀ c ∈ cs, sep ∉ c) (hds : ∀ d ∈ ds, sep ∉ d) (hq : Ends sep q)
    (h : joined sep ds = joined sep cs ++ q) : ∃ es, ds = cs ++ es ∧ q = joined sep es := by
  induction cs generalizing ds with
  | nil => exact ⟨ds, rfl, h.symm⟩
  | cons c cs ih =>
    cases ds with
    | nil => cases h
    | cons d ds =>
      obtain ⟨hc, hcs'⟩ := List.forall_mem_cons.mp hcs
      obtain ⟨hd, hds'⟩ := List.forall_mem_cons.mp hds
      rw [joined_cons, joined_cons, List.cons_append, List.append_assoc] at h
      obtain ⟨rfl, htail⟩ := cut_unique hd hc (ends_joined sep ds)
        ((ends_joined sep cs).append hq) (List.cons.inj h).2
      obtain ⟨es, rfl, hes⟩ := ih hcs' hds' htail
      exact ⟨es, rfl, hes⟩

theorem joined_inj (hcs : ∀ c ∈ cs, sep ∉ c) (hds : ∀ d ∈ ds, sep ∉ d)
    (h : joined sep cs = joined sep ds) : cs = ds := by
  obtain ⟨es, rfl, hes⟩ := joined_prefix hcs hds (q := [])
    (fun a ha => by cases ha)
    (by rw [List.append_nil]; exact h.symm)
  cases es with
  | nil => exact (List.append_nil cs).symm
  | cons e es => cases hes

/-! ## The order of a listing -/

section

variable [LT α]

theorem append_lt_append_iff (hirr : ∀ a : α, ¬ a < a) : u ++ x < u ++ y ↔ x < y := by
  induction u with
  | nil => exact Iff.rfl
  | cons a u ih =>
    rw [List.cons_append, List.cons_append, List.cons_lt_cons_iff, ih]
    simp [hirr a]

theorem lt_below (cs : List (List α)) (e : List α) (es : List (List α)) : cs < cs ++ e :: es := by
  have h : cs ++ [] < cs ++ e :: es := List.append_left_lt (List.nil_lt_cons e es)
  rw [List.append_nil] at h
  exact h

theorem below_lt (cs : List (List α)) {c d : List α} (h : c < d) (es fs : List (List α)) :
    cs ++ c :: es < cs ++ d :: fs :=
  List.append_left_lt (List.cons_lt_cons_iff.mpr (.inl h))

end

/-- In a list in order, the smaller of two items is before the other. -/
theorem before_of_pairwise {β : Type*} {R : β → β → Prop} (hR : ∀ a b, R a b → ¬ R b a)
    {l : List β} (h : l.Pairwise R) {a b : β} (ha : a ∈ l) (hb : b ∈ l) (hab : R a b) :
    List.Sublist [a, b] l := by
  induction l with
  | nil => cases ha
  | cons c l ih =>
    obtain ⟨hc, hl⟩ := List.pairwise_cons.mp h
    rcases List.mem_cons.mp ha with rfl | ha'
    · rcases List.mem_cons.mp hb with rfl | hb'
      · exact absurd hab (hR _ _ hab)
      · exact (List.singleton_sublist.mpr hb').cons_cons a
    · rcases List.mem_cons.mp hb with rfl | hb'
      · exact absurd hab (hR _ _ (hc a ha'))
      · exact (ih hl ha' hb').cons c

end Lib
