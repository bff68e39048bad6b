import Mathlib.Data.List.Perm.Basic

/-!
# Bubble sort

The loops of a bubble sort over the entries of an array that are in use; an
index behind them fails.  `gt` is the test for which two neighbours change
places.

* `passFrom_spec`: a pass carries the greatest of what it goes over to its end;
* `bubbleSort_spec`: the sort comes back with the entries in order.
-/

namespace Lib

variable {α : Type*} {gt : α → α → Bool}

/-- `if (a[j] > a[j + 1])`, and their exchange. -/
def swapAt (gt : α → α → Bool) (j : Nat) (l : List α) : Option (List α) := do
  let a ← l[j]?
  let b ← l[j + 1]?
  some (if gt a b then (l.set j b).set (j + 1) a else l)

/-- The inner loop from `j` on, for `n` rounds. -/
def passFrom (gt : α → α → Bool) (j : Nat) : Nat → List α → Option (List α)
  | 0, l => some l
  | n + 1, l => do
    let l ← swapAt gt j l
    passFrom gt (j + 1) n l

/-- The outer loop from `i` on, for `n` rounds. -/
def sortFrom (gt : α → α → Bool) (i : Nat) : Nat → List α → Option (List α)
  | 0, l => some l
  | n + 1, l => do
    let l ← passFrom gt 0 (l.length - i - 1) l
    sortFrom gt (i + 1) n l

def bubbleSort (gt : α → α → Bool) (l : List α) : Option (List α) :=
  sortFrom gt 0 (l.length - 1) l

theorem swapAt_append (front : List α) (x y : α) (back : List α) :
    swapAt gt front.length (front ++ x :: y :: back) =
      some (front ++ if gt x y then y :: x :: back else x :: y :: back) := by
  have hx : (front ++ x :: y :: back)[front.length]? = some x := by
    rw [List.getElem?_append_right (Nat.le_refl _), Nat.sub_self, List.getElem?_cons_zero]
  have hy : (front ++ x :: y :: back)[front.length + 1]? = some y := by
    rw [List.getElem?_append_right (Nat.le_add_right _ 1), Nat.add_sub_cancel_left]
    rfl
  unfold swapAt
  rw [hx, hy]
  simp only [Option.bind_eq_bind, Option.bind_some]
  split
  · rw [List.set_append_right _ _ (Nat.le_refl _), Nat.sub_self, List.set_cons_zero,
      List.set_append_right _ _ (Nat.le_add_right _ 1), Nat.add_sub_cancel_left]
    rfl
  · rfl

section

variable {le : α → α → Prop} (hle : ∀ a b, gt a b = false → le a b)
  (hge : ∀ a b, gt a b = true → le b a)

include hle hge

/-- The greater of two neighbours is behind the smaller. -/
theorem swapAt_spec (front : List α) (x y : α) (back : List α) :
    ∃ lo hi, swapAt gt front.length (front ++ x :: y :: back) = some (front ++ lo :: hi :: back) ∧
      [lo, hi].Perm [x, y] ∧ le lo hi ∧ le x hi := by
  have hrefl : le x x := by
    cases hg : gt x x with
    | true => exact hge x x hg
    | false => exact hle x x hg
  rw [swapAt_append]
  cases hg : gt x y with
  | true => exact ⟨y, x, rfl, List.Perm.swap x y [], hge x y hg, hrefl⟩
  | false => exact ⟨x, y, rfl, List.Perm.refl _, hle x y hg, hle x y hg⟩

variable (htrans : ∀ a b c, le a b → le b c → le a c)

include htrans

/-- **A pass.**  `x` is the greatest of what the pass has gone over. -/
theorem passFrom_spec (front : List α) (x : α) (rest back : List α) (hx : ∀ y ∈ front, le y x) :
    ∃ front' x', passFrom gt front.length rest.length (front ++ x :: (rest ++ back)) =
        some (front' ++ x' :: back) ∧
      (front' ++ [x']).Perm (front ++ x :: rest) ∧ ∀ y ∈ front', le y x' := by
  induction rest generalizing front x with
  | nil => exact ⟨front, x, rfl, List.Perm.refl _, hx⟩
  | cons y rest ih =>
    obtain ⟨lo, hi, hswap, hpair, hlo, hhi⟩ := swapAt_spec hle hge front x y (rest ++ back)
    have hfront : ∀ z ∈ front ++ [lo], le z hi := by
      intro z hz
      rcases List.mem_append.mp hz with hz | hz
      · exact htrans z x hi (hx z hz) hhi
      · rw [List.mem_singleton.mp hz]
        exact hlo
    obtain ⟨front', x', hrun, hperm, hmax⟩ := ih _ _ hfront
    refine ⟨front', x', ?_, hperm.trans ?_, hmax⟩
    · rw [List.length_cons, List.cons_append, passFrom, hswap]
      rw [List.length_append, List.append_assoc] at hrun
      exact hrun
    · rw [List.append_assoc]
      exact (hpair.append_right rest).append_left front

/-- **Passes.**  What is at the back is in order, and behind all that is at the front. -/
theorem sortFrom_spec {n : Nat} (front back : List α) (hn : front.length - 1 = n)
    (hback : back.Pairwise le) (hsplit : ∀ x ∈ front, ∀ y ∈ back, le x y) :
    ∃ l, sortFrom gt back.length n (front ++ back) = some l ∧ l.Perm (front ++ back) ∧
      l.Pairwise le := by
  induction n generalizing front back with
  | zero =>
    refine ⟨front ++ back, rfl, List.Perm.refl _, List.pairwise_append.mpr ⟨?_, hback, hsplit⟩⟩
    match front, hn with
    | [], _ => exact List.Pairwise.nil
    | [x], _ => exact List.pairwise_singleton le x
  | succ n ih =>
    match front, hn with
    | x :: rest, hn =>
      obtain ⟨front', x', hpass, hperm, hmax⟩ := passFrom_spec hle hge htrans [] x rest back
        fun y hy => absurd hy List.not_mem_nil
      have hlen := hperm.length_eq
      rw [List.length_append, List.length_singleton] at hlen
      have hmem : ∀ y, y ∈ front' ++ [x'] → y ∈ x :: rest := fun y hy => hperm.mem_iff.mp hy
      have hback' : (x' :: back).Pairwise le := List.pairwise_cons.mpr
        ⟨hsplit x' (hmem x' (List.mem_append_right _ (List.mem_singleton_self x'))), hback⟩
      have hsplit' : ∀ z ∈ front', ∀ y ∈ x' :: back, le z y := by
        intro z hz y hy
        rcases List.mem_cons.mp hy with rfl | hy
        · exact hmax z hz
        · exact hsplit z (hmem z (List.mem_append_left _ hz)) y hy
      obtain ⟨l, hl, hlp, hlo⟩ := ih front' (x' :: back) (show front'.length - 1 = n by
        rw [List.length_cons] at hn
        simp only [List.nil_append, List.length_cons] at hlen
        omega) hback' hsplit'
      refine ⟨l, ?_, hlp.trans ?_, hlo⟩
      · rw [sortFrom, show (x :: rest ++ back).length - back.length - 1 = rest.length by
          rw [List.length_append, List.length_cons]
          omega]
        rw [show x :: rest ++ back = [] ++ x :: (rest ++ back) from rfl]
        rw [show passFrom gt 0 rest.length _ = _ from hpass]
        exact hl
      · rw [show front' ++ x' :: back = front' ++ [x'] ++ back by
          rw [List.append_assoc]; rfl]
        exact hperm.append_right back

/-- **The sort.** -/
theorem bubbleSort_spec (l : List α) :
    ∃ l', bubbleSort gt l = some l' ∧ l'.Perm l ∧ l'.Pairwise le := by
  obtain ⟨l', hl, hp, ho⟩ := sortFrom_spec hle hge htrans l [] rfl List.Pairwise.nil
    fun _ _ y hy => absurd hy List.not_mem_nil
  rw [List.append_nil] at hl hp
  exact ⟨l', hl, hp, ho⟩

end

end Lib
