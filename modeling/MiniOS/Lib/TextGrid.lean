import Mathlib.Data.List.Basic
import Mathlib.Logic.Function.Basic

/-!
# A text screen

The cells of a screen in row-major order, and the cell the cursor is on.  Rows
are `W` cells, the screen has `N`; what would put the cursor below the last row
moves all rows up by one first (`wrap`).

* `puts_fits`: text that ends above the last cell stands where it was put, and
  no other cell changes;
* `puts_behind`: text that ends at the cursor still does when more is put, also
  when that moves the rows up;
* `back_put_iff`, `back_newline_iff`, …: a backspace takes the last thing put
  back exactly if the cursor went one cell on, over a blank.
-/

namespace Lib

/-- Cells and the cursor. -/
@[ext] structure TextGrid (α : Type*) where
  cell : Nat → α
  pos : Nat

namespace TextGrid

variable {α : Type*} {g : TextGrid α} {W N : Nat}

/-- The rows move up if the cursor is below the last. -/
def wrap (W N : Nat) (g : TextGrid α) : TextGrid α :=
  if g.pos < N then g else ⟨fun i => g.cell (i + W), g.pos - W⟩

def put (W N : Nat) (g : TextGrid α) (a : α) : TextGrid α :=
  wrap W N ⟨Function.update g.cell g.pos a, g.pos + 1⟩

def puts (W N : Nat) (g : TextGrid α) (xs : List α) : TextGrid α := xs.foldl (put W N) g

/-- To the start of the next row. -/
def newline (W N : Nat) (g : TextGrid α) : TextGrid α :=
  wrap W N ⟨g.cell, (g.pos / W + 1) * W⟩

/-- To the start of the row. -/
def carriage (W : Nat) (g : TextGrid α) : TextGrid α := ⟨g.cell, g.pos / W * W⟩

/-- One cell back, and a blank there. -/
def back (blank : α) (g : TextGrid α) : TextGrid α :=
  ⟨Function.update g.cell (g.pos - 1) blank, g.pos - 1⟩

@[simp] theorem puts_nil (g : TextGrid α) : puts W N g [] = g := rfl

@[simp] theorem puts_cons (g : TextGrid α) (x : α) (xs : List α) :
    puts W N g (x :: xs) = puts W N (put W N g x) xs := rfl

theorem puts_append (g : TextGrid α) (xs ys : List α) :
    puts W N g (xs ++ ys) = puts W N (puts W N g xs) ys := List.foldl_append

theorem wrap_of_lt (h : g.pos < N) : wrap W N g = g := if_pos h

theorem wrap_of_ge (h : N ≤ g.pos) : wrap W N g = ⟨fun i => g.cell (i + W), g.pos - W⟩ :=
  if_neg (Nat.not_lt.mpr h)

theorem put_of_lt (h : g.pos + 1 < N) (a : α) :
    put W N g a = ⟨Function.update g.cell g.pos a, g.pos + 1⟩ := wrap_of_lt h

/-- The last cell of the screen: the rows move up. -/
theorem put_last (h : g.pos + 1 = N) (a : α) :
    put W N g a = ⟨fun i => Function.update g.cell g.pos a (i + W), N - W⟩ := by
  unfold put
  rw [wrap_of_ge (Nat.le_of_eq h.symm)]
  show TextGrid.mk _ (g.pos + 1 - W) = _
  rw [h]

theorem put_pos_lt (hW : 0 < W) (hN : W ≤ N) (h : g.pos < N) (a : α) : (put W N g a).pos < N := by
  by_cases hlt : g.pos + 1 < N
  · rw [put_of_lt hlt]
    exact hlt
  · rw [put_last (by omega)]
    show N - W < N
    omega

theorem puts_pos_lt (hW : 0 < W) (hN : W ≤ N) (h : g.pos < N) (xs : List α) :
    (puts W N g xs).pos < N := by
  induction xs generalizing g with
  | nil => exact h
  | cons x xs ih => exact ih (put_pos_lt hW hN h x)

theorem newline_pos_lt (hW : 0 < W) (hN : W ∣ N) (h : g.pos < N) : (newline W N g).pos < N := by
  obtain ⟨k, rfl⟩ := hN
  have hle := Nat.mul_le_mul_right W (show g.pos / W + 1 ≤ k from Nat.div_lt_of_lt_mul h)
  rw [Nat.mul_comm k] at hle
  unfold newline
  by_cases hlt : (g.pos / W + 1) * W < W * k
  · rw [wrap_of_lt hlt]
    exact hlt
  · rw [wrap_of_ge (Nat.le_of_not_lt hlt)]
    show (g.pos / W + 1) * W - W < W * k
    rw [Nat.succ_mul] at hle ⊢
    omega

/-! ## Text on the screen -/

/-- The cells from `p` on show `xs`. -/
def Shows (cell : Nat → α) (p : Nat) (xs : List α) : Prop :=
  ∀ i x, xs[i]? = some x → cell (p + i) = x

variable {cell cell' : Nat → α} {p : Nat} {xs ys : List α}

theorem shows_nil (cell : Nat → α) (p : Nat) : Shows cell p [] := by
  intro i x hi
  rw [List.getElem?_nil] at hi
  cases hi

theorem Shows.congr (h : Shows cell p xs)
    (hc : ∀ i, p ≤ i → i < p + xs.length → cell' i = cell i) : Shows cell' p xs := by
  intro i x hi
  obtain ⟨hlt, _⟩ := List.getElem?_eq_some_iff.mp hi
  rw [hc (p + i) (by omega) (by omega)]
  exact h i x hi

theorem shows_append :
    Shows cell p (xs ++ ys) ↔ Shows cell p xs ∧ Shows cell (p + xs.length) ys := by
  constructor
  · intro h
    constructor
    · intro i x hi
      obtain ⟨hlt, _⟩ := List.getElem?_eq_some_iff.mp hi
      apply h i x
      rw [List.getElem?_append_left hlt]
      exact hi
    · intro i x hi
      rw [Nat.add_assoc]
      apply h (xs.length + i) x
      rw [List.getElem?_append_right (Nat.le_add_right _ _), Nat.add_sub_cancel_left]
      exact hi
  · rintro ⟨hx, hy⟩ i x hi
    by_cases hlt : i < xs.length
    · rw [List.getElem?_append_left hlt] at hi
      exact hx i x hi
    · rw [List.getElem?_append_right (by omega)] at hi
      have := hy (i - xs.length) x hi
      rw [show p + i = p + xs.length + (i - xs.length) by omega]
      exact this

theorem shows_singleton (a : α) : Shows cell p [a] ↔ cell p = a := by
  constructor
  · intro h
    exact h 0 a rfl
  · intro h i x hi
    obtain ⟨hlt, _⟩ := List.getElem?_eq_some_iff.mp hi
    rw [List.length_singleton] at hlt
    obtain rfl : i = 0 := by omega
    cases hi
    exact h

/-- The rows moved up, and the text with them. -/
theorem Shows.up (h : Shows cell p xs) (hp : W ≤ p) :
    Shows (fun i => cell (i + W)) (p - W) xs := by
  intro i x hi
  show cell (p - W + i + W) = x
  rw [show p - W + i + W = p + i by omega]
  exact h i x hi

/-- **Text that fits.**  It stands where it was put, and nothing else changes. -/
theorem puts_fits (h : g.pos + xs.length < N) :
    (puts W N g xs).pos = g.pos + xs.length ∧ Shows (puts W N g xs).cell g.pos xs ∧
      ∀ i, i < g.pos ∨ g.pos + xs.length ≤ i → (puts W N g xs).cell i = g.cell i := by
  induction xs generalizing g with
  | nil => exact ⟨rfl, shows_nil _ _, fun _ _ => rfl⟩
  | cons x xs ih =>
    rw [List.length_cons] at h ⊢
    have hput : put W N g x = ⟨Function.update g.cell g.pos x, g.pos + 1⟩ := put_of_lt (by omega) x
    obtain ⟨hpos, hshows, hframe⟩ := ih (g := put W N g x) (by rw [hput]; show g.pos + 1 + _ < N; omega)
    rw [hput] at hpos hshows hframe
    rw [puts_cons, hput]
    refine ⟨?_, ?_, ?_⟩
    · rw [hpos]
      show g.pos + 1 + xs.length = _
      omega
    · rw [show x :: xs = [x] ++ xs from rfl, shows_append]
      refine ⟨?_, hshows⟩
      rw [shows_singleton, hframe g.pos (.inl (Nat.lt_succ_self _))]
      exact Function.update_self _ _ _
    · intro i hi
      rw [hframe i (by show i < g.pos + 1 ∨ g.pos + 1 + xs.length ≤ i; omega)]
      exact Function.update_of_ne (by omega) _ _

/-- Text that ends in the last cell moves the rows up. -/
theorem puts_pos_last (hne : xs ≠ []) (h : g.pos + xs.length = N) :
    (puts W N g xs).pos = N - W := by
  have hsplit := List.dropLast_append_getLast hne
  have hlen : xs.dropLast.length + 1 = xs.length := by
    rw [List.length_dropLast]
    have := List.length_pos_iff.mpr hne
    omega
  obtain ⟨hpos, _⟩ := puts_fits (W := W) (show g.pos + xs.dropLast.length < N by omega)
  rw [← hsplit, puts_append, puts_cons, puts_nil, put_last (by omega)]

/-- The text ends at the cursor. -/
def Behind (g : TextGrid α) (xs : List α) : Prop :=
  ∃ p, g.pos = p + xs.length ∧ Shows g.cell p xs

theorem behind_nil (g : TextGrid α) : Behind g [] := ⟨g.pos, rfl, shows_nil _ _⟩

/-- One more character; the text stays on the screen if it leaves a row. -/
theorem Behind.put (h : Behind g xs) (hpos : g.pos < N) (hroom : xs.length + 1 + W ≤ N) (a : α) :
    Behind (put W N g a) (xs ++ [a]) := by
  obtain ⟨p, hp, hshows⟩ := h
  have hshows' : Shows (Function.update g.cell g.pos a) p (xs ++ [a]) := by
    rw [shows_append]
    refine ⟨hshows.congr fun i _ hlt => Function.update_of_ne (by omega) _ _, ?_⟩
    rw [shows_singleton, ← hp]
    exact Function.update_self _ _ _
  by_cases hlt : g.pos + 1 < N
  · rw [put_of_lt hlt]
    refine ⟨p, ?_, hshows'⟩
    show g.pos + 1 = p + (xs ++ [a]).length
    rw [List.length_append, List.length_singleton]
    omega
  · rw [put_last (by omega)]
    refine ⟨p - W, ?_, hshows'.up (by omega)⟩
    show N - W = p - W + (xs ++ [a]).length
    rw [List.length_append, List.length_singleton]
    omega

/-- **Text behind the cursor** stays there. -/
theorem Behind.puts (h : Behind g xs) (hW : 0 < W) (hpos : g.pos < N)
    (hroom : xs.length + ys.length + W ≤ N) : Behind (puts W N g ys) (xs ++ ys) := by
  induction ys generalizing g xs with
  | nil =>
    rw [List.append_nil]
    exact h
  | cons y ys ih =>
    rw [List.length_cons] at hroom
    rw [List.append_cons, puts_cons]
    apply ih (h.put hpos (by omega) y) (put_pos_lt hW (by omega) hpos y)
    rw [List.length_append, List.length_singleton]
    omega

/-! ## Taking back what was put -/

variable {b : α}

/-- A blank in cell `q`, and the cursor on it. -/
theorem blank_eq_iff {c : Nat → α} {q : Nat} (hsame : q = g.pos → ∀ i, i ≠ q → c i = g.cell i) :
    TextGrid.mk (Function.update c q b) q = g ↔ q = g.pos ∧ g.cell g.pos = b := by
  constructor
  · intro h
    have hq : q = g.pos := congrArg TextGrid.pos h
    have hc : Function.update c q b = g.cell := congrArg TextGrid.cell h
    refine ⟨hq, ?_⟩
    rw [← hc, ← hq]
    exact Function.update_self _ _ _
  · rintro ⟨hq, hb⟩
    have hcell : Function.update c q b = g.cell := by
      funext i
      by_cases hi : i = q
      · rw [hi, Function.update_self, hq, hb]
      · rw [Function.update_of_ne hi, hsame hq i hi]
    rw [hcell, hq]

theorem back_put_iff (h : g.pos + 1 < N) (a : α) :
    back b (put W N g a) = g ↔ g.cell g.pos = b := by
  rw [put_of_lt h]
  unfold back
  rw [Nat.add_sub_cancel, blank_eq_iff (fun _ i hi => Function.update_of_ne hi _ _)]
  exact and_iff_right rfl

theorem back_newline_iff (hW : 0 < W) (h : (g.pos / W + 1) * W < N) :
    back b (newline W N g) = g ↔ g.pos % W + 1 = W ∧ g.cell g.pos = b := by
  unfold newline
  rw [wrap_of_lt h]
  refine (blank_eq_iff (c := g.cell) fun _ i _ => rfl).trans ?_
  have hdiv := Nat.div_add_mod' g.pos W
  have hlt := Nat.mod_lt g.pos hW
  show (g.pos / W + 1) * W - 1 = g.pos ∧ _ ↔ _
  rw [Nat.add_mul, Nat.one_mul]
  refine and_congr_left fun _ => ?_
  omega

theorem back_carriage_iff :
    back b (carriage W g) = g ↔ g.pos = 0 ∧ g.cell g.pos = b := by
  refine (blank_eq_iff (c := g.cell) fun _ i _ => rfl).trans ?_
  have hdiv := Nat.div_add_mod' g.pos W
  show g.pos / W * W - 1 = g.pos ∧ _ ↔ _
  refine and_congr_left fun _ => ?_
  omega

theorem back_back_iff : back b (back b g) = g ↔ g.pos = 0 ∧ g.cell g.pos = b := by
  show TextGrid.mk (Function.update (Function.update g.cell (g.pos - 1) b) (g.pos - 1 - 1) b)
    (g.pos - 1 - 1) = g ↔ _
  rw [blank_eq_iff]
  · refine and_congr_left fun _ => ?_
    omega
  · intro hq i hi
    exact Function.update_of_ne (by omega) _ _

/-- A run of blanks is taken back if it is one blank. -/
theorem back_blanks_iff {k : Nat} (hk : 0 < k) (h : g.pos + k < N) :
    back b (puts W N g (List.replicate k b)) = g ↔ k = 1 ∧ g.cell g.pos = b := by
  obtain ⟨hpos, _, hframe⟩ := puts_fits (W := W)
    (show g.pos + (List.replicate k b).length < N by rw [List.length_replicate]; exact h)
  rw [List.length_replicate] at hpos hframe
  unfold back
  rw [hpos, blank_eq_iff]
  · refine and_congr_left fun _ => ?_
    omega
  · intro hq i hi
    exact hframe i (by omega)

end TextGrid

end Lib
