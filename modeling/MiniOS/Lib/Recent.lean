import Mathlib.Data.Fin.Tuple.Basic
import Mathlib.Data.List.FinRange
import Mathlib.Data.List.OfFn

/-!
# The last items of a sequence

A ring of `n` slots that is written at the number of items so far, modulo `n`,
holds the last `n` of them (`Recent`, kept by `Recent.push`).  Seen from the
slot to be written next, the item `v` steps back is `v` slots back
(`slot_back`).

`recent n past` is the list of these items, the oldest first.  A table that
keeps them in its first rows, and moves the rows down by one when it is full
(`foldl_shift`), takes one more item as the list does (`recent_concat`).
-/

namespace Lib

variable {α : Type*} {n : Nat} {buf : Nat → α} {past : List α}

/-- The slots hold the last `n` items, each at its number modulo `n`. -/
def Recent (n : Nat) (buf : Nat → α) (past : List α) : Prop :=
  ∀ i x, past[i]? = some x → past.length ≤ i + n → buf (i % n) = x

theorem Recent.nil (n : Nat) (buf : Nat → α) : Recent n buf [] := by
  intro i x hi _
  rw [List.getElem?_nil] at hi
  cases hi

/-- One more item, in the slot of its number. -/
theorem Recent.push (h : Recent n buf past) {buf' : Nat → α} {x : α}
    (hnew : buf' (past.length % n) = x)
    (hold : ∀ j, j ≠ past.length % n → j < n → buf' j = buf j) : Recent n buf' (past ++ [x]) := by
  intro i y hi hlen
  rw [List.length_append, List.length_singleton] at hlen
  by_cases hlast : i = past.length
  · rw [hlast, List.getElem?_append_right (Nat.le_refl _), Nat.sub_self] at hi
    cases hi
    rw [hlast, hnew]
  · have hlt : i < past.length := by
      obtain ⟨hb, _⟩ := List.getElem?_eq_some_iff.mp hi
      rw [List.length_append, List.length_singleton] at hb
      omega
    rw [List.getElem?_append_left hlt] at hi
    rw [hold (i % n) ?_ (Nat.mod_lt _ (by omega)), h i y hi (by omega)]
    -- fewer than `n` items lie between the two
    intro hmod
    have hd : n ∣ past.length - i :=
      Nat.dvd_of_mod_eq_zero (Nat.sub_mod_eq_zero_of_mod_eq hmod.symm)
    have := Nat.le_of_dvd (by omega) hd
    omega

/-- The last `n` items. -/
def recent (n : Nat) (past : List α) : List α := past.drop (past.length - n)

@[simp] theorem length_recent (n : Nat) (past : List α) :
    (recent n past).length = min n past.length := by
  unfold recent
  rw [List.length_drop]
  omega

theorem recent_of_le (h : past.length ≤ n) : recent n past = past := by
  unfold recent
  rw [Nat.sub_eq_zero_of_le h, List.drop_zero]

/-- The oldest item makes room for one more. -/
theorem recent_concat (h : n ≤ past.length) (hn : 0 < n) (x : α) :
    recent n (past ++ [x]) = (recent n past).tail ++ [x] := by
  unfold recent
  rw [List.tail_drop, List.length_append, List.length_singleton,
    List.drop_append_of_le_length (by omega), show past.length + 1 - n = past.length - n + 1 by omega]

/-- Seen from the newest item, the last items are the first. -/
theorem reverse_recent (n : Nat) (past : List α) : (recent n past).reverse = past.reverse.take n := by
  unfold recent
  rw [List.reverse_drop]
  by_cases h : n ≤ past.length
  · rw [Nat.sub_sub_self h]
  · rw [List.take_of_length_le (by rw [List.length_reverse]; omega),
      List.take_of_length_le (by rw [List.length_reverse]; omega)]

/-- The slot `v` steps before the one written next, and `r` steps on. -/
theorem slot_back {len v r : Nat} (hv : v ≤ n) (hlen : v ≤ len) :
    (len % n + n - v + r) % n = (len - v + r) % n := by
  have h1 : len % n + n - v + r = len % n + (n - v + r) := by omega
  have h2 : len + (n - v + r) = len - v + r + n := by omega
  rw [h1, Nat.mod_add_mod, h2, Nat.add_mod_right]

/-- **The ring.**  The slot of the item `v` steps back and `r` on holds that item. -/
theorem Recent.get (h : Recent n buf past) {v r : Nat} (hv : v ≤ (recent n past).length)
    (hr : r < v) :
    (recent n past)[(recent n past).length - v + r]? =
      some (buf ((past.length % n + n - v + r) % n)) := by
  rw [length_recent] at hv ⊢
  have hlt : past.length - v + r < past.length := by omega
  have hx := List.getElem?_eq_getElem hlt
  rw [slot_back (by omega) (by omega), h _ _ hx (by omega)]
  unfold recent
  rw [List.getElem?_drop, ← hx]
  congr 1
  omega

/-! ## Rows moved down by one -/

/-- The rows behind the first are moved as if it were not there. -/
theorem foldl_shift_cons (x : α) (rows : Fin (n + 1) → α) (is : List (Fin n)) :
    is.foldl (fun rows i => Function.update rows i.succ.castSucc (rows i.succ.succ))
        (Fin.cons x rows : Fin (n + 2) → α) =
      Fin.cons x (is.foldl (fun rows i => Function.update rows i.castSucc (rows i.succ)) rows) := by
  induction is generalizing rows with
  | nil => rfl
  | cons i is ih =>
    rw [List.foldl_cons, List.foldl_cons, ← ih, Fin.cons_succ, Fin.castSucc_succ, Fin.cons_update]

/-- **Rows moved down.**  Each takes the place of the one before it. -/
theorem foldl_shift (rows : Fin (n + 1) → α) :
    (List.finRange n).foldl (fun rows i => Function.update rows i.castSucc (rows i.succ)) rows =
      Fin.snoc (Fin.tail rows) (rows (Fin.last n)) := by
  induction n with
  | zero =>
    ext i
    rw [show i = Fin.last 0 by omega, Fin.snoc_last]
    rfl
  | succ n ih =>
    have hfirst : Function.update rows (Fin.castSucc 0) (rows (Fin.succ 0)) =
        (Fin.cons (rows 1) (Fin.tail rows) : Fin (n + 2) → α) := by
      rw [← Fin.update_cons_zero (rows 0), Fin.cons_self_tail]
      rfl
    rw [List.finRange_succ, List.foldl_cons, hfirst, List.foldl_map, foldl_shift_cons, ih,
      Fin.cons_snoc_eq_snoc_cons]
    congr 1
    exact Fin.cons_self_tail (Fin.tail rows)

/-- The last row is new, the oldest is gone. -/
theorem ofFn_snoc_tail (rows : Fin (n + 1) → α) (x : α) :
    List.ofFn (Fin.snoc (Fin.tail rows) x : Fin (n + 1) → α) = (List.ofFn rows).tail ++ [x] := by
  rw [List.ofFn_succ_last, Fin.snoc_last, List.ofFn_succ, List.tail_cons]
  simp only [Fin.snoc_castSucc]
  rfl

/-- The first row that is not in use is new. -/
theorem take_ofFn_update (rows : Fin n → α) {c : Nat} (hc : c < n) (x : α) :
    (List.ofFn (Function.update rows ⟨c, hc⟩ x)).take (c + 1) = (List.ofFn rows).take c ++ [x] := by
  have hlast : (List.ofFn (Function.update rows ⟨c, hc⟩ x))[c]? = some x := by
    rw [List.getElem?_ofFn, dif_pos hc, Function.update_self]
  rw [List.take_add_one, hlast]
  congr 1
  ext i y
  rw [List.getElem?_take, List.getElem?_take]
  by_cases hi : i < c
  · rw [if_pos hi, if_pos hi, List.getElem?_ofFn, List.getElem?_ofFn, dif_pos (by omega),
      dif_pos (by omega), Function.update_of_ne (by rw [Ne, Fin.mk.injEq]; omega)]
  · rw [if_neg hi, if_neg hi]

end Lib
