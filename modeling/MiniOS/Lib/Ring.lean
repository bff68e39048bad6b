import Mathlib.Data.List.Basic

/-!
# Ring buffers

A ring of `N` cells is written at `head` and read at `tail`; both indices only
go forward, modulo `N`, each under the control of one side.  `ringItems` are
the items from `tail` up to `head`.  Equal indices mean an empty ring, so the
ring is full with one cell unused, when the next head would be the tail.

* `ringItems_push`: writing the cell at `head` and moving `head` appends an item;
* `ringItems_pop`: moving `tail` removes the item in the cell at `tail`;
* `ringCount_full`: a full ring has `N - 1` items.
-/

namespace Lib

variable {α : Type*}

/-- The number of items between the indices. -/
def ringCount (N tail head : Nat) : Nat := (head + N - tail) % N

/-- The items in the cells from `tail` up to `head`, modulo `N`. -/
def ringItems (N : Nat) (cell : Nat → α) (tail head : Nat) : List α :=
  (List.range (ringCount N tail head)).map fun i => cell ((tail + i) % N)

@[simp] theorem length_ringItems (N : Nat) (cell : Nat → α) (tail head : Nat) :
    (ringItems N cell tail head).length = ringCount N tail head := by
  unfold ringItems
  rw [List.length_map, List.length_range]

/-! ## Indices

An index that has passed the end at most once wraps by a subtraction.
-/

theorem mod_wrap {N x : Nat} (h : x < 2 * N) : x % N = if x < N then x else x - N := by
  by_cases hx : x < N
  · rw [if_pos hx, Nat.mod_eq_of_lt hx]
  · rw [if_neg hx, Nat.mod_eq_sub_mod (by omega), Nat.mod_eq_of_lt (by omega)]

variable {N tail head : Nat} (ht : tail < N) (hh : head < N)
include ht hh

theorem ringCount_eq : ringCount N tail head = if tail ≤ head then head - tail else head + N - tail := by
  unfold ringCount
  rw [mod_wrap (by omega)]
  by_cases hle : tail ≤ head
  · rw [if_pos hle, if_neg (by omega)]
    omega
  · rw [if_neg hle, if_pos (by omega)]

theorem ringCount_lt : ringCount N tail head < N := by
  rw [ringCount_eq ht hh]
  split
  · omega
  · omega

theorem ringCount_eq_zero_iff : ringCount N tail head = 0 ↔ head = tail := by
  rw [ringCount_eq ht hh]
  split
  · omega
  · omega

/-- The cell after the last item is the one at `head`. -/
theorem add_ringCount_mod : (tail + ringCount N tail head) % N = head := by
  rw [ringCount_eq ht hh]
  split
  · rw [Nat.mod_eq_of_lt (by omega)]
    omega
  · rw [mod_wrap (by omega), if_neg (by omega)]
    omega

theorem ringCount_push (hroom : (head + 1) % N ≠ tail) :
    ringCount N tail ((head + 1) % N) = ringCount N tail head + 1 := by
  have hN : 0 < N := by omega
  have hnext : (head + 1) % N < N := Nat.mod_lt _ hN
  rw [ringCount_eq ht hh, ringCount_eq ht hnext]
  rw [mod_wrap (by omega)] at hroom ⊢
  by_cases hlast : head + 1 < N
  · rw [if_pos hlast] at hroom ⊢
    split
    · rw [if_pos (by omega)]
      omega
    · rw [if_neg (by omega)]
      omega
  · rw [if_neg hlast] at hroom ⊢
    rw [if_neg (by omega), if_pos (by omega)]
    omega

theorem ringCount_full (hfull : (head + 1) % N = tail) : ringCount N tail head = N - 1 := by
  rw [mod_wrap (by omega)] at hfull
  rw [ringCount_eq ht hh]
  split at hfull
  · rw [if_neg (by omega)]
    omega
  · rw [if_pos (by omega)]
    omega

theorem ringCount_pop (hne : head ≠ tail) :
    ringCount N tail head = ringCount N ((tail + 1) % N) head + 1 := by
  have hN : 0 < N := by omega
  have hnext : (tail + 1) % N < N := Nat.mod_lt _ hN
  rw [ringCount_eq ht hh, ringCount_eq hnext hh]
  rw [mod_wrap (by omega)]
  by_cases hlast : tail + 1 < N
  · rw [if_pos hlast]
    split
    · rw [if_pos (by omega)]
      omega
    · rw [if_neg (by omega)]
      omega
  · rw [if_neg hlast, if_neg (by omega), if_pos (by omega)]
    omega

/-! ## Items -/

/-- The cell at `head` holds no item, so it may be written. -/
theorem ringItems_push {cell cell' : Nat → α} (hcell : ∀ j, j ≠ head → cell' j = cell j)
    (hroom : (head + 1) % N ≠ tail) :
    ringItems N cell' tail ((head + 1) % N) = ringItems N cell tail head ++ [cell' head] := by
  have hlast : (tail + ringCount N tail head) % N = head := add_ringCount_mod ht hh
  unfold ringItems
  rw [ringCount_push ht hh hroom, List.range_succ, List.map_append, List.map_singleton, hlast]
  congr 1
  apply List.map_congr_left
  intro i hi
  rw [List.mem_range] at hi
  apply hcell
  have hcount := ringCount_lt ht hh
  have hi2 : (tail + i) % N = if tail + i < N then tail + i else tail + i - N := mod_wrap (by omega)
  rw [ringCount_eq ht hh] at hi
  rw [hi2]
  split at hi
  · rw [if_pos (by omega)]
    omega
  · split
    · omega
    · omega

theorem ringItems_pop (cell : Nat → α) (hne : head ≠ tail) :
    ringItems N cell tail head = cell tail :: ringItems N cell ((tail + 1) % N) head := by
  unfold ringItems
  rw [ringCount_pop ht hh hne, List.range_succ_eq_map, List.map_cons, List.map_map, Nat.add_zero,
    Nat.mod_eq_of_lt ht]
  congr 1
  apply List.map_congr_left
  intro i _
  show cell ((tail + (i + 1)) % N) = cell (((tail + 1) % N + i) % N)
  rw [Nat.mod_add_mod, Nat.add_assoc, Nat.add_comm 1 i]

theorem ringItems_eq_nil_iff (cell : Nat → α) : ringItems N cell tail head = [] ↔ head = tail := by
  rw [← ringCount_eq_zero_iff ht hh, ← length_ringItems N cell tail head, List.length_eq_zero_iff]

end Lib
