import Mathlib.Data.List.Basic
import Mathlib.Data.List.TakeWhile

/-!
# C strings in fixed arrays

`str s` is the C string at the head of `s`: the bytes before the first NUL.
The end of the list reads as NUL.

`Chars n` is an array `char[n]`; a store outside of it fails (`none`).
Filling an array is a `write`, store by store; what a run of stores leaves is
`write_eq`, and that it fails exactly when it does not fit is `write_isSome`.
A string is in place after the write of its bytes and a NUL (`str_write`).
-/

namespace Lib

/-! ## The string at the head of a list -/

/-- The bytes before the first NUL. -/
def str (s : List UInt8) : List UInt8 := s.takeWhile (· ≠ 0)

@[simp] theorem str_nil : str [] = [] := rfl

@[simp] theorem str_zero (s : List UInt8) : str (0 :: s) = [] := by simp [str]

theorem str_cons {c : UInt8} (hc : c ≠ 0) (s : List UInt8) : str (c :: s) = c :: str s := by
  simp [str, hc]

theorem zero_not_mem_str (s : List UInt8) : 0 ∉ str s := by
  intro h
  have := List.mem_takeWhile_imp h
  simp at this

theorem str_of_not_mem {s : List UInt8} (h : 0 ∉ s) : str s = s := by
  unfold str
  rw [List.takeWhile_eq_self_iff]
  intro c hc
  have : c ≠ 0 := by
    intro h0
    subst h0
    exact h hc
  simp [this]

theorem str_append {s t : List UInt8} (h : 0 ∉ s) : str (s ++ t) = s ++ str t := by
  induction s with
  | nil => rfl
  | cons c s ih =>
    rw [List.mem_cons, not_or] at h
    rw [List.cons_append, str_cons (Ne.symm h.1), ih h.2, List.cons_append]

theorem str_append_zero {s : List UInt8} (h : 0 ∉ s) (t : List UInt8) : str (s ++ 0 :: t) = s := by
  rw [str_append h, str_zero, List.append_nil]

theorem str_append_nul (s t : List UInt8) : str (s ++ 0 :: t) = str s := by
  induction s with
  | nil => exact str_zero t
  | cons c s ih =>
    by_cases hc : c = 0
    · rw [hc, List.cons_append, str_zero, str_zero]
    · rw [List.cons_append, str_cons hc, str_cons hc, ih]

/-- A string shorter than the list is followed by a NUL. -/
theorem eq_str_append (s : List UInt8) (h : (str s).length < s.length) :
    ∃ t, s = str s ++ 0 :: t := by
  induction s with
  | nil => simp at h
  | cons c s ih =>
    by_cases hc : c = 0
    · subst hc
      exact ⟨s, by simp⟩
    · rw [str_cons hc] at h ⊢
      obtain ⟨t, ht⟩ := ih (by simpa using h)
      exact ⟨t, by rw [List.cons_append, ← ht]⟩

theorem str_eq_nil_iff (s : List UInt8) : str s = [] ↔ s.headD 0 = 0 := by
  cases s with
  | nil => simp
  | cons c s =>
    by_cases hc : c = 0
    · simp [hc]
    · simp [str_cons hc, hc]

theorem headD_append {a : List UInt8} (ha : a ≠ []) (b : List UInt8) :
    (a ++ b).headD 0 = a.headD 0 := by
  obtain ⟨c, a, rfl⟩ := List.exists_cons_of_ne_nil ha
  rfl

theorem headD_mem {a : List UInt8} (ha : a ≠ []) : a.headD 0 ∈ a := by
  obtain ⟨c, a, rfl⟩ := List.exists_cons_of_ne_nil ha
  exact List.mem_cons_self

theorem headD_str (s : List UInt8) : (str s).headD 0 = s.headD 0 := by
  cases s with
  | nil => rfl
  | cons c s =>
    by_cases hc : c = 0
    · simp [hc]
    · rw [str_cons hc]; rfl

theorem take_str_of_le {s : List UInt8} {d : Nat} (h : d ≤ (str s).length) :
    s.take d = (str s).take d := by
  obtain ⟨t, ht⟩ := List.takeWhile_prefix (l := s) (p := (· ≠ 0))
  conv => lhs; rw [← ht]
  exact List.take_append_of_le_length h

theorem str_drop {s : List UInt8} {d : Nat} (h : d ≤ (str s).length) :
    str (s.drop d) = (str s).drop d := by
  induction s generalizing d with
  | nil => simp
  | cons c s ih =>
    cases d with
    | zero => rfl
    | succ d =>
      by_cases hc : c = 0
      · subst hc
        simp at h
      · rw [str_cons hc] at h ⊢
        rw [List.drop_succ_cons, List.drop_succ_cons]
        exact ih (by simpa using h)

theorem str_drop_append {s u w : List UInt8} (h : str s = u ++ w) : str (s.drop u.length) = w := by
  rw [str_drop (by rw [h, List.length_append]; omega), h]
  exact List.drop_left

theorem getD_str {s : List UInt8} {i : Nat} (h : i ≤ (str s).length) :
    (str s).getD i 0 = s.getD i 0 := by
  induction s generalizing i with
  | nil => rfl
  | cons c s ih =>
    by_cases hc : c = 0
    · subst hc
      rw [str_zero] at h ⊢
      rw [Nat.le_zero.mp h]
      rfl
    · rw [str_cons hc] at h ⊢
      cases i with
      | zero => rfl
      | succ i => exact ih (Nat.le_of_succ_le_succ h)

theorem concat_prefix_iff {u s : List UInt8} {c : UInt8} (hc : c ≠ 0) :
    u ++ [c] <+: s ↔ u <+: s ∧ s.getD u.length 0 = c := by
  constructor
  · rintro ⟨w, rfl⟩
    rw [List.append_assoc]
    exact ⟨List.prefix_append _ _, by simp⟩
  · rintro ⟨⟨w, rfl⟩, h⟩
    cases w with
    | nil => simp [Ne.symm hc] at h
    | cons x w =>
      have hx : x = c := by simpa using h
      exact ⟨w, by rw [hx, List.append_assoc]; rfl⟩

/-! ## Arrays -/

/-- `char[n]`. -/
structure Chars (n : Nat) where
  bytes : List UInt8
  length_eq : bytes.length = n
deriving DecidableEq

namespace Chars

variable {n : Nat}

@[ext] theorem ext {b b' : Chars n} (h : b.bytes = b'.bytes) : b = b' := by
  cases b
  cases b'
  cases h
  rfl

/-- All bytes `v`: `memset`. -/
def fill (n : Nat) (v : UInt8) : Chars n := ⟨List.replicate n v, List.length_replicate⟩

/-- A local array: what it holds before the first store is never read. -/
def uninit (n : Nat) : Chars n := fill n 0

@[simp] theorem bytes_fill (v : UInt8) : (fill n v).bytes = List.replicate n v := rfl

/-- `b[i]`. -/
def get (b : Chars n) (i : Nat) : UInt8 := b.bytes.getD i 0

/-- `b[i] = v`. -/
def put (b : Chars n) (i : Nat) (v : UInt8) : Option (Chars n) :=
  if i < n then some ⟨b.bytes.set i v, by rw [List.length_set, b.length_eq]⟩ else none

/-- The stores `b[d] = xs[0], b[d + 1] = xs[1], …` in turn. -/
def write (b : Chars n) (d : Nat) : List UInt8 → Option (Chars n)
  | [] => some b
  | x :: xs => (b.put d x).bind fun b => write b (d + 1) xs

theorem put_eq {b : Chars n} {i : Nat} (h : i < n) (v : UInt8) :
    ∃ b', b.put i v = some b' ∧ b'.bytes = b.bytes.set i v :=
  ⟨_, if_pos h, rfl⟩

theorem put_bytes {b b' : Chars n} {i : Nat} {v : UInt8} (h : b.put i v = some b') :
    i < n ∧ b'.bytes = b.bytes.set i v := by
  unfold put at h
  split at h
  · cases h
    exact ⟨by assumption, rfl⟩
  · cases h

theorem get_zero (b : Chars n) : b.get 0 = b.bytes.headD 0 := by
  unfold get
  cases b.bytes with
  | nil => rfl
  | cons c l => rfl

theorem get_put_ne {b b' : Chars n} {i j : Nat} {v : UInt8} (h : b.put i v = some b')
    (hj : j ≠ i) : b'.get j = b.get j := by
  obtain ⟨_, hb⟩ := put_bytes h
  unfold get
  rw [hb, List.getD_eq_getElem?_getD, List.getElem?_set_ne (Ne.symm hj),
    List.getD_eq_getElem?_getD]

theorem get_put_self {b b' : Chars n} {i : Nat} {v : UInt8} (h : b.put i v = some b') :
    b'.get i = v := by
  obtain ⟨hi, hb⟩ := put_bytes h
  unfold get
  rw [hb, List.getD_eq_getElem?_getD, List.getElem?_set_self (by rw [b.length_eq]; exact hi)]
  rfl

/-- Inside of the string the array reads as the string. -/
theorem get_eq_str (b : Chars n) {i : Nat} (h : i < (str b.bytes).length) :
    b.get i = (str b.bytes)[i] := by
  obtain ⟨t, ht⟩ := List.takeWhile_prefix (l := b.bytes) (p := (· ≠ 0))
  have hsplit : b.bytes = str b.bytes ++ t := ht.symm
  unfold get
  rw [List.getD_eq_getElem?_getD]
  conv => lhs; rw [hsplit]
  rw [List.getElem?_append_left h, List.getElem?_eq_getElem h]
  rfl

theorem write_append (b : Chars n) (d : Nat) (xs ys : List UInt8) :
    b.write d (xs ++ ys) = (b.write d xs).bind fun b => b.write (d + xs.length) ys := by
  induction xs generalizing b d with
  | nil => rfl
  | cons x xs ih =>
    simp only [List.cons_append, write, List.length_cons]
    cases b.put d x with
    | none => rfl
    | some b =>
      simp only [Option.bind_some]
      rw [ih, show d + 1 + xs.length = d + (xs.length + 1) by omega]

theorem write_singleton (b : Chars n) (d : Nat) (v : UInt8) : b.write d [v] = b.put d v := by
  simp [write]

/-- A run of stores that fits replaces the bytes it covers. -/
theorem write_eq (b : Chars n) (d : Nat) (xs : List UInt8) (h : d + xs.length ≤ n) :
    ∃ b', b.write d xs = some b' ∧
      b'.bytes = b.bytes.take d ++ xs ++ b.bytes.drop (d + xs.length) := by
  induction xs generalizing b d with
  | nil => exact ⟨b, rfl, by simp⟩
  | cons x xs ih =>
    rw [List.length_cons] at h
    obtain ⟨b₁, h1, hb1⟩ := put_eq (b := b) (i := d) (by omega) x
    obtain ⟨b', h', hb'⟩ := ih b₁ (d + 1) (by omega)
    refine ⟨b', ?_, ?_⟩
    · rw [write, h1, Option.bind_some, h']
    · have hd : d < b.bytes.length := by rw [b.length_eq]; omega
      have htake : (b.bytes.set d x).take (d + 1) = b.bytes.take d ++ [x] := by
        rw [List.take_add_one, List.take_set_of_le (Nat.le_refl d)]
        simp [hd]
      rw [hb', hb1, htake, List.drop_set_of_lt (by omega), List.length_cons,
        show d + 1 + xs.length = d + (xs.length + 1) by omega]
      simp

/-- A run of stores that does not fit fails. -/
theorem write_eq_none (b : Chars n) (d : Nat) (xs : List UInt8) (hx : xs ≠ [])
    (h : n < d + xs.length) : b.write d xs = none := by
  induction xs generalizing b d with
  | nil => exact absurd rfl hx
  | cons x xs ih =>
    rw [List.length_cons] at h
    rw [write]
    by_cases hd : d < n
    · obtain ⟨b₁, h1, _⟩ := put_eq (b := b) hd x
      rw [h1, Option.bind_some]
      exact ih b₁ (d + 1) (by rintro rfl; simp at h; omega) (by omega)
    · rw [put, if_neg hd, Option.bind_none]

theorem write_isSome (b : Chars n) (d : Nat) (xs : List UInt8) (hx : xs ≠ []) :
    (b.write d xs).isSome ↔ d + xs.length ≤ n := by
  constructor
  · intro h
    by_contra hn
    rw [write_eq_none b d xs hx (by omega)] at h
    cases h
  · intro h
    obtain ⟨b', hb', _⟩ := write_eq b d xs h
    rw [hb']
    rfl

theorem bytes_write {b b' : Chars n} {d : Nat} {xs : List UInt8} (hx : xs ≠ [])
    (h : b.write d xs = some b') :
    d + xs.length ≤ n ∧ b'.bytes = b.bytes.take d ++ xs ++ b.bytes.drop (d + xs.length) := by
  have hfit : d + xs.length ≤ n := (write_isSome b d xs hx).mp (by rw [h]; rfl)
  obtain ⟨b₁, h1, hb1⟩ := write_eq b d xs hfit
  rw [h] at h1
  cases h1
  exact ⟨hfit, hb1⟩

/-- A NUL stored ends the string before it. -/
theorem length_str_put {b b' : Chars n} {i : Nat} (h : b.put i 0 = some b') :
    (str b'.bytes).length < n := by
  have hi : i < n := by
    by_contra hi
    rw [put, if_neg hi] at h
    cases h
  obtain ⟨b₁, h1, hb1⟩ := put_eq (b := b) hi 0
  rw [h] at h1
  cases h1
  have h0 : 0 ∈ b'.bytes := by
    rw [hb1]
    exact List.mem_set (by rw [b.length_eq]; exact hi) 0
  have hle : (str b'.bytes).length ≤ b'.bytes.length := (List.takeWhile_prefix _).length_le
  rw [b'.length_eq] at hle
  refine Nat.lt_of_le_of_ne hle ?_
  intro heq
  have hall : str b'.bytes = b'.bytes :=
    (List.takeWhile_prefix _).eq_of_length (by rw [b'.length_eq]; exact heq)
  rw [← hall] at h0
  exact zero_not_mem_str _ h0

/-- A string written into the string already there, or right behind it. -/
theorem str_write {b b' : Chars n} {d : Nat} {s : List UInt8} (hs : 0 ∉ s)
    (hd : d ≤ (str b.bytes).length) (h : b.write d (s ++ [0]) = some b') :
    str b'.bytes = (str b.bytes).take d ++ s := by
  obtain ⟨_, hb'⟩ := bytes_write (by simp) h
  have h0 : 0 ∉ (str b.bytes).take d ++ s := by
    rw [List.mem_append, not_or]
    exact ⟨fun hm => zero_not_mem_str _ (List.mem_of_mem_take hm), hs⟩
  rw [hb', take_str_of_le hd, ← List.append_assoc, List.append_assoc, List.singleton_append,
    str_append_zero h0]

end Chars

end Lib
