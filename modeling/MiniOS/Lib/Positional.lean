import Mathlib.Data.Nat.Digits.Lemmas

/-!
# Numerals in any base

`numeralIn b sym n` writes `n` in base `b` with the symbols `sym`, the most
significant digit first and no leading zero.  `positional b val s` is the value
of the symbols `s`.  If `val` reads the symbols of the digits back, it reads the
numeral back (`positional_numeralIn`), so no two numbers have one numeral.
-/

namespace Lib

variable {α : Type*} {b n k : ℕ} {sym : ℕ → α} {val : α → ℕ}

/-- The numeral of `n`. -/
def numeralIn (b : ℕ) (sym : ℕ → α) (n : ℕ) : List α :=
  if n = 0 then [sym 0] else ((Nat.digits b n).map sym).reverse

/-- The value of a text of symbols. -/
def positional (b : ℕ) (val : α → ℕ) (s : List α) : ℕ := s.foldl (fun v a => v * b + val a) 0

theorem numeralIn_of_pos (hn : n ≠ 0) :
    numeralIn b sym n = ((Nat.digits b n).map sym).reverse := if_neg hn

/-- The last digit, and the numeral of the rest if there is one. -/
theorem numeralIn_eq (hb : 1 < b) (n : ℕ) :
    numeralIn b sym n = (if n < b then [] else numeralIn b sym (n / b)) ++ [sym (n % b)] := by
  by_cases hn : n = 0
  · simp [hn, numeralIn, show 0 < b by omega]
  · rw [numeralIn_of_pos hn, Nat.digits_eq_cons_digits_div hb hn, List.map_cons, List.reverse_cons]
    split
    · rename_i h
      rw [Nat.div_eq_of_lt h, Nat.digits_zero]
      rfl
    · rename_i h
      have hdiv : n / b ≠ 0 := by
        have := Nat.div_pos (Nat.le_of_not_lt h) (by omega)
        omega
      rw [numeralIn_of_pos hdiv]

theorem numeralIn_ne_nil (b n : ℕ) : numeralIn b sym n ≠ [] := by
  unfold numeralIn
  split
  · simp
  · rename_i hn
    simpa [Nat.digits_eq_nil_iff_eq_zero] using hn

/-- Every symbol stands for a digit. -/
theorem mem_numeralIn (hb : 1 < b) {a : α} (ha : a ∈ numeralIn b sym n) : ∃ d, d < b ∧ a = sym d := by
  unfold numeralIn at ha
  split at ha
  · exact ⟨0, by omega, List.mem_singleton.mp ha⟩
  · rw [List.mem_reverse, List.mem_map] at ha
    obtain ⟨d, hd, rfl⟩ := ha
    exact ⟨d, Nat.digits_lt_base hb hd, rfl⟩

/-- The first symbol does not stand for zero, unless the number is zero. -/
theorem head_numeralIn (hb : 1 < b) (hn : n ≠ 0) {a : α} (ha : (numeralIn b sym n).head? = some a) :
    ∃ d, 0 < d ∧ d < b ∧ a = sym d := by
  have hne : Nat.digits b n ≠ [] := Nat.digits_ne_nil_iff_ne_zero.mpr hn
  have hlast := Nat.getLast_digit_ne_zero b hn
  rw [numeralIn_of_pos hn, List.head?_reverse, List.getLast?_map, List.getLast?_eq_some_getLast hne,
    Option.map_some, Option.some.injEq] at ha
  exact ⟨_, Nat.pos_of_ne_zero hlast, Nat.digits_lt_base hb (List.getLast_mem hne), ha.symm⟩

theorem length_numeralIn_le (hb : 1 < b) (hk : 0 < k) (h : n < b ^ k) :
    (numeralIn b sym n).length ≤ k := by
  unfold numeralIn
  split
  · exact hk
  · simpa using (Nat.digits_length_le_iff hb n).mpr h

/-! ## The value -/

theorem positional_reverse (l : List α) :
    positional b val l.reverse = Nat.ofDigits b (l.map val) := by
  induction l with
  | nil => rfl
  | cons a l ih =>
    have hfold : positional b val (l.reverse ++ [a]) = positional b val l.reverse * b + val a := by
      simp [positional]
    rw [List.reverse_cons, hfold, ih, List.map_cons, Nat.ofDigits_cons, Nat.mul_comm, Nat.add_comm]

/-- **Reading back.** -/
theorem positional_numeralIn (hb : 1 < b) (hval : ∀ d, d < b → val (sym d) = d) (n : ℕ) :
    positional b val (numeralIn b sym n) = n := by
  by_cases hn : n = 0
  · simp [hn, numeralIn, positional, hval 0 (by omega)]
  · have hread : ((Nat.digits b n).map sym).map val = Nat.digits b n := by
      rw [List.map_map]
      conv => rhs; rw [← List.map_id (Nat.digits b n)]
      apply List.map_congr_left
      intro d hd
      exact hval d (Nat.digits_lt_base hb hd)
    rw [numeralIn_of_pos hn, positional_reverse, hread, Nat.ofDigits_digits]

end Lib
