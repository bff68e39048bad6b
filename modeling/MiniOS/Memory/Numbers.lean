import MiniOS.Lib.CString
import MiniOS.Target

/-!
# Numerals (`atoi`, `itoa` in `kernel/memory.c`)

`atoi` reads the digits at the start of a string into an `int` that wraps, so
what it returns is the number that stands there, wrapped (`atoi_eq`).  `itoa`
prints every `int` as a numeral that is read back as itself (`atoi_itoa`), also
where it is followed by something else (`numeral_itoa_append`).
-/

namespace MiniOS

open Lib

/-- The digits of `atoi`. -/
def atoiDigits (res : Int) : List UInt8 → Int
  | [] => res
  | c :: s =>
    if ch '0' ≤ c ∧ c ≤ ch '9' then atoiDigits (i32 (res * 10 + c.toNat - (ch '0').toNat)) s else res

def atoi (s : List UInt8) : Int :=
  if s.headD 0 = ch '-' then i32 (-1 * atoiDigits 0 (s.drop 1))
  else if s.headD 0 = ch '+' then atoiDigits 0 (s.drop 1)
  else atoiDigits 0 s

/-- `itoa(value, buf, 10)`. -/
def itoa (value : Int) : List UInt8 :=
  if value < 0 then ch '-' :: decimal (u32OfInt (-value)) else decimal (u32OfInt value)

/-- The number a text begins with. -/
def numeralDigits (res : Int) : List UInt8 → Int
  | [] => res
  | c :: s =>
    if ch '0' ≤ c ∧ c ≤ ch '9' then numeralDigits (res * 10 + c.toNat - (ch '0').toNat) s else res

def numeral (s : List UInt8) : Int :=
  if s.headD 0 = ch '-' then -numeralDigits 0 (s.drop 1)
  else if s.headD 0 = ch '+' then numeralDigits 0 (s.drop 1)
  else numeralDigits 0 s

/-! ## Wrapping -/

theorem i32_congr {a b : Int} (h : a % 2 ^ 32 = b % 2 ^ 32) : i32 a = i32 b := by
  unfold i32
  rw [Int.bmod_def, Int.bmod_def]
  have h' : a % ((2 ^ 32 : Nat) : Int) = b % ((2 ^ 32 : Nat) : Int) := h
  rw [h']

theorem i32_emod (a : Int) : i32 a % 2 ^ 32 = a % 2 ^ 32 := Int.bmod_emod

theorem i32_eq_iff {a b : Int} : i32 a = i32 b ↔ a % 2 ^ 32 = b % 2 ^ 32 := by
  constructor
  · intro h
    rw [← i32_emod a, h, i32_emod]
  · exact i32_congr

theorem i32_bounds (a : Int) : -2 ^ 31 ≤ i32 a ∧ i32 a < 2 ^ 31 := by
  unfold i32
  rw [Int.bmod_def]
  split
  · omega
  · omega

/-! ## Reading -/

theorem atoiDigits_eq (res : Int) (s : List UInt8) :
    atoiDigits (i32 res) s = i32 (numeralDigits res s) := by
  induction s generalizing res with
  | nil => rfl
  | cons c s ih =>
    unfold atoiDigits numeralDigits
    split
    · rw [← ih]
      congr 1
      apply i32_congr
      have := i32_emod res
      omega
    · rfl

/-- `atoi` is the number, wrapped. -/
theorem atoi_eq (s : List UInt8) : atoi s = i32 (numeral s) := by
  have h0 : ∀ s, atoiDigits 0 s = i32 (numeralDigits 0 s) := fun s => atoiDigits_eq 0 s
  unfold atoi numeral
  split
  · rw [h0]
    apply i32_congr
    have := i32_emod (numeralDigits 0 (s.drop 1))
    omega
  · split
    · exact h0 _
    · exact h0 _

/-! ## Printing -/

/-- The digit `d`. -/
def digit (d : Nat) : UInt8 := (Nat.digitChar d).toUInt8

theorem digit_toNat {d : Nat} (hd : d < 10) : (digit d).toNat = 48 + d := by
  have hall : ∀ d, d < 10 → (digit d).toNat = 48 + d := by decide
  exact hall d hd

theorem isDigit_iff (c : UInt8) : (ch '0' ≤ c ∧ c ≤ ch '9') ↔ 48 ≤ c.toNat ∧ c.toNat ≤ 57 := by
  rw [UInt8.le_iff_toNat_le, UInt8.le_iff_toNat_le]
  exact Iff.rfl

theorem decimal_eq (n : Nat) :
    decimal n = (if n < 10 then [] else decimal (n / 10)) ++ [digit (n % 10)] := by
  unfold decimal
  rw [Nat.toDigits_eq_if (by decide)]
  by_cases hn : n < 10
  · rw [if_pos hn, if_pos hn, Nat.mod_eq_of_lt hn]
    rfl
  · rw [if_neg hn, if_neg hn, List.map_append]
    rfl

/-- A numeral consists of digits. -/
theorem decimal_digits (n : Nat) : ∀ c ∈ decimal n, 48 ≤ c.toNat ∧ c.toNat ≤ 57 := by
  induction n using Nat.strongRecOn with
  | ind n ih =>
    intro c hc
    rw [decimal_eq, List.mem_append, List.mem_singleton] at hc
    rcases hc with hc | rfl
    · split at hc
      · cases hc
      · exact ih (n / 10) (by omega) c hc
    · have := digit_toNat (Nat.mod_lt n (show 10 > 0 by omega))
      omega

theorem zero_notMem_decimal (n : Nat) : 0 ∉ decimal n :=
  fun h0 => absurd (decimal_digits n 0 h0).1 (by decide)

theorem tab_notMem_decimal (n : Nat) : ch '\t' ∉ decimal n :=
  fun htab => absurd (decimal_digits n _ htab).1 (by decide)

theorem zero_notMem_itoa (z : Int) : 0 ∉ itoa z := by
  unfold itoa
  split
  · rw [List.mem_cons, not_or]
    exact ⟨by decide, zero_notMem_decimal _⟩
  · exact zero_notMem_decimal _

/-- A line with a number in it. -/
theorem zero_notMem_count {s u : List UInt8} (hs : 0 ∉ s) (hu : 0 ∉ u) {n : Nat} :
    0 ∉ s ++ decimal n ++ u := by
  simp only [List.mem_append, not_or]
  exact ⟨⟨hs, zero_notMem_decimal n⟩, hu⟩

theorem decimal_ne_nil (n : Nat) : decimal n ≠ [] := by
  rw [decimal_eq]
  exact List.append_ne_nil_of_right_ne_nil _ (List.cons_ne_nil _ _)

/-- A numeral with `k` digits at most. -/
theorem decimal_length_le {n k : Nat} (hk : 0 < k) (h : n < 10 ^ k) : (decimal n).length ≤ k := by
  unfold decimal
  rw [List.length_map]
  exact (Nat.length_toDigits_le_iff (by decide) hk).mpr h

/-- The digits of `n` are read as `n`, and the reading goes on behind them. -/
theorem numeralDigits_decimal (n : Nat) (rest : List UInt8) :
    numeralDigits 0 (decimal n ++ rest) = numeralDigits n rest := by
  induction n using Nat.strongRecOn generalizing rest with
  | ind n ih =>
    have hd := digit_toNat (Nat.mod_lt n (show 10 > 0 by omega))
    have h0 : (ch '0').toNat = 48 := rfl
    have hread : ∀ res : Int, res * 10 + (n % 10 : Nat) = n →
        numeralDigits res (digit (n % 10) :: rest) = numeralDigits n rest := by
      intro res hres
      rw [numeralDigits, if_pos ((isDigit_iff _).mpr (by omega)), hd, h0]
      congr 1
      omega
    rw [decimal_eq, List.append_assoc, List.singleton_append]
    by_cases hn : n < 10
    · rw [if_pos hn]
      exact hread 0 (by omega)
    · rw [if_neg hn, ih (n / 10) (by omega)]
      exact hread (n / 10 : Nat) (by omega)

theorem numeralDigits_stop {c : UInt8} (hc : c.toNat < 48 ∨ 57 < c.toNat) (res : Int)
    (rest : List UInt8) : numeralDigits res (c :: rest) = res := by
  rw [numeralDigits, if_neg (by rw [isDigit_iff]; omega)]

theorem u32OfInt_of_lt {z : Int} (h0 : 0 ≤ z) (h : z < 2 ^ 32) : (u32OfInt z : Int) = z := by
  unfold u32OfInt
  rw [Int.emod_eq_of_lt h0 h]
  omega

/-- A numeral and its sign are read back, whatever stands behind them but a digit. -/
theorem numeral_itoa_append {z : Int} (hlo : -2 ^ 31 ≤ z) (hhi : z < 2 ^ 31) {rest : List UInt8}
    (hrest : ∀ c ∈ rest.head?, c.toNat < 48 ∨ 57 < c.toNat) : numeral (itoa z ++ rest) = z := by
  have hstop : ∀ res : Int, numeralDigits res rest = res := by
    intro res
    cases rest with
    | nil => rfl
    | cons c rest => exact numeralDigits_stop (hrest c rfl) res rest
  unfold itoa
  split
  · have hz := u32OfInt_of_lt (z := -z) (by omega) (by omega)
    have hhead : (ch '-' :: decimal (u32OfInt (-z)) ++ rest).headD 0 = ch '-' := rfl
    rw [numeral, if_pos hhead, List.cons_append, List.drop_succ_cons, List.drop_zero,
      numeralDigits_decimal, hstop, hz]
    omega
  · have hz := u32OfInt_of_lt (z := z) (by omega) (by omega)
    cases hdec : decimal (u32OfInt z) with
    | nil => exact absurd hdec (decimal_ne_nil _)
    | cons c s =>
      have hc := decimal_digits (u32OfInt z) c (by rw [hdec]; exact List.mem_cons_self)
      have hne : ∀ d : UInt8, d.toNat < 48 → c ≠ d := by
        rintro d hd rfl
        omega
      rw [numeral, List.cons_append, List.headD_cons, if_neg (hne (ch '-') (by decide)),
        if_neg (hne (ch '+') (by decide)), ← List.cons_append, ← hdec, numeralDigits_decimal, hstop, hz]

theorem numeral_itoa {z : Int} (hlo : -2 ^ 31 ≤ z) (hhi : z < 2 ^ 31) : numeral (itoa z) = z := by
  have h := numeral_itoa_append hlo hhi (show ∀ c ∈ ([] : List UInt8).head?, _ from nofun)
  rwa [List.append_nil] at h

/-- A numeral does not start with a blank. -/
theorem itoa_headD (a : Int) (rest : List UInt8) :
    (itoa a ++ rest).headD 0 ≠ ch ' ' ∧ (itoa a ++ rest).headD 0 ≠ ch '\t' := by
  have hne : itoa a ≠ [] := by
    unfold itoa
    split
    · exact List.cons_ne_nil _ _
    · exact decimal_ne_nil _
  have hhead : ∀ c ∈ itoa a, c = ch '-' ∨ 48 ≤ c.toNat := by
    intro c hc
    unfold itoa at hc
    split at hc
    · rcases List.mem_cons.mp hc with rfl | hc
      · exact .inl rfl
      · exact .inr (decimal_digits _ c hc).1
    · exact .inr (decimal_digits _ c hc).1
  rw [headD_append hne]
  rcases hhead _ (headD_mem hne) with h | h
  · rw [h]
    exact ⟨by decide, by decide⟩
  · refine ⟨?_, ?_⟩
    · intro heq
      rw [heq] at h
      exact absurd h (by decide)
    · intro heq
      rw [heq] at h
      exact absurd h (by decide)

theorem itoa_natCast {n : Nat} (h : n < 2 ^ 32) : itoa n = decimal n := by
  have hn := u32OfInt_of_lt (z := n) (by omega) (by omega)
  unfold itoa
  rw [if_neg (by omega), Int.ofNat_inj.mp hn]

/-- **The round trip.** -/
theorem atoi_itoa {z : Int} (hlo : -2 ^ 31 ≤ z) (hhi : z < 2 ^ 31) : atoi (itoa z) = z := by
  rw [atoi_eq, numeral_itoa hlo hhi, i32_of_lt hlo hhi]

end MiniOS
