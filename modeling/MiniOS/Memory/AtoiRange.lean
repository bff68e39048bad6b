import MiniOS.Memory.Numbers

/-!
# The `int`s of `atoi` (`kernel/memory.c`)

`res * 10 + str[i] - '0'` is evaluated from the left, so the character code is
added in full before `'0'` is taken off.  For the last digit the sum is the
number and 48, which leaves the `int`s for the 48 largest numbers
(`atoi_inRange_iff`).
-/

namespace MiniOS

open Lib

/-- The results of `res * 10`, `… + str[i]` and `… - '0'`, round by round. -/
def atoiDigitsInts (res : Int) : List UInt8 → List Int
  | [] => []
  | c :: s =>
    if ch '0' ≤ c ∧ c ≤ ch '9' then
      res * 10 :: (res * 10 + c.toNat) :: (res * 10 + c.toNat - (ch '0').toNat) ::
        atoiDigitsInts (i32 (res * 10 + c.toNat - (ch '0').toNat)) s
    else []

/-- All results of `int` expressions in `atoi`, the last of them that of `sign * res`. -/
def atoiInts (s : List UInt8) : List Int :=
  if s.headD 0 = ch '-' then atoiDigitsInts 0 (s.drop 1) ++ [-1 * atoiDigits 0 (s.drop 1)]
  else if s.headD 0 = ch '+' then atoiDigitsInts 0 (s.drop 1) ++ [1 * atoiDigits 0 (s.drop 1)]
  else atoiDigitsInts 0 s ++ [1 * atoiDigits 0 s]

/-- A value of the 32-bit `int`. -/
def IsInt (z : Int) : Prop := -2 ^ 31 ≤ z ∧ z < 2 ^ 31

instance (z : Int) : Decidable (IsInt z) := inferInstanceAs (Decidable (_ ∧ _))

/-- A text of decimal digits. -/
def AllDigits (s : List UInt8) : Prop := ∀ c ∈ s, ch '0' ≤ c ∧ c ≤ ch '9'

variable {res : Int} {ds rest s : List UInt8}

theorem digit_bounds {c : UInt8} (hc : ch '0' ≤ c ∧ c ≤ ch '9') :
    (ch '0').toNat = 48 ∧ 48 ≤ c.toNat ∧ c.toNat ≤ 57 :=
  ⟨rfl, (isDigit_iff c).mp hc⟩

/-- Reading on makes the number larger. -/
theorem le_numeralDigits (hres : 0 ≤ res) (s : List UInt8) : res ≤ numeralDigits res s := by
  induction s generalizing res with
  | nil => exact Int.le_refl res
  | cons c s ih =>
    rw [numeralDigits]
    split
    · rename_i hc
      have hb := digit_bounds hc
      have := ih (show 0 ≤ res * 10 + c.toNat - (ch '0').toNat by omega)
      omega
    · exact Int.le_refl res

/-- `atoi` returns the last of the results. -/
theorem getLast?_atoiInts (s : List UInt8) : (atoiInts s).getLast?.map i32 = some (atoi s) := by
  have hwrap : ∀ s, i32 (atoiDigits 0 s) = atoiDigits 0 s := by
    intro s
    rw [show atoiDigits 0 s = i32 (numeralDigits 0 s) from atoiDigits_eq 0 s]
    exact i32_congr (i32_emod _)
  unfold atoiInts atoi
  split
  · simp
  split
  · simp [hwrap]
  · simp [hwrap]

/-- **The digits.**  The sum with the last character is the largest result. -/
theorem atoiDigits_inRange_iff (hres : 0 ≤ res) (hds : AllDigits ds)
    (hrest : ∀ c ∈ rest.head?, c.toNat < 48 ∨ 57 < c.toNat) :
    (∀ e ∈ atoiDigitsInts res (ds ++ rest), IsInt e) ↔
      ds = [] ∨ numeralDigits res (ds ++ rest) ≤ 2147483599 := by
  induction ds generalizing res with
  | nil =>
    refine iff_of_true ?_ (.inl rfl)
    intro e he
    cases rest with
    | nil => cases he
    | cons c rest =>
      have hc := hrest c rfl
      rw [List.nil_append, atoiDigitsInts, if_neg (by rw [isDigit_iff]; omega)] at he
      cases he
  | cons c ds ih =>
    obtain ⟨hc, hds⟩ := List.forall_mem_cons.mp hds
    have hb := digit_bounds hc
    have hle := le_numeralDigits (show 0 ≤ res * 10 + c.toNat - (ch '0').toNat by omega)
      (ds ++ rest)
    rw [List.cons_append, atoiDigitsInts, if_pos hc, numeralDigits, if_pos hc]
    simp only [List.forall_mem_cons, IsInt, reduceCtorEq, false_or]
    constructor
    · rintro ⟨-, ⟨-, hsum⟩, hnext, htail⟩
      rw [i32_of_lt hnext.1 hnext.2] at htail
      rcases (ih (by omega) hds).mp htail with rfl | hrec
      · -- the last digit
        have hstop : numeralDigits (res * 10 + c.toNat - (ch '0').toNat) ([] ++ rest) =
            res * 10 + c.toNat - (ch '0').toNat := by
          cases rest with
          | nil => rfl
          | cons d rest => exact numeralDigits_stop (hrest d rfl) _ rest
        omega
      · exact hrec
    · intro hmax
      refine ⟨by omega, by omega, by omega, ?_⟩
      rw [i32_of_lt (by omega) (by omega)]
      exact (ih (by omega) hds).mpr (.inr hmax)

/-- The digits and the product with the sign. -/
theorem atoiSigned_inRange_iff {k : Int} (hk : k = 1 ∨ k = -1) (hds : AllDigits ds)
    (hrest : ∀ c ∈ rest.head?, c.toNat < 48 ∨ 57 < c.toNat) :
    (∀ e ∈ atoiDigitsInts 0 (ds ++ rest) ++ [k * atoiDigits 0 (ds ++ rest)], IsInt e) ↔
      numeralDigits 0 (ds ++ rest) ≤ 2147483599 := by
  have hdigits := atoiDigits_inRange_iff (Int.le_refl 0) hds hrest
  have hpos := le_numeralDigits (Int.le_refl 0) (ds ++ rest)
  have hval : atoiDigits 0 (ds ++ rest) = i32 (numeralDigits 0 (ds ++ rest)) :=
    atoiDigits_eq 0 (ds ++ rest)
  simp only [List.forall_mem_append, List.forall_mem_singleton, hdigits, hval]
  constructor
  · rintro ⟨rfl | hmax, -⟩
    · cases rest with
      | nil => decide
      | cons c rest =>
        rw [List.nil_append, numeralDigits_stop (hrest c rfl)]
        decide
    · exact hmax
  · intro hmax
    refine ⟨.inr hmax, ?_⟩
    rw [i32_of_lt (by omega) (by omega)]
    unfold IsInt
    rcases hk with rfl | rfl
    · omega
    · omega

/-- A list is its string, followed by nothing or a NUL. -/
theorem exists_str_append (s : List UInt8) :
    ∃ rest, s = str s ++ rest ∧ ∀ c ∈ rest.head?, c = 0 := by
  by_cases h : (str s).length < s.length
  · obtain ⟨t, ht⟩ := eq_str_append s h
    exact ⟨0 :: t, ht, by simp⟩
  · have hpre : str s <+: s := List.takeWhile_prefix _
    exact ⟨[], by rw [List.append_nil, hpre.eq_of_length_le (by omega)], nofun⟩

/-- Digits do not start with a sign. -/
theorem headD_digits (hds : AllDigits ds) (hrest : ∀ c ∈ rest.head?, c = 0) :
    (ds ++ rest).headD 0 ≠ ch '-' ∧ (ds ++ rest).headD 0 ≠ ch '+' := by
  have hhead : (ds ++ rest).headD 0 = 0 ∨ 48 ≤ ((ds ++ rest).headD 0).toNat := by
    cases ds with
    | nil =>
      cases rest with
      | nil => exact .inl rfl
      | cons c rest => exact .inl (hrest c rfl)
    | cons c ds => exact .inr (digit_bounds (hds c List.mem_cons_self)).2.1
  rcases hhead with h | h
  · rw [h]
    exact ⟨by decide, by decide⟩
  · constructor
    · intro heq
      rw [heq] at h
      exact absurd h (by decide)
    · intro heq
      rw [heq] at h
      exact absurd h (by decide)

/-- **Overflow.**  All results are `int`s exactly if the number is at most `INT_MAX - 48`, of
either sign. -/
theorem atoi_inRange_iff {sign : List UInt8} (hs : str s = sign ++ ds)
    (hsign : sign = [] ∨ sign = text "-" ∨ sign = text "+") (hds : AllDigits ds) :
    (∀ e ∈ atoiInts s, IsInt e) ↔ (numeral s).natAbs ≤ 2147483599 := by
  obtain ⟨rest, hsplit, hnul⟩ := exists_str_append s
  have hrest : ∀ c ∈ rest.head?, c.toNat < 48 ∨ 57 < c.toNat := by
    intro c hc
    rw [hnul c hc]
    exact .inl (by decide)
  have hpos := le_numeralDigits (Int.le_refl 0) (ds ++ rest)
  rw [hs, List.append_assoc] at hsplit
  subst hsplit
  rcases hsign with rfl | rfl | rfl
  · obtain ⟨hminus, hplus⟩ := headD_digits hds hnul
    rw [List.nil_append, atoiInts, if_neg hminus, if_neg hplus,
      atoiSigned_inRange_iff (.inl rfl) hds hrest, numeral, if_neg hminus, if_neg hplus]
    omega
  · have hiff := atoiSigned_inRange_iff (k := -1) (.inr rfl) hds hrest
    rw [show atoiInts (text "-" ++ (ds ++ rest)) = atoiDigitsInts 0 (ds ++ rest) ++
      [-1 * atoiDigits 0 (ds ++ rest)] from rfl, hiff,
      show numeral (text "-" ++ (ds ++ rest)) = -numeralDigits 0 (ds ++ rest) from rfl]
    omega
  · have hiff := atoiSigned_inRange_iff (k := 1) (.inl rfl) hds hrest
    rw [show atoiInts (text "+" ++ (ds ++ rest)) = atoiDigitsInts 0 (ds ++ rest) ++
      [1 * atoiDigits 0 (ds ++ rest)] from rfl, hiff,
      show numeral (text "+" ++ (ds ++ rest)) = numeralDigits 0 (ds ++ rest) from rfl]
    omega

theorem atoi_inRange_iff_max :
    (∀ e ∈ atoiInts (text "-2147483599"), IsInt e) ∧
      ¬ ∀ e ∈ atoiInts (text "2147483600"), IsInt e := by
  constructor
  · exact (atoi_inRange_iff (show str (text "-2147483599") = text "-" ++ text "2147483599" from rfl)
      (.inr (.inl rfl)) (forall_of_all (by decide))).mpr (by decide)
  · intro h
    exact absurd ((atoi_inRange_iff (show str (text "2147483600") = [] ++ text "2147483600" from rfl)
      (.inl rfl) (forall_of_all (by decide))).mp h) (by decide)

/-- The sum with the last character of `2147483647` is no `int`. -/
theorem atoi_overflows : str (text "2147483647") = text "2147483647" ∧
    AllDigits (text "2147483647") ∧ IsInt (numeral (text "2147483647")) ∧
      ¬ ∀ e ∈ atoiInts (text "2147483647"), IsInt e := by
  refine ⟨rfl, forall_of_all (by decide), by decide, ?_⟩
  intro h
  have hmem : 2147483695 ∈ atoiInts (text "2147483647") := by decide
  exact absurd (h _ hmem) (by decide)

end MiniOS
