import Mathlib.Algebra.BigOperators.Intervals
import Mathlib.Algebra.BigOperators.Ring.Finset
import Mathlib.Data.Nat.ModEq
import Mathlib.Data.Nat.Prime.Basic
import Mathlib.Dynamics.PeriodicPts.Defs
import Mathlib.Tactic.Ring

/-!
# Affine maps modulo a power of two

`affine m a c` maps `x` to `a * x + c`, modulo `m`.  `n` steps from `x` add
`((a - 1) * x + c) * geom a n` to it (`affine_iterate`), where `geom a n` is the
sum of the first `n` powers of `a`.

For `a % 4 = 1` a power of two divides `geom a n` exactly if it divides `n`
(`two_pow_dvd_geom_iff`).  If `c` is odd too, the other factor is odd, so the
map modulo `2 ^ k` is one cycle through all numbers below `2 ^ k`
(`affine_minimalPeriod`).
-/

namespace Lib

/-- One step of the map. -/
def affine (m a c x : ℕ) : ℕ := (a * x + c) % m

/-- `1 + a + … + a ^ (n - 1)`. -/
def geom (a n : ℕ) : ℕ := ∑ i ∈ Finset.range n, a ^ i

variable {m a c k n x : ℕ}

@[simp] theorem geom_zero (a : ℕ) : geom a 0 = 0 := Finset.sum_range_zero _

theorem geom_succ (a n : ℕ) : geom a (n + 1) = geom a n + a ^ n := Finset.sum_range_succ _ _

theorem geom_double (a n : ℕ) : geom a (n + n) = geom a n * (1 + a ^ n) := by
  unfold geom
  rw [Finset.sum_range_add, mul_add, mul_one, mul_comm _ (a ^ n), Finset.mul_sum]
  simp only [pow_add]

/-! ## Powers of two -/

theorem pow_mod_four (ha : a % 4 = 1) (n : ℕ) : a ^ n % 4 = 1 := by
  rw [Nat.pow_mod, ha, one_pow, Nat.mod_eq_of_lt (by omega)]

theorem two_pow_coprime (k : ℕ) {q : ℕ} (hq : q % 2 = 1) : Nat.Coprime (2 ^ k) q :=
  (Nat.coprime_two_left.mpr (Nat.odd_iff.mpr hq)).pow_left k

theorem geom_mod_two (ha : a % 4 = 1) (n : ℕ) : geom a n % 2 = n % 2 := by
  induction n with
  | zero => simp
  | succ n ih =>
    have := pow_mod_four ha n
    rw [geom_succ]
    omega

theorem two_pow_dvd_geom_iff (ha : a % 4 = 1) (k n : ℕ) : 2 ^ k ∣ geom a n ↔ 2 ^ k ∣ n := by
  induction k generalizing n with
  | zero => simp
  | succ k ih =>
    have hpar := geom_mod_two ha n
    rcases Nat.even_or_odd n with ⟨m, rfl⟩ | hodd
    · -- `1 + a ^ m` is twice an odd number, which takes no part in the divisibility
      have hpow := pow_mod_four ha m
      obtain ⟨q, hq⟩ : ∃ q, 1 + a ^ m = 2 * (2 * q + 1) := ⟨(a ^ m - 1) / 4, by omega⟩
      have hcop : Nat.Coprime (2 ^ k) (2 * q + 1) := two_pow_coprime k (by omega)
      calc 2 ^ (k + 1) ∣ geom a (m + m)
          ↔ 2 ^ k * 2 ∣ geom a m * (2 * q + 1) * 2 := by
            rw [geom_double, hq, pow_succ, mul_comm 2, ← mul_assoc]
        _ ↔ 2 ^ k ∣ geom a m := by
            rw [Nat.mul_dvd_mul_iff_right (by omega), hcop.dvd_mul_right]
        _ ↔ 2 ^ k * 2 ∣ m * 2 := by
            rw [ih, Nat.mul_dvd_mul_iff_right (by omega)]
        _ ↔ 2 ^ (k + 1) ∣ m + m := by
            rw [pow_succ, mul_two m]
    · have hn : ¬ 2 ∣ n := by
        rw [Nat.odd_iff] at hodd
        omega
      have hgeom : ¬ 2 ∣ geom a n := by omega
      have htwo : 2 ∣ 2 ^ (k + 1) := dvd_pow_self 2 (by omega)
      exact iff_of_false (fun h => hgeom (htwo.trans h)) (fun h => hn (htwo.trans h))

/-! ## The cycle -/

/-- **`n` steps.** -/
theorem affine_iterate (ha : 0 < a) (hx : x < m) (n : ℕ) :
    (affine m a c)^[n] x = (x + ((a - 1) * x + c) * geom a n) % m := by
  obtain ⟨a, rfl⟩ : ∃ b, a = b + 1 := ⟨a - 1, by omega⟩
  rw [Nat.add_sub_cancel]
  induction n with
  | zero => simp [Nat.mod_eq_of_lt hx]
  | succ n ih =>
    have hgeom : a * geom (a + 1) n + 1 = (a + 1) ^ n := by
      clear ih
      induction n with
      | zero => simp
      | succ n ih => rw [geom_succ, pow_succ, ← ih]; ring
    rw [Function.iterate_succ_apply', ih, geom_succ, ← hgeom, affine, Nat.add_mod, Nat.mul_mod,
      Nat.mod_mod, ← Nat.mul_mod, ← Nat.add_mod]
    congr 1
    ring

theorem affine_isPeriodicPt_iff (ha : a % 4 = 1) (hc : c % 2 = 1) (hx : x < 2 ^ k) :
    Function.IsPeriodicPt (affine (2 ^ k) a c) n x ↔ 2 ^ k ∣ n := by
  have hodd : ((a - 1) * x + c) % 2 = 1 := by
    obtain ⟨b, hb⟩ : ∃ b, a - 1 = 2 * b := ⟨(a - 1) / 2, by omega⟩
    rw [hb, mul_assoc]
    omega
  have hcop : Nat.Coprime (2 ^ k) ((a - 1) * x + c) := two_pow_coprime k hodd
  rw [← two_pow_dvd_geom_iff ha, ← hcop.dvd_mul_left, Function.IsPeriodicPt, Function.IsFixedPt,
    affine_iterate (by omega) hx]
  constructor
  · intro h
    have hmod : x + ((a - 1) * x + c) * geom a n ≡ x + 0 [MOD 2 ^ k] := by
      rw [Nat.ModEq, h, Nat.add_zero, Nat.mod_eq_of_lt hx]
    exact (Nat.modEq_zero_iff_dvd).mp (Nat.ModEq.add_left_cancel' x hmod)
  · rintro ⟨q, hq⟩
    rw [hq, Nat.add_mul_mod_self_left, Nat.mod_eq_of_lt hx]

/-- **One cycle.** -/
theorem affine_minimalPeriod (ha : a % 4 = 1) (hc : c % 2 = 1) (hx : x < 2 ^ k) :
    Function.minimalPeriod (affine (2 ^ k) a c) x = 2 ^ k := by
  have hiff : ∀ n, Function.minimalPeriod (affine (2 ^ k) a c) x ∣ n ↔ 2 ^ k ∣ n := by
    intro n
    rw [← Function.isPeriodicPt_iff_minimalPeriod_dvd]
    exact affine_isPeriodicPt_iff ha hc hx
  exact Nat.dvd_antisymm ((hiff _).mpr dvd_rfl) ((hiff _).mp dvd_rfl)

end Lib
