import MiniOS.Lib.Affine
import Mathlib.Data.Int.CardIntervalMod
import Mathlib.Data.Nat.Periodic

/-!
# Counting over intervals

How often an affine map modulo `m` meets a condition is independent of where one
starts and of the increment: if the factor and `m` are coprime, any `m` arguments
in a row give every residue once (`card_affine`).  For conditions on a quotient
the residues are counted in blocks (`count_div`).
-/

namespace Lib

variable {m a c : ℕ} {P : ℕ → Prop} [DecidablePred P]

theorem affine_add_period (m a c x : ℕ) : affine m a c (x + m) = affine m a c x := by
  unfold affine
  rw [show a * (x + m) + c = a * x + c + a * m by ring, Nat.add_mul_mod_self_right]

/-- A map with an invertible factor is a permutation of the residues. -/
theorem affine_injOn (ha : m.Coprime a) : Set.InjOn (affine m a c) (Finset.range m) := by
  intro x hx y hy h
  have hmod : a * x ≡ a * y [MOD m] := Nat.ModEq.add_right_cancel' c h
  have hxy := Nat.ModEq.cancel_left_of_coprime ha hmod
  exact Nat.ModEq.eq_of_lt_of_lt hxy (Finset.mem_range.mp hx) (Finset.mem_range.mp hy)

theorem count_affine (hm : 0 < m) (ha : m.Coprime a) :
    m.count (fun x => P (affine m a c x)) = m.count P := by
  have hmaps : ∀ x ∈ Finset.range m, affine m a c x ∈ Finset.range m :=
    fun x _ => Finset.mem_range.mpr (Nat.mod_lt _ hm)
  have honto := Finset.surj_on_of_inj_on_of_card_le (fun x _ => affine m a c x) hmaps
    (fun x y hx hy h => affine_injOn ha hx hy h) (Nat.le_refl _)
  rw [Nat.count_eq_card_filter_range, Nat.count_eq_card_filter_range]
  apply Finset.card_bij fun x _ => affine m a c x
  · intro x hx
    obtain ⟨hx, hP⟩ := Finset.mem_filter.mp hx
    exact Finset.mem_filter.mpr ⟨hmaps x hx, hP⟩
  · intro x hx y hy h
    exact affine_injOn ha (Finset.mem_filter.mp hx).1 (Finset.mem_filter.mp hy).1 h
  · intro y hy
    obtain ⟨hy, hP⟩ := Finset.mem_filter.mp hy
    obtain ⟨x, hx, rfl⟩ := honto y hy
    exact ⟨x, Finset.mem_filter.mpr ⟨hx, hP⟩, rfl⟩

/-- **Any `m` arguments in a row** meet a condition as often as the residues do. -/
theorem card_affine (hm : 0 < m) (ha : m.Coprime a) (n : ℕ) :
    ((Finset.Ico n (n + m)).filter fun x => P (affine m a c x)).card = m.count P := by
  have hperiod : Function.Periodic (fun x => P (affine m a c x)) m := by
    intro x
    simp only [affine_add_period]
  rw [Nat.filter_Ico_card_eq_of_periodic n m _ hperiod, count_affine hm ha]

/-- Each quotient stands for a block of numbers. -/
theorem count_div (k m : ℕ) : (k * m).count (fun x => P (x / k)) = k * m.count P := by
  rcases Nat.eq_zero_or_pos k with rfl | hk
  · simp
  induction m with
  | zero => simp
  | succ m ih =>
    have hblock : ∀ i < k, (k * m + i) / k = m := by
      intro i hi
      rw [Nat.mul_add_div hk, Nat.div_eq_of_lt hi, Nat.add_zero]
    rw [Nat.mul_succ, Nat.count_add, ih, Nat.count_succ, Nat.mul_add]
    congr 1
    by_cases hP : P m
    · rw [if_pos hP, Nat.mul_one]
      apply Nat.count_of_forall
      intro i hi
      rw [hblock i hi]
      exact hP
    · rw [if_neg hP, Nat.mul_zero]
      apply Nat.count_of_forall_not
      intro i hi
      rw [hblock i hi]
      exact hP

end Lib
