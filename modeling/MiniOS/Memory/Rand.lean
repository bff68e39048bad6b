import MiniOS.Lib.Affine
import Mathlib.Data.Set.Function

/-!
# The random generator (`srand`, `rand` in `kernel/memory.c`)

A call of `rand` is an affine map on the 32 bits of `rand_seed`, and returns
bits 16 to 30 of the result.  The multiplier is 1 modulo 4 and the increment is
odd, so the seeds go through all 32-bit words (`rand_full_period`).
-/

namespace MiniOS

open Lib

/-- `srand`: the new `rand_seed`. -/
def srand (seed : UInt32) : UInt32 := seed

/-- `rand`: the result and the new `rand_seed`. -/
def rand (randSeed : UInt32) : UInt32 × UInt32 :=
  let randSeed := randSeed * 1103515245 + 12345
  ((randSeed / 65536) % 32768, randSeed)

/-- `rand_seed` after `n` calls of `rand`. -/
def randSeedAfter (randSeed : UInt32) (n : ℕ) : UInt32 := (fun s => (rand s).2)^[n] randSeed

theorem rand_toNat (s : UInt32) : (rand s).2.toNat = affine (2 ^ 32) 1103515245 12345 s.toNat := by
  unfold rand affine
  simp only [UInt32.toNat_add, UInt32.toNat_mul, UInt32.reduceToNat]
  omega

theorem randSeedAfter_toNat (s : UInt32) (n : ℕ) :
    (randSeedAfter s n).toNat = (affine (2 ^ 32) 1103515245 12345)^[n] s.toNat := by
  induction n with
  | zero => rfl
  | succ n ih =>
    rw [Function.iterate_succ_apply', ← ih, ← rand_toNat, randSeedAfter,
      Function.iterate_succ_apply', randSeedAfter]

theorem affine_rand_minimalPeriod (s : UInt32) :
    Function.minimalPeriod (affine (2 ^ 32) 1103515245 12345) s.toNat = 2 ^ 32 :=
  affine_minimalPeriod (by decide) (by decide) s.toNat_lt

theorem rand_lt (s : UInt32) : (rand s).1 < 32768 := by
  rw [UInt32.lt_iff_toNat_lt]
  unfold rand
  rw [UInt32.toNat_mod]
  exact Nat.mod_lt _ (by decide)

/-- **The period.**  From every seed, `rand` goes through `2 ^ 32` states and is then back
at the seed. -/
theorem rand_full_period (seed : UInt32) :
    Set.InjOn (randSeedAfter (srand seed)) (Set.Iio (2 ^ 32)) ∧
      randSeedAfter (srand seed) (2 ^ 32) = seed ∧ ∀ randSeed, (rand randSeed).1 < 32768 := by
  have hperiod := affine_rand_minimalPeriod seed
  refine ⟨?_, ?_, rand_lt⟩
  · intro i hi j hj h
    apply Function.iterate_injOn_Iio_minimalPeriod (f := affine (2 ^ 32) 1103515245 12345)
      (x := seed.toNat)
    · rw [hperiod]
      exact hi
    · rw [hperiod]
      exact hj
    · have htoNat := congrArg UInt32.toNat h
      rw [randSeedAfter_toNat, randSeedAfter_toNat] at htoNat
      exact htoNat
  · apply UInt32.toNat_inj.mp
    rw [randSeedAfter_toNat]
    have hback := Function.isPeriodicPt_minimalPeriod (affine (2 ^ 32) 1103515245 12345) seed.toNat
    rw [hperiod] at hback
    exact hback

end MiniOS
