import Mathlib.Algebra.Group.Int.Defs
import Mathlib.Algebra.Group.Nat.Defs

/-!
# C on the 32-bit target

`size_t` and `int` are 32 bits wide and wrap; a `char` is a byte.  A string
literal is the list of its characters, whose end stands for the NUL.
-/

namespace MiniOS

/-- `size_t` wraps at 2^32. -/
def u32 (n : Nat) : Nat := n % 2 ^ 32

/-- `(size_t)z` for an `int` `z`. -/
def u32OfInt (z : Int) : Nat := (z % 2 ^ 32).toNat

/-- `int` wraps to -2^31 .. 2^31 - 1. -/
def i32 (z : Int) : Int := z.bmod (2 ^ 32)

theorem i32_of_lt {z : Int} (h : -2 ^ 31 ≤ z) (h' : z < 2 ^ 31) : i32 z = z := by
  unfold i32
  apply Int.bmod_eq_of_le_mul_two
  · omega
  · omega

/-- One more than the largest `int` is the smallest. -/
theorem i32_of_ge {z : Int} (h : 2 ^ 31 ≤ z) (h' : z < 2 ^ 32) : i32 z = z - 2 ^ 32 := by
  unfold i32
  rw [Int.bmod_def]
  split
  · omega
  · omega

/-- A string literal. -/
def text (s : String) : List UInt8 := s.toList.map Char.toUInt8

/-- A property of the characters of a literal is tested on them, not on all bytes. -/
theorem forall_of_all {p : UInt8 → Prop} [DecidablePred p] {s : List UInt8}
    (h : s.all fun c => p c) : ∀ c ∈ s, p c :=
  fun c hc => of_decide_eq_true (List.all_eq_true.mp h c hc)

/-- A character literal. -/
def ch (c : Char) : UInt8 := c.toUInt8

/-- The decimal numeral of `n`, as `%d` prints it. -/
def decimal (n : Nat) : List UInt8 := (Nat.toDigits 10 n).map Char.toUInt8

end MiniOS
