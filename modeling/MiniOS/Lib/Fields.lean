import MiniOS.Lib.CString
import MiniOS.Lib.TextGrid
import MiniOS.Lib.WordMemory

/-!
# Fields in an array of bytes

The records of a C array lie one behind the other in its bytes.  A store shows
what it stores and leaves the other bytes (`get_write`); a string is read off
where it is shown with its NUL (`str_drop_iff`), a word where its four bytes are
(`load32_of_shows`).
-/

namespace Lib

open TextGrid

/-- The bytes of a 32-bit word. -/
def word (v : Nat) : List UInt8 :=
  [Mem.wordByte v 0, Mem.wordByte v 1, Mem.wordByte v 2, Mem.wordByte v 3]

@[simp] theorem length_word (v : Nat) : (word v).length = 4 := rfl

/-- A list and a NUL are what a string is cut from. -/
theorem str_eq_iff {s t : List UInt8} (h0 : 0 ∉ t) :
    str s = t ↔ Shows (fun i => s.getD i 0) 0 (t ++ [0]) := by
  induction t generalizing s with
  | nil =>
    rw [List.nil_append, shows_singleton, str_eq_nil_iff]
    cases s with
    | nil => exact Iff.rfl
    | cons c s => exact Iff.rfl
  | cons c t ih =>
    rw [List.mem_cons, not_or] at h0
    rw [show c :: t ++ [0] = [c] ++ (t ++ [0]) from rfl, shows_append, shows_singleton]
    cases s with
    | nil =>
      refine iff_of_false (List.cons_ne_nil c t).symm ?_
      rintro ⟨hc, _⟩
      exact h0.1 hc
    | cons a s =>
      have hshift : Shows (fun i => (a :: s).getD i 0) (0 + [c].length) (t ++ [0]) ↔
          Shows (fun i => s.getD i 0) 0 (t ++ [0]) := by
        have hcell : ∀ i, (a :: s).getD (0 + [c].length + i) 0 = s.getD (0 + i) 0 := by
          intro i
          rw [show 0 + [c].length + i = i + 1 by rw [List.length_singleton]; omega, Nat.zero_add]
          rfl
        unfold Shows
        simp only [hcell]
      rw [hshift, ← ih h0.2]
      by_cases ha : a = 0
      · refine iff_of_false ?_ ?_
        · rw [ha, str_zero]
          exact (List.cons_ne_nil c t).symm
        · rintro ⟨hc, _⟩
          rw [ha] at hc
          exact h0.1 hc
      · rw [str_cons ha, List.cons.injEq]
        exact Iff.rfl

namespace Chars

variable {n : Nat} {b b' : Chars n} {d : Nat} {xs t : List UInt8}

/-- **A store.**  It shows what it stores, and no other byte changes. -/
theorem get_write (h : b.write d xs = some b') :
    Shows b'.get d xs ∧ ∀ i, i < d ∨ d + xs.length ≤ i → b'.get i = b.get i := by
  induction xs generalizing b d with
  | nil =>
    cases h
    exact ⟨shows_nil _ _, fun _ _ => rfl⟩
  | cons x xs ih =>
    obtain ⟨b₁, h1, h'⟩ := Option.bind_eq_some_iff.mp h
    obtain ⟨hshow, hframe⟩ := ih h'
    rw [List.length_cons]
    refine ⟨?_, ?_⟩
    · rw [show x :: xs = [x] ++ xs from rfl, shows_append, shows_singleton]
      exact ⟨(hframe d (.inl (Nat.lt_succ_self d))).trans (get_put_self h1), hshow⟩
    · intro i hi
      rw [hframe i (by omega), get_put_ne h1 (by omega)]

/-- A string that begins at byte `d`. -/
theorem str_drop_iff (h0 : 0 ∉ t) : str (b.bytes.drop d) = t ↔ Shows b.get d (t ++ [0]) := by
  rw [str_eq_iff h0]
  unfold Shows
  simp only [List.getD_eq_getElem?_getD, List.getElem?_drop, Nat.zero_add]
  exact Iff.rfl

def store32 (b : Chars n) (a v : Nat) : Option (Chars n) := b.write a (word v)

def load32 (b : Chars n) (a : Nat) : Nat := Mem.load32 ⟨b.get, []⟩ a

theorem load32_of_shows {a v : Nat} (h : Shows b.get a (word v)) (hv : v < 2 ^ 32) :
    b.load32 a = v := by
  have h0 : b.get a = Mem.wordByte v 0 := h 0 _ rfl
  have h1 : b.get (a + 1) = Mem.wordByte v 1 := h 1 _ rfl
  have h2 : b.get (a + 2) = Mem.wordByte v 2 := h 2 _ rfl
  have h3 : b.get (a + 3) = Mem.wordByte v 3 := h 3 _ rfl
  unfold load32 Mem.load32
  simp only [h0, h1, h2, h3, Mem.wordByte_toNat]
  omega

end Chars

end Lib
