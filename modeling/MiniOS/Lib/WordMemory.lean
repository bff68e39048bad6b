import Mathlib.Tactic.Ring
import Mathlib.Data.List.Basic

/-!
# Byte memory with 32-bit words

`Mem` is a byte memory that also remembers, in order, every byte address
stored to (`written`); the log is what a frame statement talks about.
`load32` and `store32` are the little-endian word accesses:

    load32 (store32 m a v) a = v                                    (load32_store32)
    b + 4 ≤ a ∨ a + 4 ≤ b  →  load32 (store32 m a v) b = load32 m b  (load32_store32_disjoint)

`Touches P m m'` says that `m'` is `m` after stores to addresses in `P` only,
both in the log and in the bytes.
-/

namespace Lib

/-- Bytes by address, and the addresses stored to so far, oldest first. -/
structure Mem where
  byte : Nat → UInt8
  written : List Nat

namespace Mem

def load32 (m : Mem) (a : Nat) : Nat :=
  (m.byte a).toNat + 256 * (m.byte (a + 1)).toNat + 65536 * (m.byte (a + 2)).toNat +
    16777216 * (m.byte (a + 3)).toNat

/-- Byte `i` of the word `v`. -/
def wordByte (v i : Nat) : UInt8 := UInt8.ofNat (v / 256 ^ i)

def store32 (m : Mem) (a v : Nat) : Mem where
  byte x := if a ≤ x ∧ x < a + 4 then wordByte v (x - a) else m.byte x
  written := m.written ++ [a, a + 1, a + 2, a + 3]

theorem load32_lt (m : Mem) (a : Nat) : m.load32 a < 2 ^ 32 := by
  have h0 := (m.byte a).toNat_lt
  have h1 := (m.byte (a + 1)).toNat_lt
  have h2 := (m.byte (a + 2)).toNat_lt
  have h3 := (m.byte (a + 3)).toNat_lt
  unfold load32
  omega

theorem load32_congr {m m' : Mem} {a : Nat} (h : ∀ x, a ≤ x → x < a + 4 → m'.byte x = m.byte x) :
    m'.load32 a = m.load32 a := by
  unfold load32
  rw [h a (by omega) (by omega), h (a + 1) (by omega) (by omega), h (a + 2) (by omega) (by omega),
    h (a + 3) (by omega) (by omega)]

theorem store32_byte_of_mem (m : Mem) (a v i : Nat) (hi : i < 4) :
    (m.store32 a v).byte (a + i) = wordByte v i := by
  have h : a ≤ a + i ∧ a + i < a + 4 := by omega
  simp [store32, h]

theorem store32_byte_of_not_mem (m : Mem) (a v x : Nat) (hx : x < a ∨ a + 4 ≤ x) :
    (m.store32 a v).byte x = m.byte x := by
  have h : ¬ (a ≤ x ∧ x < a + 4) := by omega
  simp [store32, h]

theorem wordByte_toNat (v i : Nat) : (wordByte v i).toNat = v / 256 ^ i % 256 := by
  simp [wordByte]

@[simp] theorem load32_store32 (m : Mem) (a v : Nat) (hv : v < 2 ^ 32) :
    (m.store32 a v).load32 a = v := by
  have h0 := store32_byte_of_mem m a v 0 (by omega)
  rw [Nat.add_zero] at h0
  unfold load32
  rw [h0, store32_byte_of_mem m a v 1 (by omega), store32_byte_of_mem m a v 2 (by omega),
    store32_byte_of_mem m a v 3 (by omega)]
  simp only [wordByte_toNat]
  omega

theorem load32_store32_disjoint (m : Mem) (a v b : Nat) (h : b + 4 ≤ a ∨ a + 4 ≤ b) :
    (m.store32 a v).load32 b = m.load32 b :=
  load32_congr fun x h1 h2 => store32_byte_of_not_mem m a v x (by omega)

/-! ## Frames -/

/-- `m'` is `m` after stores to addresses in `P` only. -/
structure Touches (P : Nat → Prop) (m m' : Mem) : Prop where
  log : ∃ ws, m'.written = m.written ++ ws ∧ ∀ x ∈ ws, P x
  bytes : ∀ x, ¬ P x → m'.byte x = m.byte x

theorem Touches.refl (P : Nat → Prop) (m : Mem) : Touches P m m :=
  ⟨⟨[], by simp, by simp⟩, fun _ _ => rfl⟩

theorem Touches.trans {P : Nat → Prop} {m m' m'' : Mem} (h : Touches P m m')
    (h' : Touches P m' m'') : Touches P m m'' := by
  obtain ⟨⟨ws, hw, hP⟩, hb⟩ := h
  obtain ⟨⟨ws', hw', hP'⟩, hb'⟩ := h'
  refine ⟨⟨ws ++ ws', by rw [hw', hw, List.append_assoc], ?_⟩, fun x hx => ?_⟩
  · intro x hx
    rcases List.mem_append.mp hx with hx | hx
    · exact hP x hx
    · exact hP' x hx
  · rw [hb' x hx, hb x hx]

theorem Touches.mono {P Q : Nat → Prop} {m m' : Mem} (h : Touches P m m') (hPQ : ∀ x, P x → Q x) :
    Touches Q m m' := by
  obtain ⟨⟨ws, hw, hP⟩, hb⟩ := h
  exact ⟨⟨ws, hw, fun x hx => hPQ x (hP x hx)⟩, fun x hx => hb x fun hp => hx (hPQ x hp)⟩

theorem touches_store32 {P : Nat → Prop} (m : Mem) (a v : Nat)
    (h : ∀ x, a ≤ x → x < a + 4 → P x) : Touches P m (m.store32 a v) := by
  refine ⟨⟨[a, a + 1, a + 2, a + 3], rfl, ?_⟩, fun x hx => store32_byte_of_not_mem m a v x ?_⟩
  · intro x hx
    simp only [List.mem_cons, List.not_mem_nil, or_false] at hx
    exact h x (by omega) (by omega)
  · by_cases h1 : a ≤ x ∧ x < a + 4
    · exact absurd (h x h1.1 h1.2) hx
    · omega

theorem Touches.store32 {P : Nat → Prop} {m m' : Mem} (h : Touches P m m') {a v : Nat}
    (ha : ∀ x, a ≤ x → x < a + 4 → P x) : Touches P m (m'.store32 a v) :=
  h.trans (touches_store32 m' a v ha)

theorem Touches.load32_eq {P : Nat → Prop} {m m' : Mem} (h : Touches P m m') (a : Nat)
    (ha : ∀ x, a ≤ x → x < a + 4 → ¬ P x) : m'.load32 a = m.load32 a :=
  load32_congr fun x h1 h2 => h.bytes x (ha x h1 h2)

end Mem

end Lib
