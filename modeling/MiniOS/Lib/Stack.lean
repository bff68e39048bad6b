import MiniOS.Lib.WordMemory

/-!
# A stack of 32-bit words

A stack that grows down in a byte memory: the pointer is at the last word
pushed.  `Stack.Holds s ws` says that the words from the pointer up are `ws`:

    s.Holds ws → (s.push v).Holds (v :: ws)              (Holds.push)
    s.Holds (w :: ws) ↔ s.top = w ∧ (s.drop 4).Holds ws  (by definition)

It rests on the bytes of these words alone (`Holds.congr`), so that it survives
whatever is done below the pointer.
-/

namespace Lib

structure Stack where
  mem : Mem
  sp : UInt32

namespace Stack

def push (s : Stack) (v : UInt32) : Stack where
  mem := s.mem.store32 (s.sp - 4).toNat v.toNat
  sp := s.sp - 4

/-- The words `vs`, the first one first. -/
def pushes (s : Stack) (vs : List UInt32) : Stack := vs.foldl push s

def top (s : Stack) : UInt32 := UInt32.ofNat (s.mem.load32 s.sp.toNat)

/-- `n` bytes are taken off. -/
def drop (s : Stack) (n : UInt32) : Stack := { s with sp := s.sp + n }

/-- The words from the pointer up are `ws`. -/
def Holds (s : Stack) : List UInt32 → Prop
  | [] => True
  | w :: ws => s.top = w ∧ (s.drop 4).Holds ws

variable {s s' : Stack} {ws : List UInt32}

theorem drop_sp (h : s.sp.toNat + 4 < 2 ^ 32) : (s.drop 4).sp.toNat = s.sp.toNat + 4 := by
  show (s.sp + 4).toNat = _
  rw [UInt32.toNat_add]
  exact Nat.mod_eq_of_lt h

theorem push_sp (h : 4 ≤ s.sp.toNat) (v : UInt32) : (s.push v).sp.toNat = s.sp.toNat - 4 := by
  have hle : (4 : UInt32) ≤ s.sp := UInt32.le_iff_toNat_le.mpr h
  exact UInt32.toNat_sub_of_le _ _ hle

theorem push_drop (s : Stack) (v : UInt32) : ((s.push v).drop 4).sp = s.sp :=
  UInt32.sub_add_cancel s.sp 4

/-- Only the bytes of the words matter. -/
theorem Holds.congr (h : s.Holds ws) (hsp : s'.sp = s.sp)
    (hroom : s.sp.toNat + 4 * ws.length ≤ 2 ^ 32)
    (hbytes : ∀ x, s.sp.toNat ≤ x → x < s.sp.toNat + 4 * ws.length →
      s'.mem.byte x = s.mem.byte x) : s'.Holds ws := by
  induction ws generalizing s s' with
  | nil => trivial
  | cons w ws ih =>
    obtain ⟨htop, hrest⟩ := h
    rw [List.length_cons] at hroom hbytes
    constructor
    · rw [← htop]
      unfold top
      rw [hsp, Mem.load32_congr fun x h1 h2 => hbytes x h1 (by omega)]
    · by_cases hlast : ws = []
      · rw [hlast]
        trivial
      have hlen : 0 < ws.length := List.length_pos_iff.mpr hlast
      have hdrop := drop_sp (s := s) (by omega)
      refine ih hrest (congrArg (· + 4) hsp) (by omega) ?_
      intro x h1 h2
      exact hbytes x (by omega) (by omega)

/-- **A word is pushed.** -/
theorem Holds.push (h : s.Holds ws) (hlow : 4 ≤ s.sp.toNat)
    (hroom : s.sp.toNat + 4 * ws.length ≤ 2 ^ 32) (v : UInt32) : (s.push v).Holds (v :: ws) := by
  have hsp := push_sp hlow v
  constructor
  · show UInt32.ofNat ((s.mem.store32 (s.sp - 4).toNat v.toNat).load32 (s.sp - 4).toNat) = v
    rw [Mem.load32_store32 _ _ _ v.toNat_lt, UInt32.ofNat_toNat]
  · refine h.congr (push_drop s v) hroom ?_
    intro x h1 _
    refine Mem.store32_byte_of_not_mem _ _ _ _ (.inr ?_)
    have : (s.sp - 4).toNat = s.sp.toNat - 4 := hsp
    omega

theorem drop_drop (s : Stack) (a b : UInt32) : (s.drop a).drop b = s.drop (a + b) :=
  congrArg (Stack.mk s.mem) (UInt32.add_assoc s.sp a b)

/-- Word `k` from the pointer up. -/
theorem Holds.get (h : s.Holds ws) {k : Nat} (hk : k < ws.length) :
    (s.drop (4 * UInt32.ofNat k)).top = ws[k] := by
  induction ws generalizing s k with
  | nil => exact absurd hk (Nat.not_lt_zero k)
  | cons w ws ih =>
    obtain ⟨htop, hrest⟩ := h
    cases k with
    | zero =>
      refine Eq.trans ?_ htop
      show (Stack.mk s.mem (s.sp + 4 * UInt32.ofNat 0)).top = s.top
      rw [show (4 : UInt32) * UInt32.ofNat 0 = 0 from rfl, UInt32.add_zero]
    | succ k =>
      have hnext : (s.drop 4).drop (4 * UInt32.ofNat k) = s.drop (4 * UInt32.ofNat (k + 1)) := by
        rw [drop_drop, UInt32.ofNat_add, UInt32.mul_add, UInt32.add_comm]
        rfl
      rw [← hnext]
      exact ih hrest (Nat.lt_of_succ_lt_succ hk)

theorem pushes_append (vs vs' : List UInt32) :
    s.pushes (vs ++ vs') = (s.pushes vs).pushes vs' := List.foldl_append

/-- The pointer, whether or not it wraps. -/
theorem pushes_offset (s : Stack) (vs : List UInt32) :
    (s.pushes vs).sp = s.sp - 4 * UInt32.ofNat vs.length := by
  induction vs generalizing s with
  | nil => exact (UInt32.sub_zero s.sp).symm
  | cons v vs ih =>
    have hrest : ((s.push v).pushes vs).sp = s.sp - 4 - 4 * UInt32.ofNat vs.length := ih (s.push v)
    show ((s.push v).pushes vs).sp = _
    rw [hrest, List.length_cons, UInt32.ofNat_add, UInt32.mul_add]
    grind

theorem pushes_sp (vs : List UInt32) (hlow : 4 * vs.length ≤ s.sp.toNat) :
    (s.pushes vs).sp.toNat = s.sp.toNat - 4 * vs.length := by
  induction vs generalizing s with
  | nil => rfl
  | cons v vs ih =>
    rw [List.length_cons] at hlow ⊢
    have hsp := push_sp (s := s) (by omega) v
    have hrest := ih (s := s.push v) (by omega)
    show ((s.push v).pushes vs).sp.toNat = _
    omega

/-- **Words are pushed**, the last one to the top. -/
theorem Holds.pushes (h : s.Holds ws) (vs : List UInt32) (hlow : 4 * vs.length ≤ s.sp.toNat)
    (hroom : s.sp.toNat + 4 * ws.length ≤ 2 ^ 32) : (s.pushes vs).Holds (vs.reverse ++ ws) := by
  induction vs generalizing s ws with
  | nil => exact h
  | cons v vs ih =>
    rw [List.length_cons] at hlow
    have hsp := push_sp (s := s) (by omega) v
    rw [List.reverse_cons, List.append_assoc]
    refine ih (s := s.push v) (h.push (by omega) hroom v) (by omega) ?_
    rw [List.length_append, List.length_singleton]
    omega

/-- **Frame.**  Pushing changes nothing at or above the pointer. -/
theorem pushes_byte (vs : List UInt32) (hlow : 4 * vs.length ≤ s.sp.toNat) {x : Nat}
    (hx : s.sp.toNat ≤ x) : (s.pushes vs).mem.byte x = s.mem.byte x := by
  induction vs generalizing s with
  | nil => rfl
  | cons v vs ih =>
    rw [List.length_cons] at hlow
    have hsp := push_sp (s := s) (by omega) v
    have hrest := ih (s := s.push v) (by omega) (by omega)
    refine hrest.trans (Mem.store32_byte_of_not_mem _ _ _ _ (.inr ?_))
    have : (s.sp - 4).toNat = s.sp.toNat - 4 := hsp
    omega

end Stack

end Lib
