import MiniOS.Lib.Loop
import MiniOS.Lib.Positional
import MiniOS.Memory.Numbers

/-!
# Numerals in arrays (`utoa`, `itoa` in `kernel/memory.c`)

Both store the digits in `tmp[32]`, the least significant first, and copy them
to the buffer in the other order.  The two loops are one `write` each
(`digitLoop_eq`, `copyBack_eq`), so that both functions are one `write` of the
numeral and its NUL: `utoa_eq`, `itoaBuf_eq`.
-/

namespace MiniOS

open Lib

variable {n : Nat}

/-- `(rem < 10) ? ('0' + rem) : ('a' + rem - 10)`. -/
def remChar (rem : Nat) : UInt8 :=
  if rem < 10 then ch '0' + rem.toUInt8 else ch 'a' + rem.toUInt8 - 10

/-- The digits of all bases up to 16. -/
def hexDigits : List UInt8 := text "0123456789abcdef"

/-- The locals of the loop over the digits. -/
structure DigitLoop where
  tmp : Chars 32
  i : Nat
  value : Nat

def digitBody (base : Nat) (s : DigitLoop) : DigitLoop ⊕ Option DigitLoop :=
  if s.value > 0 then
    match s.tmp.put s.i (remChar (s.value % base)) with
    | some tmp => .inl ⟨tmp, s.i + 1, s.value / base⟩
    | none => .inr none
  else .inr (some s)

/-- `while (value > 0) …`; the 33rd round leaves the loop or the array. -/
def digitLoop (base value : Nat) : Option DigitLoop :=
  (loop (digitBody base) 33 ⟨Chars.uninit 32, 0, value⟩).join

/-- `while (i-- > 0) buf[j++] = tmp[i]; buf[j] = '\0';` -/
def copyBack (tmp : Chars 32) (buf : Chars n) (j : Nat) : Nat → Option (Chars n)
  | 0 => buf.put j 0
  | i + 1 => do
    let buf ← buf.put j (tmp.get i)
    copyBack tmp buf (j + 1) i

def utoa (value : Nat) (buf : Chars n) (base : Nat) : Option (Chars n) :=
  if value = 0 then do
    let buf ← buf.put 0 (ch '0')
    buf.put 1 0
  else do
    let s ← digitLoop base value
    copyBack s.tmp buf 0 s.i

/-- `itoa` into a buffer; `itoa` is what it leaves there for base 10 (`itoaBuf_eq`). -/
def itoaBuf (value : Int) (buf : Chars n) (base : Nat) : Option (Chars n) :=
  let negative := value < 0 ∧ base = 10
  let uval := if negative then u32OfInt (i32 (-value)) else u32OfInt value
  if uval = 0 then do
    let buf ← buf.put 0 (ch '0')
    buf.put 1 0
  else do
    let s ← digitLoop base uval
    if negative then do
      let tmp ← s.tmp.put s.i (ch '-')
      copyBack tmp buf 0 (s.i + 1)
    else copyBack s.tmp buf 0 s.i

/-! ## The loops -/

theorem digitLoop_rounds {base : Nat} (hb : 1 < base) (tmp : Chars 32) (i value : Nat) {fuel : Nat}
    (hfuel : (Nat.digits base value).length < fuel) :
    loop (digitBody base) fuel ⟨tmp, i, value⟩ =
      some ((tmp.write i ((Nat.digits base value).map remChar)).map fun tmp =>
        ⟨tmp, i + (Nat.digits base value).length, 0⟩) := by
  induction value using Nat.strongRecOn generalizing tmp i fuel with
  | ind value ih =>
    obtain ⟨fuel, rfl⟩ : ∃ k, fuel = k + 1 := ⟨fuel - 1, by omega⟩
    by_cases h0 : value = 0
    · subst h0
      rw [Nat.digits_zero]
      exact loop_done (by simp [digitBody, Chars.write]) fuel
    · have hpos : value > 0 := Nat.pos_of_ne_zero h0
      have hdigits := Nat.digits_eq_cons_digits_div hb h0
      rw [hdigits] at hfuel ⊢
      rw [List.length_cons] at hfuel
      rw [List.map_cons, Chars.write, List.length_cons]
      cases hput : tmp.put i (remChar (value % base)) with
      | none => exact loop_done (by simp [digitBody, hpos, hput]) fuel
      | some tmp' =>
        have hbody : digitBody base ⟨tmp, i, value⟩ = .inl ⟨tmp', i + 1, value / base⟩ := by
          simp [digitBody, hpos, hput]
        rw [loop_next hbody, ih (value / base) (Nat.div_lt_self hpos hb) tmp' (i + 1) (by omega),
          Option.bind_some]
        simp only [Nat.add_assoc, Nat.add_comm 1]

/-- **The digits** are stored one after the other, the last one first. -/
theorem digitLoop_spec {base value : Nat} (hb : 1 < base) (hvalue : value < 2 ^ 32) :
    ∃ s, digitLoop base value = some s ∧ s.i = (Nat.digits base value).length ∧ s.i ≤ 32 ∧
      s.tmp.bytes.take s.i = (Nat.digits base value).map remChar := by
  have hlen : (Nat.digits base value).length ≤ 32 := by
    rw [Nat.digits_length_le_iff hb]
    exact Nat.lt_of_lt_of_le hvalue (Nat.pow_le_pow_left hb 32)
  obtain ⟨tmp, hwrite, hbytes⟩ := Chars.write_eq (Chars.uninit 32) 0
    ((Nat.digits base value).map remChar) (by simpa using hlen)
  refine ⟨⟨tmp, 0 + (Nat.digits base value).length, 0⟩, ?_, Nat.zero_add _, by simpa using hlen, ?_⟩
  · unfold digitLoop
    rw [digitLoop_rounds hb _ _ _ (by omega), hwrite]
    rfl
  · rw [hbytes]
    simp

/-- **The copy** is one write. -/
theorem copyBack_eq (tmp : Chars 32) (buf : Chars n) (j : Nat) {i : Nat} (hi : i ≤ 32) :
    copyBack tmp buf j i = buf.write j ((tmp.bytes.take i).reverse ++ [0]) := by
  induction i generalizing buf j with
  | zero => simp [copyBack, Chars.write]
  | succ i ih =>
    have hlt : i < tmp.bytes.length := by rw [tmp.length_eq]; omega
    have htake : tmp.bytes.take (i + 1) = tmp.bytes.take i ++ [tmp.get i] := by
      rw [List.take_succ_eq_append_getElem hlt, Chars.get, List.getD_eq_getElem?_getD,
        List.getElem?_eq_getElem hlt, Option.getD_some]
    rw [copyBack, htake, List.reverse_append, List.reverse_singleton, List.cons_append,
      List.nil_append, List.cons_append, Chars.write]
    cases buf.put j (tmp.get i) with
    | none => rfl
    | some buf => exact ih buf (j + 1) (by omega)

theorem put_pair (buf : Chars n) (c : UInt8) :
    ((buf.put 0 c).bind fun buf => buf.put 1 0) = buf.write 0 [c, 0] := by
  simp [Chars.write]

/-! ## The numerals -/

theorem remChar_ten {d : Nat} (hd : d < 10) : remChar d = digit d := by
  have hall : ∀ d, d < 10 → remChar d = digit d := by decide
  exact hall d hd

theorem decimal_eq_numeralIn (n : Nat) : decimal n = numeralIn 10 remChar n := by
  induction n using Nat.strongRecOn with
  | ind n ih =>
    rw [decimal_eq, numeralIn_eq (by decide), remChar_ten (Nat.mod_lt n (by decide))]
    by_cases hn : n < 10
    · rw [if_pos hn, if_pos hn]
    · rw [if_neg hn, if_neg hn, ih (n / 10) (by omega)]

/-- `utoa` is one write. -/
theorem utoa_eq {base value : Nat} (hb : 1 < base) (hvalue : value < 2 ^ 32) (buf : Chars n) :
    utoa value buf base = buf.write 0 (numeralIn base remChar value ++ [0]) := by
  unfold utoa numeralIn
  by_cases h0 : value = 0
  · rw [if_pos h0, if_pos h0]
    exact put_pair buf (ch '0')
  · obtain ⟨s, hs, _, hi, htake⟩ := digitLoop_spec hb hvalue
    rw [if_neg h0, if_neg h0, hs]
    show copyBack s.tmp buf 0 s.i = _
    rw [copyBack_eq _ _ _ hi, htake]

theorem u32OfInt_i32 (z : Int) : u32OfInt (i32 z) = u32OfInt z := by
  unfold u32OfInt
  rw [i32_emod]

/-- `itoa` is one write. -/
theorem itoaBuf_eq {value : Int} (hlo : -2 ^ 31 ≤ value) (hhi : value < 2 ^ 31) (buf : Chars n) :
    itoaBuf value buf 10 = buf.write 0 (itoa value ++ [0]) := by
  unfold itoaBuf itoa
  by_cases hneg : value < 0
  · have hcast := u32OfInt_of_lt (z := -value) (by omega) (by omega)
    have h0 : u32OfInt (-value) ≠ 0 := by omega
    obtain ⟨s, hs, hlen, hi, htake⟩ := digitLoop_spec (show 1 < 10 by decide)
      (show u32OfInt (-value) < 2 ^ 32 by omega)
    have hten : s.i ≤ 10 := by
      rw [hlen, Nat.digits_length_le_iff (by decide)]
      omega
    obtain ⟨tmp, hput, hbytes⟩ := Chars.put_eq (b := s.tmp) (show s.i < 32 by omega) (ch '-')
    have hall : tmp.bytes.take (s.i + 1) =
        (Nat.digits 10 (u32OfInt (-value))).map remChar ++ [ch '-'] := by
      rw [← htake, hbytes, List.take_add_one, List.take_set_of_le (Nat.le_refl _)]
      simp [s.tmp.length_eq, show s.i < 32 by omega]
    simp only [hneg, true_and, if_true, u32OfInt_i32, h0, if_false, hs, hput, Option.bind_eq_bind,
      Option.bind_some]
    rw [copyBack_eq _ _ _ (by omega), hall, decimal_eq_numeralIn, numeralIn_of_pos h0]
    simp
  · have hcast := u32OfInt_of_lt (z := value) (by omega) (by omega)
    simp only [hneg, false_and, if_false]
    have h := utoa_eq (show 1 < 10 by decide) (show u32OfInt value < 2 ^ 32 by omega) buf
    unfold utoa at h
    rw [h, decimal_eq_numeralIn]

theorem remChar_mem {base d : Nat} (hb : base ≤ 16) (hd : d < base) :
    remChar d ∈ hexDigits.take base ∧ hexDigits.idxOf (remChar d) = d ∧
      (remChar d = ch '0' ↔ d = 0) ∧ remChar d ≠ 0 := by
  have hall : ∀ d, d < 16 → hexDigits[d]? = some (remChar d) ∧ hexDigits.idxOf (remChar d) = d ∧
      (remChar d = ch '0' ↔ d = 0) ∧ remChar d ≠ 0 := by decide
  obtain ⟨hget, hrest⟩ := hall d (by omega)
  refine ⟨?_, hrest⟩
  apply List.mem_of_getElem? (i := d)
  rw [List.getElem?_take_of_lt hd, hget]

theorem zero_not_mem_numeralIn {base : Nat} (hb : 1 < base) (hb' : base ≤ 16) (value : Nat) :
    0 ∉ numeralIn base remChar value := by
  intro h
  obtain ⟨d, hd, hzero⟩ := mem_numeralIn hb h
  exact (remChar_mem hb' hd).2.2.2 hzero.symm

/-- The string `utoa` leaves. -/
theorem utoa_str {base value : Nat} (hb : 1 < base) (hb' : base ≤ 16) (hvalue : value < 2 ^ 32)
    {buf b : Chars n} (h : utoa value buf base = some b) :
    str b.bytes = numeralIn base remChar value := by
  rw [utoa_eq hb hvalue] at h
  simpa using Chars.str_write (zero_not_mem_numeralIn hb hb' value) (Nat.zero_le _) h

/-- `utoa` comes back where its numeral fits. -/
theorem utoa_spec {base value : Nat} (hb : 1 < base) (hb' : base ≤ 16) (hvalue : value < 2 ^ 32)
    (buf : Chars n) (hroom : (numeralIn base remChar value).length < n) :
    ∃ b, utoa value buf base = some b ∧ str b.bytes = numeralIn base remChar value := by
  obtain ⟨b, hwrite, _⟩ := Chars.write_eq buf 0 (numeralIn base remChar value ++ [0])
    (by simp; omega)
  rw [← utoa_eq hb hvalue] at hwrite
  exact ⟨b, hwrite, utoa_str hb hb' hvalue hwrite⟩

/-- A 32-bit word has at most ten digits, in base 10 and above. -/
theorem length_numeralIn_word {base value : Nat} (hb : 10 ≤ base) (hvalue : value < 2 ^ 32) :
    (numeralIn base remChar value).length ≤ 10 := by
  apply length_numeralIn_le (by omega) (by omega)
  calc value < 10 ^ 10 := by omega
    _ ≤ base ^ 10 := Nat.pow_le_pow_left hb 10

/-- The string `itoa` leaves is read back. -/
theorem itoaBuf_spec {z : Int} (hlo : -2 ^ 31 ≤ z) (hhi : z < 2 ^ 31) (hn : 12 ≤ n)
    (buf : Chars n) :
    ∃ b, itoaBuf z buf 10 = some b ∧ str b.bytes = itoa z ∧ (itoa z).length ≤ 11 ∧
      atoi b.bytes = z := by
  have hlen : (itoa z).length ≤ 11 := by
    have hdec : ∀ k, k < 2 ^ 32 → (decimal k).length ≤ 10 := fun k hk =>
      decimal_length_le (by omega) (by omega)
    unfold itoa
    split
    · have := hdec (u32OfInt (-z)) (by unfold u32OfInt; omega)
      rw [List.length_cons]
      omega
    · have := hdec (u32OfInt z) (by unfold u32OfInt; omega)
      omega
  have h0 : 0 ∉ itoa z := by
    have hdec : ∀ k, 0 ∉ decimal k := by
      intro k
      rw [decimal_eq_numeralIn]
      exact zero_not_mem_numeralIn (by decide) (by decide) k
    unfold itoa
    split
    · rw [List.mem_cons, not_or]
      exact ⟨by decide, hdec _⟩
    · exact hdec _
  obtain ⟨b, hwrite, hbytes⟩ := Chars.write_eq buf 0 (itoa z ++ [0]) (by simp; omega)
  refine ⟨b, by rw [itoaBuf_eq hlo hhi, hwrite], ?_, hlen, ?_⟩
  · simpa using Chars.str_write h0 (Nat.zero_le _) hwrite
  · rw [List.take_zero, List.nil_append, List.append_assoc, List.singleton_append] at hbytes
    rw [hbytes, atoi_eq, numeral_itoa_append hlo hhi, i32_of_lt hlo hhi]
    intro c hc
    obtain rfl : 0 = c := by simpa using hc
    exact .inl (by decide)

/-- **The numeral.**  `utoa` writes digits below the base, the first of them not `0` but for
zero itself, whose value is `v`; so different words leave different strings. -/
theorem utoa_canonical {base : Nat} (hbase : base = 10 ∨ base = 16) (hn : 11 ≤ n) (v : UInt32)
    (buf : Chars n) :
    ∃ b, utoa v.toNat buf base = some b ∧ str b.bytes ≠ [] ∧
      (∀ c ∈ str b.bytes, c ∈ hexDigits.take base) ∧
      ((str b.bytes).head? = some (ch '0') → v = 0 ∧ str b.bytes = text "0") ∧
      positional base hexDigits.idxOf (str b.bytes) = v.toNat ∧
      ∀ (m : Nat) (v' : UInt32) (buf' b' : Chars m), utoa v'.toNat buf' base = some b' →
        str b'.bytes = str b.bytes → v' = v := by
  obtain ⟨hb, hb'⟩ : 10 ≤ base ∧ base ≤ 16 := by omega
  have hread : ∀ v : UInt32,
      positional base hexDigits.idxOf (numeralIn base remChar v.toNat) = v.toNat := fun v =>
    positional_numeralIn (by omega) (fun d hd => (remChar_mem hb' hd).2.1) v.toNat
  have hlen := length_numeralIn_word hb v.toNat_lt
  obtain ⟨b, hutoa, hstr⟩ := utoa_spec (by omega) hb' v.toNat_lt buf
    (show (numeralIn base remChar v.toNat).length < n by omega)
  refine ⟨b, hutoa, ?_, ?_, ?_, by rw [hstr, hread], ?_⟩
  · rw [hstr]
    exact numeralIn_ne_nil _ _
  · intro c hc
    rw [hstr] at hc
    obtain ⟨d, hd, rfl⟩ := mem_numeralIn (by omega) hc
    exact (remChar_mem hb' hd).1
  · intro hhead
    rw [hstr] at hhead ⊢
    have hv : v.toNat = 0 := by
      by_contra hv
      obtain ⟨d, hpos, hd, hzero⟩ := head_numeralIn (by omega) hv hhead
      have := ((remChar_mem hb' hd).2.2.1).mp hzero.symm
      omega
    refine ⟨UInt32.toNat_inj.mp hv, ?_⟩
    rw [hv]
    rfl
  · intro m v' buf' b' hutoa' hsame
    apply UInt32.toNat_inj.mp
    rw [← hread v', ← hread v, ← utoa_str (by omega) hb' v'.toNat_lt hutoa', ← hstr, hsame]

theorem utoa_canonical_beef : ∃ b, utoa (0xBEEF : UInt32).toNat (Chars.uninit 32) 16 = some b ∧
    positional 16 hexDigits.idxOf (str b.bytes) = 0xBEEF := by
  obtain ⟨b, hutoa, _, _, _, hvalue, _⟩ := utoa_canonical (.inr rfl) (by decide) 0xBEEF
    (Chars.uninit 32)
  exact ⟨b, hutoa, hvalue⟩

end MiniOS
