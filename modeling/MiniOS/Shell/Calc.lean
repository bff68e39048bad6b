import MiniOS.Memory.Numbers
import MiniOS.Shell.CommandLine

/-!
# The calculator (`cmd_calc` in `kernel/shell.c`)

The first operator character of the argument cuts it into two operands, each
copied into 32 bytes and read by `atoi`.  Two things can go wrong on the way:
a store outside of an array and a divide exception (`Trap`).

* `cmdCalc_spec`: what the cut makes of every argument;
* `calc_prints_iff`: for which integers the result is theirs.  A `-` in front of
  the first operand is taken for the operator, so a negative first operand is
  printed back, whatever follows it;
* `calc_no_divide_iff`: which arguments raise no divide exception.
-/

namespace MiniOS

open Lib

/-! ## The command -/

/-- A store outside of an array, or the exception the processor raises for a
division. -/
inductive Trap where
  | store
  | divide
deriving DecidableEq

def stored {α : Type} (r : Option α) : Except Trap α :=
  match r with
  | some b => .ok b
  | none => .error .store

/-- `n1 / n2`, as the processor divides. -/
def idiv (n1 n2 : Int) : Except Trap Int :=
  if n2 = 0 ∨ (n1 = -2 ^ 31 ∧ n2 = -1) then .error .divide else .ok (n1.tdiv n2)

def IsOperator (c : UInt8) : Prop := c = ch '+' ∨ c = ch '-' ∨ c = ch '*' ∨ c = ch '/'

instance (c : UInt8) : Decidable (IsOperator c) := inferInstanceAs (Decidable (_ ∨ _))

/-- The loop that looks for the operator, at index `i`; `none` at the NUL. -/
def findOperator (i : Nat) : List UInt8 → Option Nat
  | [] => none
  | c :: s => if c = 0 then none else if IsOperator c then some i else findOperator (i + 1) s

def calcResult (result : Int) : List TerminalCall :=
  say (text "\nResult: " ++ itoa result ++ text "\n")

/-- `cmd_calc` from the operands on. -/
def calcOperands (op : UInt8) (n1 n2 : Int) : Except Trap (List TerminalCall) :=
  if op = ch '+' then .ok (calcResult (i32 (n1 + n2)))
  else if op = ch '-' then .ok (calcResult (i32 (n1 - n2)))
  else if op = ch '*' then .ok (calcResult (i32 (n1 * n2)))
  else if op = ch '/' then
    if n2 = 0 then .ok (say (text "\nError: Division by zero.\n"))
    else do
      let result ← idiv n1 n2
      .ok (calcResult result)
  else .ok (calcResult 0)

def cmdCalc (arg : List UInt8) : Except Trap (List TerminalCall) :=
  match findOperator 0 arg with
  | none => .ok (say (text "\nError: Invalid expression. Use: calc 5 + 3\n"))
  | some i => do
    let buf1 ← stored (strncpy (Chars.uninit 32) 0 arg i)
    let buf1 ← stored (buf1.put i 0)
    let buf2 ← stored (strcpy (Chars.uninit 32) (arg.drop (i + 1)))
    calcOperands (arg.getD i 0) (atoi (skipSpaces buf1.bytes)) (atoi (skipSpaces buf2.bytes))

/-- `shell_run` on a line that names `calc`. -/
def calcLine (inputBuf : List UInt8) : Option (Except Trap (List TerminalCall)) := do
  let (command, arg) ← commandLine inputBuf
  if command = some .calc then some (cmdCalc arg) else none

/-! ## The cut -/

/-- `a` is what stands before the first operator. -/
def Operand (a : List UInt8) : Prop := ∀ c ∈ a, ¬ IsOperator c

theorem operand_nil : Operand [] := fun _ h => nomatch h

theorem operator_split (s : List UInt8) :
    Operand s ∨ ∃ a op b, s = a ++ op :: b ∧ Operand a ∧ IsOperator op := by
  induction s with
  | nil => exact .inl operand_nil
  | cons x s ih =>
    by_cases hx : IsOperator x
    · exact .inr ⟨[], x, s, rfl, operand_nil, hx⟩
    · rcases ih with h | ⟨a, op, b, rfl, ha, hop⟩
      · exact .inl (List.forall_mem_cons.mpr ⟨hx, h⟩)
      · exact .inr ⟨x :: a, op, b, rfl, List.forall_mem_cons.mpr ⟨hx, ha⟩, hop⟩

theorem operator_split_unique {a a' b b' : List UInt8} {op op' : UInt8} (ha : Operand a)
    (ha' : Operand a') (hop : IsOperator op) (hop' : IsOperator op')
    (h : a ++ op :: b = a' ++ op' :: b') : a = a' ∧ op = op' ∧ b = b' := by
  induction a generalizing a' with
  | nil =>
    cases a' with
    | nil =>
      cases h
      exact ⟨rfl, rfl, rfl⟩
    | cons x a' =>
      cases h
      exact absurd hop (ha' op List.mem_cons_self)
  | cons x a ih =>
    cases a' with
    | nil =>
      cases h
      exact absurd hop' (ha op' List.mem_cons_self)
    | cons y a' =>
      obtain ⟨hxy, htail⟩ := List.cons.inj h
      obtain ⟨haa, hops, hb⟩ := ih (List.forall_mem_cons.mp ha).2 (List.forall_mem_cons.mp ha').2 htail
      exact ⟨by rw [hxy, haa], hops, hb⟩

theorem findOperator_none {arg : List UInt8} (h : Operand (str arg)) (i : Nat) :
    findOperator i arg = none := by
  induction arg generalizing i with
  | nil => rfl
  | cons c arg ih =>
    rw [findOperator]
    by_cases hc : c = 0
    · rw [if_pos hc]
    · rw [str_cons hc] at h
      obtain ⟨hop, h⟩ := List.forall_mem_cons.mp h
      rw [if_neg hc, if_neg hop, ih h]

theorem findOperator_some {arg a b : List UInt8} {op : UInt8} (h : str arg = a ++ op :: b)
    (ha : Operand a) (hop : IsOperator op) (i : Nat) : findOperator i arg = some (i + a.length) := by
  induction arg generalizing i a with
  | nil => simp at h
  | cons c arg ih =>
    have hc : c ≠ 0 := by
      rintro rfl
      simp at h
    rw [str_cons hc] at h
    rw [findOperator, if_neg hc]
    cases a with
    | nil =>
      cases h
      rw [if_pos hop]
      rfl
    | cons x a =>
      obtain ⟨hcx, htail⟩ := List.cons.inj h
      obtain ⟨hx, ha⟩ := List.forall_mem_cons.mp ha
      rw [hcx, if_neg hx, ih htail ha, List.length_cons,
        show i + 1 + a.length = i + (a.length + 1) by omega]

/-! ## What is read from the copies -/

theorem skipSpaces_append_nul (s t : List UInt8) :
    skipSpaces (s ++ 0 :: t) = skipSpaces s ++ 0 :: t := by
  induction s with
  | nil => rfl
  | cons c s ih =>
    rw [List.cons_append, skipSpaces, skipSpaces]
    split
    · exact ih
    · rfl

theorem numeralDigits_append_nul (res : Int) (s t : List UInt8) :
    numeralDigits res (s ++ 0 :: t) = numeralDigits res s := by
  induction s generalizing res with
  | nil => exact numeralDigits_stop (.inl (by decide)) res t
  | cons c s ih =>
    rw [List.cons_append, numeralDigits, numeralDigits]
    split
    · exact ih _
    · rfl

theorem numeral_append_nul (s t : List UInt8) : numeral (s ++ 0 :: t) = numeral s := by
  cases s with
  | nil => exact numeralDigits_append_nul 0 [] t
  | cons c s =>
    unfold numeral
    rw [List.cons_append, List.headD_cons, List.headD_cons, List.drop_succ_cons, List.drop_zero,
      List.drop_succ_cons, List.drop_zero, numeralDigits_append_nul, ← List.cons_append,
      numeralDigits_append_nul]

/-- An operand is read from its copy as if it stood alone. -/
theorem atoi_copy {n : Nat} {b : Chars n} (hfit : (str b.bytes).length < n) :
    atoi (skipSpaces b.bytes) = i32 (numeral (skipSpaces (str b.bytes))) := by
  obtain ⟨t, ht⟩ := eq_str_append b.bytes (by rw [b.length_eq]; exact hfit)
  rw [atoi_eq, ht, skipSpaces_append_nul, numeral_append_nul, str_append_zero (zero_not_mem_str _)]

/-- **The cut.**  With the first operator found, the operands are the numbers at
the start of the two parts, if these fit. -/
theorem cmdCalc_spec {arg a b : List UInt8} {op : UInt8} (h : str arg = a ++ op :: b)
    (ha : Operand a) (hop : IsOperator op) :
    cmdCalc arg = if a.length ≤ 31 ∧ b.length ≤ 31 then
        calcOperands op (i32 (numeral (skipSpaces a))) (i32 (numeral (skipSpaces b)))
      else .error .store := by
  have hlen : (str arg).length = a.length + (b.length + 1) := by
    rw [h, List.length_append, List.length_cons]
  have hget : arg.getD a.length 0 = op := by
    rw [← getD_str (by omega), h]
    simp
  have htake : (str arg).take a.length = a := by
    rw [h]
    exact List.take_left
  have hrest : str (arg.drop (a.length + 1)) = b := by
    have h' : str arg = (a ++ [op]) ++ b := by rw [h, List.append_assoc, List.singleton_append]
    have hdrop := str_drop_append h'
    rwa [List.length_append, List.length_singleton] at hdrop
  unfold cmdCalc
  simp only [findOperator_some h ha hop 0, Nat.zero_add, hget]
  by_cases hfit : a.length ≤ 31
  · obtain ⟨b₁, b₁', hcpy, hput, hs₁⟩ := strncpy_put_spec (Chars.uninit 32) 0 arg a.length
      (by omega) (Nat.zero_le _)
    rw [Nat.zero_add] at hput
    rw [List.take_zero, List.nil_append, htake] at hs₁
    have hn1 : atoi (skipSpaces b₁'.bytes) = i32 (numeral (skipSpaces a)) := by
      rw [atoi_copy (by rw [hs₁]; omega), hs₁]
    by_cases hfit' : b.length ≤ 31
    · obtain ⟨b₂, hcpy₂, hs₂⟩ := strcpy_spec (Chars.uninit 32) (arg.drop (a.length + 1))
        (by rw [hrest]; omega)
      rw [hrest] at hs₂
      have hn2 : atoi (skipSpaces b₂.bytes) = i32 (numeral (skipSpaces b)) := by
        rw [atoi_copy (by rw [hs₂]; omega), hs₂]
      rw [if_pos ⟨hfit, hfit'⟩, hcpy, hcpy₂]
      show stored (b₁.put a.length 0) >>= _ = _
      rw [hput]
      show calcOperands op _ _ = _
      rw [hn1, hn2]
    · have hnone : strcpy (Chars.uninit 32) (arg.drop (a.length + 1)) = none := by
        rw [strcpy_eq, hrest]
        exact Chars.write_eq_none _ _ _ (by simp) (by simp; omega)
      rw [if_neg (fun hf => hfit' hf.2), hcpy, hnone]
      show stored (b₁.put a.length 0) >>= _ = _
      rw [hput]
      rfl
  · have hnone : strncpy (Chars.uninit 32) 0 arg a.length = none ∨
        ∃ b₁, strncpy (Chars.uninit 32) 0 arg a.length = some b₁ ∧ b₁.put a.length 0 = none := by
      cases hcpy : strncpy (Chars.uninit 32) 0 arg a.length with
      | none => exact .inl rfl
      | some b₁ => exact .inr ⟨b₁, rfl, if_neg (by omega)⟩
    rw [if_neg (fun hf => hfit hf.1)]
    rcases hnone with hcpy | ⟨b₁, hcpy, hput⟩
    · rw [hcpy]
      rfl
    · rw [hcpy]
      show stored (b₁.put a.length 0) >>= _ = _
      rw [hput]
      rfl

theorem cmdCalc_none {arg : List UInt8} (h : Operand (str arg)) :
    cmdCalc arg = .ok (say (text "\nError: Invalid expression. Use: calc 5 + 3\n")) := by
  unfold cmdCalc
  rw [findOperator_none h]

/-! ## Integers as operands -/

inductive CalcOp where
  | add
  | sub
  | mul
  | div
deriving DecidableEq

def CalcOp.char : CalcOp → UInt8
  | .add => ch '+'
  | .sub => ch '-'
  | .mul => ch '*'
  | .div => ch '/'

/-- `a op b` over the integers; division truncates. -/
def CalcOp.eval (op : CalcOp) (a b : Int) : Int :=
  match op with
  | .add => a + b
  | .sub => a - b
  | .mul => a * b
  | .div => a.tdiv b

/-- `a op b` is `a` again, modulo 2^32. -/
def CalcOp.Keeps (op : CalcOp) (a b : Int) : Prop :=
  match op with
  | .add => b = 0
  | .sub => b = 0
  | .mul => 2 ^ 32 ∣ a * (b - 1)
  | .div => b = 1

theorem CalcOp.char_isOperator (op : CalcOp) : IsOperator op.char := by
  cases op with
  | add => exact .inl rfl
  | sub => exact .inr (.inl rfl)
  | mul => exact .inr (.inr (.inl rfl))
  | div => exact .inr (.inr (.inr rfl))

variable {a b : Int} {op : CalcOp}

theorem calcResult_inj (ha : -2 ^ 31 ≤ a ∧ a < 2 ^ 31) (hb : -2 ^ 31 ≤ b ∧ b < 2 ^ 31) :
    calcResult a = calcResult b ↔ a = b := by
  constructor
  · intro h
    have hs := TerminalCall.writestring.inj (List.cons.inj h).1
    have hitoa := List.append_cancel_left (List.append_cancel_right hs)
    rw [← atoi_itoa ha.1 ha.2, hitoa, atoi_itoa hb.1 hb.2]
  · intro h
    rw [h]

theorem digit_not_operator {c : UInt8} (hc : 48 ≤ c.toNat) : ¬ IsOperator c := by
  rintro (rfl | rfl | rfl | rfl)
  · exact absurd hc (by decide)
  · exact absurd hc (by decide)
  · exact absurd hc (by decide)
  · exact absurd hc (by decide)

theorem skipSpaces_itoa (a : Int) (rest : List UInt8) :
    skipSpaces (itoa a ++ rest) = itoa a ++ rest :=
  skipSpaces_of_ne (itoa_headD a rest).1 (itoa_headD a rest).2

theorem itoa_length_le (ha : -2 ^ 31 ≤ a ∧ a < 2 ^ 31) : (itoa a).length ≤ 11 := by
  unfold itoa
  split
  · have hz := u32OfInt_of_lt (z := -a) (by omega) (by omega)
    have := decimal_length_le (n := u32OfInt (-a)) (k := 10) (by omega) (by omega)
    rw [List.length_cons]
    omega
  · have hz := u32OfInt_of_lt (z := a) (by omega) (by omega)
    have := decimal_length_le (n := u32OfInt a) (k := 10) (by omega) (by omega)
    omega

/-- A first operand that is not negative is cut off at the operator. -/
theorem cmdCalc_of_nonneg {arg : List UInt8} (ha : -2 ^ 31 ≤ a ∧ a < 2 ^ 31)
    (hb : -2 ^ 31 ≤ b ∧ b < 2 ^ 31)
    (harg : str arg = itoa a ++ ch ' ' :: op.char :: ch ' ' :: itoa b) (h0 : 0 ≤ a) :
    cmdCalc arg = calcOperands op.char a b := by
  have hcut : str arg = (itoa a ++ [ch ' ']) ++ op.char :: (ch ' ' :: itoa b) := by
    rw [harg, List.append_assoc, List.singleton_append]
  have hdig : itoa a = decimal (u32OfInt a) := if_neg (by omega)
  have hop : Operand (itoa a ++ [ch ' ']) := by
    intro c hc
    rw [List.mem_append, List.mem_singleton] at hc
    rcases hc with hc | rfl
    · rw [hdig] at hc
      exact digit_not_operator (decimal_digits _ c hc).1
    · decide
  have hla := itoa_length_le ha
  have hlb := itoa_length_le hb
  have hblank : skipSpaces (ch ' ' :: itoa b) = itoa b := by
    rw [skipSpaces, if_pos (.inl rfl)]
    have := skipSpaces_itoa b []
    rwa [List.append_nil] at this
  have hna : numeral (itoa a ++ [ch ' ']) = a := by
    apply numeral_itoa_append ha.1 ha.2
    intro c hc
    cases hc
    exact .inl (by decide)
  rw [cmdCalc_spec hcut hop op.char_isOperator, if_pos, skipSpaces_itoa, hblank, hna,
    numeral_itoa hb.1 hb.2, i32_of_lt ha.1 ha.2, i32_of_lt hb.1 hb.2]
  rw [List.length_append, List.length_singleton, List.length_cons]
  omega

/-- The sign of a negative first operand is taken for the operator: what is
printed is `0 - |a|`. -/
theorem cmdCalc_of_neg {arg : List UInt8} (ha : -2 ^ 31 ≤ a ∧ a < 2 ^ 31)
    (hb : -2 ^ 31 ≤ b ∧ b < 2 ^ 31)
    (harg : str arg = itoa a ++ ch ' ' :: op.char :: ch ' ' :: itoa b) (h0 : a < 0) :
    cmdCalc arg = .ok (calcResult a) := by
  have hsign : itoa a = ch '-' :: decimal (u32OfInt (-a)) := if_pos h0
  have hz := u32OfInt_of_lt (z := -a) (by omega) (by omega)
  have hcut : str arg =
      [] ++ ch '-' :: (decimal (u32OfInt (-a)) ++ ch ' ' :: op.char :: ch ' ' :: itoa b) := by
    rw [harg, hsign]
    rfl
  have hlen : (decimal (u32OfInt (-a)) ++ ch ' ' :: op.char :: ch ' ' :: itoa b).length ≤ 31 := by
    have hla := itoa_length_le ha
    have hlb := itoa_length_le hb
    rw [hsign, List.length_cons] at hla
    rw [List.length_append, List.length_cons, List.length_cons, List.length_cons]
    omega
  have hskip := skipSpaces_itoa (u32OfInt (-a) : Int) (ch ' ' :: op.char :: ch ' ' :: itoa b)
  rw [itoa_natCast (by omega)] at hskip
  have hnum : numeral (decimal (u32OfInt (-a)) ++ ch ' ' :: op.char :: ch ' ' :: itoa b) = -a := by
    cases hdec : decimal (u32OfInt (-a)) with
    | nil => exact absurd hdec (decimal_ne_nil _)
    | cons c s =>
      have hc := decimal_digits (u32OfInt (-a)) c (by rw [hdec]; exact List.mem_cons_self)
      have hne : ∀ d : UInt8, d.toNat < 48 → c ≠ d := by
        rintro d hd rfl
        omega
      rw [numeral, List.cons_append, List.headD_cons, if_neg (hne (ch '-') (by decide)),
        if_neg (hne (ch '+') (by decide)), ← List.cons_append, ← hdec, numeralDigits_decimal,
        numeralDigits_stop (.inl (by decide)), hz]
  have hn1 : i32 (numeral (skipSpaces [])) = 0 := rfl
  have hzero : i32 (0 - i32 (-a)) = a := by
    rw [← i32_of_lt ha.1 ha.2]
    apply i32_congr
    have := i32_emod (-a)
    rw [i32_of_lt ha.1 ha.2]
    omega
  rw [cmdCalc_spec hcut operand_nil (.inr (.inl rfl)), if_pos ⟨Nat.zero_le _, hlen⟩, hskip, hnum, hn1]
  show Except.ok (calcResult (i32 (0 - i32 (-a)))) = _
  rw [hzero]

/-- Which operations leave a negative number as it is. -/
theorem keeps_iff (ha : -2 ^ 31 ≤ a ∧ a < 0) (hb : -2 ^ 31 ≤ b ∧ b < 2 ^ 31)
    (hdiv : op = .div → b ≠ 0 ∧ ¬(a = -2 ^ 31 ∧ b = -1)) :
    a = i32 (op.eval a b) ↔ op.Keeps a b := by
  have hmod : a = i32 (op.eval a b) ↔ a % 2 ^ 32 = op.eval a b % 2 ^ 32 := by
    rw [← i32_eq_iff, i32_of_lt ha.1 (by omega)]
  rw [hmod]
  cases op with
  | add =>
    show a % 2 ^ 32 = (a + b) % 2 ^ 32 ↔ b = 0
    omega
  | sub =>
    show a % 2 ^ 32 = (a - b) % 2 ^ 32 ↔ b = 0
    omega
  | mul =>
    show a % 2 ^ 32 = a * b % 2 ^ 32 ↔ 2 ^ 32 ∣ a * (b - 1)
    rw [Int.mul_sub, Int.mul_one]
    omega
  | div =>
    show a % 2 ^ 32 = a.tdiv b % 2 ^ 32 ↔ b = 1
    obtain ⟨h0, hmin⟩ := hdiv rfl
    have habs : (a.tdiv b).natAbs = a.natAbs / b.natAbs := Int.natAbs_tdiv a b
    by_cases h1 : b = 1
    · rw [h1, Int.tdiv_one]
      exact iff_of_true rfl rfl
    · refine iff_of_false ?_ h1
      by_cases hneg : b = -1
      · rw [hneg, Int.tdiv_neg, Int.tdiv_one]
        omega
      · -- the quotient is at most half as large as `a`
        have hhalf : a.natAbs / b.natAbs ≤ a.natAbs / 2 :=
          Nat.div_le_div_left (by omega) (by omega)
        omega

theorem calcOperands_char (ha : 0 ≤ a ∧ a < 2 ^ 31)
    (hdiv : op = .div → b ≠ 0) :
    calcOperands op.char a b = .ok (calcResult (i32 (op.eval a b))) := by
  cases op with
  | add => rfl
  | sub => rfl
  | mul => rfl
  | div =>
    have h0 := hdiv rfl
    have habs : (a.tdiv b).natAbs ≤ a.natAbs := Int.natAbs_tdiv_le_natAbs a b
    have hi : idiv a b = .ok (a.tdiv b) := if_neg (by omega)
    show (if b = 0 then _ else idiv a b >>= _) = _
    rw [if_neg h0, hi]
    show Except.ok (calcResult (a.tdiv b)) = .ok (calcResult (i32 (a.tdiv b)))
    rw [i32_of_lt (by omega) (by omega)]

/-- The argument of `calc` is what stands behind the one blank. -/
theorem calcLine_eq {inputBuf args : List UInt8} (hline : str inputBuf = text "calc " ++ args)
    (hhead : (inputBuf.drop (text "calc ").length).headD 0 ≠ ch ' ' ∧
      (inputBuf.drop (text "calc ").length).headD 0 ≠ ch '\t') :
    calcLine inputBuf = some (cmdCalc (inputBuf.drop (text "calc ").length)) := by
  have htake : inputBuf.take (text "calc ").length = text "calc " := by
    rw [take_str_of_le (by rw [hline, List.length_append]; omega), hline, List.take_left]
  have hsplit : inputBuf = text "calc" ++ ch ' ' :: inputBuf.drop (text "calc ").length := by
    conv => lhs; rw [← List.take_append_drop (text "calc ").length inputBuf, htake]
    rfl
  have hcmd : commandLine inputBuf = some (some .calc, inputBuf.drop (text "calc ").length) := by
    conv => lhs; rw [hsplit]
    rw [commandLine_of_name (c := .calc) (by decide), skipSpaces_of_ne hhead.1 hhead.2]
  unfold calcLine
  rw [hcmd]
  rfl

/-- **Integers.**  `calc a op b` prints `a op b`, wrapped, exactly when `a` is
not negative or the operation leaves it as it is. -/
theorem calc_prints_iff (ha : -2 ^ 31 ≤ a ∧ a < 2 ^ 31) (hb : -2 ^ 31 ≤ b ∧ b < 2 ^ 31)
    (hdiv : op = .div → b ≠ 0 ∧ ¬(a = -2 ^ 31 ∧ b = -1)) {inputBuf : List UInt8}
    (hline : str inputBuf = text "calc " ++ itoa a ++ ch ' ' :: op.char :: ch ' ' :: itoa b) :
    calcLine inputBuf = some (.ok (calcResult (i32 (op.eval a b)))) ↔ 0 ≤ a ∨ op.Keeps a b := by
  have hhead := itoa_headD a (ch ' ' :: op.char :: ch ' ' :: itoa b)
  rw [List.append_assoc] at hline
  have harg := str_drop_append hline
  rw [← harg, headD_str] at hhead
  rw [calcLine_eq hline hhead, Option.some.injEq]
  by_cases h0 : 0 ≤ a
  · rw [cmdCalc_of_nonneg ha hb harg h0,
      calcOperands_char ⟨h0, ha.2⟩ (fun h => (hdiv h).1)]
    exact iff_of_true rfl (.inl h0)
  · have hneg : a < 0 := Int.not_le.mp h0
    rw [cmdCalc_of_neg ha hb harg hneg, Except.ok.injEq, calcResult_inj ha (i32_bounds _),
      keeps_iff ⟨ha.1, hneg⟩ hb hdiv, or_iff_right h0]

theorem calc_prints_iff_50 : calcLine (text "calc 10 * 5") = some (.ok (calcResult 50)) := by
  have hline : str (text "calc 10 * 5") =
      text "calc " ++ itoa 10 ++ ch ' ' :: CalcOp.mul.char :: ch ' ' :: itoa 5 := by decide
  have h50 : i32 (CalcOp.mul.eval 10 5) = 50 := by decide
  rw [← h50]
  apply (calc_prints_iff (by omega) (by omega) (fun h => CalcOp.noConfusion h) hline).mpr
  exact .inl (by omega)

/-- `calc -5 + 3` prints -5. -/
theorem calc_not_prints :
    ∃ a b op, str (text "calc -5 + 3") =
        text "calc " ++ itoa a ++ ch ' ' :: CalcOp.char op :: ch ' ' :: itoa b ∧
      calcLine (text "calc -5 + 3") = some (.ok (calcResult a)) ∧
      calcResult a ≠ calcResult (i32 (op.eval a b)) := by
  have hline : str (text "calc -5 + 3") =
      text "calc " ++ itoa (-5) ++ ch ' ' :: CalcOp.add.char :: ch ' ' :: itoa 3 := by decide
  refine ⟨-5, 3, .add, hline, ?_, ?_⟩
  · rw [List.append_assoc] at hline
    rw [calcLine_eq hline (by decide),
      cmdCalc_of_neg (by omega) (by omega) (str_drop_append hline) (by omega)]
  · rw [Ne, calcResult_inj (by omega) (i32_bounds _)]
    decide

/-! ## The divide exception -/

/-- The two operands that the processor does not divide, behind the test for zero. -/
def Overflows (op : UInt8) (n1 n2 : Int) : Prop := op = ch '/' ∧ n1 = -2 ^ 31 ∧ n2 = -1

theorem calcOperands_overflows {op : UInt8} {n1 n2 : Int} (h : Overflows op n1 n2) :
    calcOperands op n1 n2 = .error .divide := by
  obtain ⟨rfl, rfl, rfl⟩ := h
  rfl

theorem calcOperands_returns {op : UInt8} {n1 n2 : Int} (h : ¬ Overflows op n1 n2) :
    ∃ out, calcOperands op n1 n2 = .ok out := by
  unfold calcOperands
  split
  · exact ⟨_, rfl⟩
  split
  · exact ⟨_, rfl⟩
  split
  · exact ⟨_, rfl⟩
  split
  · rename_i hdiv
    split
    · exact ⟨_, rfl⟩
    · rename_i h0
      have hdivides : ¬(n2 = 0 ∨ (n1 = -2 ^ 31 ∧ n2 = -1)) :=
        not_or.mpr ⟨h0, fun hmin => h ⟨hdiv, hmin⟩⟩
      rw [idiv, if_neg hdivides]
      exact ⟨_, rfl⟩
  · exact ⟨_, rfl⟩

/-- **The divide exception.**  The calculator comes back without it exactly if there is no operator,
or both operands have at most 31 characters and it is not a quotient whose first operand is 2^31
and whose second is -1 modulo 2^32. -/
theorem calc_no_divide_iff (arg : List UInt8) :
    (∃ out, cmdCalc arg = .ok out) ↔
      ∀ a op b, str arg = a ++ op :: b → Operand a → IsOperator op →
        (a.length ≤ 31 ∧ b.length ≤ 31) ∧
          ¬(op = ch '/' ∧ numeral (skipSpaces a) % 2 ^ 32 = 2 ^ 31 ∧
            numeral (skipSpaces b) % 2 ^ 32 = 2 ^ 32 - 1) := by
  have hmin : ∀ z : Int, i32 z = -2 ^ 31 ↔ z % 2 ^ 32 = 2 ^ 31 := by
    intro z
    rw [← i32_of_lt (z := -2 ^ 31) (by omega) (by omega), i32_eq_iff]
    omega
  have hone : ∀ z : Int, i32 z = -1 ↔ z % 2 ^ 32 = 2 ^ 32 - 1 := by
    intro z
    rw [← i32_of_lt (z := -1) (by omega) (by omega), i32_eq_iff]
    omega
  rcases operator_split (str arg) with hnone | ⟨a, op, b, harg, ha, hop⟩
  · rw [cmdCalc_none hnone]
    refine iff_of_true ⟨_, rfl⟩ ?_
    intro a op b harg _ hop
    rw [harg] at hnone
    exact absurd hop (hnone op (List.mem_append_right _ List.mem_cons_self))
  · rw [cmdCalc_spec harg ha hop]
    constructor
    · rintro ⟨out, hout⟩ a' op' b' harg' ha' hop'
      obtain ⟨rfl, rfl, rfl⟩ := operator_split_unique ha ha' hop hop' (harg.symm.trans harg')
      split at hout
      · rename_i hfit
        refine ⟨hfit, ?_⟩
        rw [← hmin, ← hone]
        intro hover
        rw [calcOperands_overflows hover] at hout
        cases hout
      · cases hout
    · intro h
      obtain ⟨hfit, hno⟩ := h a op b harg ha hop
      rw [← hmin, ← hone] at hno
      rw [if_pos hfit]
      exact calcOperands_returns hno

/-- The digits 2147483648 are read as -2^31, which is divided by -1. -/
theorem calc_divides : cmdCalc (text "2147483648/-1") = .error .divide := by
  have hcut : str (text "2147483648/-1") = text "2147483648" ++ ch '/' :: text "-1" := by decide
  rw [cmdCalc_spec hcut (forall_of_all (by decide)) (by decide), if_pos (by decide)]
  exact calcOperands_overflows ⟨rfl, by decide, by decide⟩

end MiniOS
