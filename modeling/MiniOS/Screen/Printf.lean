import MiniOS.Memory.NumberBuffers
import MiniOS.Memory.Strings
import MiniOS.Screen.Characters

/-!
# Formatted output (`terminal_printf` in `kernel/screen.c`)

The scan goes over the format from its first character on; a read behind the
end of the array, an argument that is not there and a store outside of `numbuf`
are faults (`PrintfFault`).  What is printed is a list of terminal calls, which the
terminal has to bring to its end (`CallsReturn`).

A format that ends inside of a conversion is read up to its NUL and no further:
the conversion stays at its last character, and `printfNext` does not move on
from a NUL (`terminalPrintf_returns`).
-/

namespace MiniOS

open Lib

/-! ## The scan -/

/-- What `va_arg` finds: a 32-bit word, or a pointer to a string (`none` for `NULL`). -/
inductive VaArg where
  | word (w : UInt32)
  | string (s : Option (List UInt8))

/-- A read behind the format, no argument of the type asked for, a store outside of an array. -/
inductive PrintfFault where
  | read
  | arg
  | store
deriving DecidableEq

/-- The locals, and what has been printed. -/
structure Printf where
  fmt : List UInt8
  args : List VaArg
  numbuf : Chars 32
  out : List TerminalCall

/-- `*fmt`. -/
def deref : List UInt8 → Except PrintfFault UInt8
  | [] => .error .read
  | c :: _ => .ok c

/-- `if (*fmt == c) { flag = 1; fmt++; }` -/
def printfFlag (c : UInt8) (fmt : List UInt8) : Except PrintfFault (Bool × List UInt8) := do
  let d ← deref fmt
  if d = c then .ok (true, fmt.drop 1) else .ok (false, fmt)

def printfWidth (width : Int) : List UInt8 → Except PrintfFault (Int × List UInt8)
  | [] => .error .read
  | c :: fmt =>
    if ch '0' ≤ c ∧ c ≤ ch '9' then printfWidth (i32 (width * 10 + (c.toNat - (ch '0').toNat))) fmt
    else .ok (width, c :: fmt)

/-- `for (int i = len; i < width; i++) terminal_putchar(c);` -/
def padField (c : UInt8) (len width : Int) : List TerminalCall :=
  List.replicate (width - len).toNat (.putchar c)

/-- The output of `%s`, `%d` and `%u`; with `zeros` there are zeros before the text. -/
def printfField (zeros leftJustify : Bool) (width : Int) (s : List UInt8) : List TerminalCall :=
  let len := i32 (strlen s)
  (if zeros then padField (ch '0') len width
    else if !leftJustify then padField (ch ' ') len width else []) ++
    [.writestring s] ++ if leftJustify then padField (ch ' ') len width else []

/-- `numbuf` after a number is stored in it. -/
def numbufStored (r : Option (Chars 32)) : Except PrintfFault (Chars 32) :=
  match r with
  | some b => .ok b
  | none => .error .store

def nextWord (s : Printf) : Except PrintfFault (UInt32 × Printf) :=
  match s.args with
  | .word w :: args => .ok (w, { s with args })
  | _ => .error .arg

def nextString (s : Printf) : Except PrintfFault (Option (List UInt8) × Printf) :=
  match s.args with
  | .string p :: args => .ok (p, { s with args })
  | _ => .error .arg

/-- `switch (*fmt)`. -/
def printfSwitch (s : Printf) (zeroPad leftJustify : Bool) (width : Int) (c : UInt8) :
    Except PrintfFault Printf :=
  if c = ch 's' then do
    let (p, s) ← nextString s
    .ok { s with out := s.out ++ printfField false leftJustify width (p.getD (text "(null)")) }
  else if c = ch 'd' then do
    let (w, s) ← nextWord s
    let val := i32 w.toNat
    let numbuf ← numbufStored (itoaBuf val s.numbuf 10)
    .ok { s with
      numbuf, out := s.out ++ printfField (val ≥ 0 ∧ zeroPad) leftJustify width numbuf.bytes }
  else if c = ch 'u' then do
    let (w, s) ← nextWord s
    let numbuf ← numbufStored (utoa w.toNat s.numbuf 10)
    .ok { s with numbuf, out := s.out ++ printfField zeroPad leftJustify width numbuf.bytes }
  else if c = ch 'x' then do
    let (w, s) ← nextWord s
    let numbuf ← numbufStored (utoa w.toNat s.numbuf 16)
    .ok { s with numbuf, out := s.out ++ [.writestring numbuf.bytes] }
  else if c = ch 'c' then do
    let (w, s) ← nextWord s
    .ok { s with out := s.out ++ [.putchar w.toUInt8] }
  else if c = ch '%' then .ok { s with out := s.out ++ [.putchar (ch '%')] }
  else .ok { s with out := s.out ++ [.putchar (ch '%'), .putchar c] }

/-- A conversion, behind its `%`. -/
def printfConversion (s : Printf) : Except PrintfFault Printf := do
  let (leftJustify, fmt) ← printfFlag (ch '-') s.fmt
  let (zeroPad, fmt) ← printfFlag (ch '0') fmt
  let (width, fmt) ← printfWidth 0 fmt
  let c ← deref fmt
  printfSwitch { s with fmt } zeroPad leftJustify width c

/-- `if (*fmt) fmt++;` -/
def printfNext (s : Printf) : Except PrintfFault Printf := do
  let c ← deref s.fmt
  if c = 0 then .ok s else .ok { s with fmt := s.fmt.drop 1 }

/-- `if (*fmt == '%') … else terminal_putchar(*fmt);` -/
def printfChar (s : Printf) (c : UInt8) : Except PrintfFault Printf :=
  if c = ch '%' then printfConversion { s with fmt := s.fmt.drop 1 }
  else .ok { s with out := s.out ++ [.putchar c] }

/-- The body of the loop at a character `c` that is not NUL. -/
def printfRound (s : Printf) (c : UInt8) : Except PrintfFault Printf := do
  let s ← printfChar s c
  printfNext s

def printfBody (s : Printf) : Printf ⊕ Except PrintfFault (List TerminalCall) :=
  match deref s.fmt with
  | .error e => .inr (.error e)
  | .ok c =>
    if c = 0 then .inr (.ok s.out)
    else
      match printfRound s c with
      | .error e => .inr (.error e)
      | .ok s => .inl s

/-- `terminal_printf`: each round takes a character of the format at least. -/
def terminalPrintf (fmt : List UInt8) (args : List VaArg) :
    Option (Except PrintfFault (List TerminalCall)) :=
  loop printfBody (fmt.length + 1) ⟨fmt, args, Chars.uninit 32, []⟩

/-! ## The end of the format -/

/-- A part of the scan that comes back with a `P`, or misses an argument. -/
def Continues {α : Type} (P : α → Prop) (r : Except PrintfFault α) : Prop :=
  (∃ a, r = .ok a ∧ P a) ∨ r = .error .arg

section

variable {α β : Type} {P : α → Prop} {Q : β → Prop}

theorem Continues.ok {a : α} (h : P a) : Continues P (.ok a) := .inl ⟨a, rfl, h⟩

theorem Continues.bind {r : Except PrintfFault α} (h : Continues P r)
    {f : α → Except PrintfFault β} (hf : ∀ a, P a → Continues Q (f a)) : Continues Q (r >>= f) := by
  rcases h with ⟨a, rfl, ha⟩ | rfl
  · exact hf a ha
  · exact .inr rfl

theorem Continues.mono {P' : α → Prop} {r : Except PrintfFault α} (h : Continues P r)
    (hP : ∀ a, P a → P' a) : Continues P' r := by
  rcases h with ⟨a, hr, ha⟩ | hr
  · exact .inl ⟨a, hr, hP a ha⟩
  · exact .inr hr

/-- The only fault of such a part is the missing argument. -/
theorem Continues.ne {r : Except PrintfFault α} (h : Continues P r) {e : PrintfFault}
    (he : e ≠ .arg) : r ≠ .error e := by
  rcases h with ⟨a, rfl, _⟩ | rfl
  · exact nofun
  · intro heq
    cases heq
    exact he rfl

end

/-- The rest of a format, up to its NUL. -/
def Format (fmt : List UInt8) : Prop := ∃ u, 0 ∉ u ∧ fmt = u ++ [0]

variable {fmt : List UInt8}

theorem Format.cases (h : Format fmt) :
    fmt = [0] ∨ ∃ c fmt', c ≠ 0 ∧ fmt = c :: fmt' ∧ Format fmt' := by
  obtain ⟨u, h0, rfl⟩ := h
  cases u with
  | nil => exact .inl rfl
  | cons c u =>
    rw [List.mem_cons, not_or] at h0
    exact .inr ⟨c, u ++ [0], Ne.symm h0.1, rfl, u, h0.2, rfl⟩

/-- A character can be read, and behind all but the NUL there is more. -/
theorem Format.deref (h : Format fmt) :
    Continues (fun c => c ≠ 0 → Format (fmt.drop 1) ∧ (fmt.drop 1).length < fmt.length)
      (MiniOS.deref fmt) := by
  rcases h.cases with rfl | ⟨c, fmt', hc, rfl, h'⟩
  · exact .ok fun h => absurd rfl h
  · exact .ok fun _ => ⟨h', by simp⟩

theorem printfFlag_continues (h : Format fmt) {c : UInt8} (hc : c ≠ 0) :
    Continues (fun r => Format r.2 ∧ r.2.length ≤ fmt.length) (printfFlag c fmt) := by
  unfold printfFlag
  apply h.deref.bind
  intro d hnext
  split
  · rename_i hdc
    obtain ⟨h', hlt⟩ := hnext (by rw [hdc]; exact hc)
    exact .ok ⟨h', Nat.le_of_lt hlt⟩
  · exact .ok ⟨h, Nat.le_refl _⟩

theorem printfWidth_continues (h : Format fmt) (width : Int) :
    Continues (fun r => Format r.2 ∧ r.2.length ≤ fmt.length) (printfWidth width fmt) := by
  induction fmt generalizing width with
  | nil =>
    obtain ⟨u, _, hu⟩ := h
    simp at hu
  | cons c fmt ih =>
    rw [printfWidth]
    split
    · rename_i hc
      rcases h.cases with h0 | ⟨_, _, _, heq, h'⟩
      · cases h0
        exact absurd hc (by decide)
      · cases heq
        apply (ih h' _).mono
        rintro r ⟨hr, hle⟩
        exact ⟨hr, by rw [List.length_cons]; omega⟩
    · exact .ok ⟨h, Nat.le_refl _⟩

theorem nextWord_continues (s : Printf) :
    Continues (fun r => r.2.fmt = s.fmt ∧ r.2.numbuf = s.numbuf) (nextWord s) := by
  unfold nextWord
  split
  · exact .ok ⟨rfl, rfl⟩
  · exact .inr rfl

theorem nextString_continues (s : Printf) :
    Continues (fun r => r.2.fmt = s.fmt) (nextString s) := by
  unfold nextString
  split
  · exact .ok rfl
  · exact .inr rfl

theorem itoaBuf_stored (z : Int) (buf : Chars 32) :
    ∃ b, numbufStored (itoaBuf (i32 z) buf 10) = .ok b ∧ str b.bytes = itoa (i32 z) := by
  obtain ⟨hlo, hhi⟩ := i32_bounds z
  obtain ⟨b, hb, hstr, _⟩ := itoaBuf_spec hlo hhi (by decide) buf
  exact ⟨b, by rw [hb]; rfl, hstr⟩

theorem utoa_stored {base : Nat} (hb : 10 ≤ base) (hb' : base ≤ 16) (w : UInt32)
    (buf : Chars 32) :
    ∃ b, numbufStored (utoa w.toNat buf base) = .ok b ∧
      str b.bytes = numeralIn base remChar w.toNat := by
  have hlen := length_numeralIn_word hb w.toNat_lt
  obtain ⟨b, hutoa, hstr⟩ := utoa_spec (by omega) hb' w.toNat_lt buf (by omega)
  exact ⟨b, by rw [hutoa]; rfl, hstr⟩

/-- A number is stored in `numbuf` and printed. -/
theorem number_continues {r : Except PrintfFault (Chars 32)} {b : Chars 32} (hr : r = .ok b)
    {f : Chars 32 → Printf} (hf : (f b).fmt = fmt) :
    Continues (fun s' => s'.fmt = fmt) (r >>= fun numbuf => .ok (f numbuf)) := by
  rw [hr]
  exact .ok hf

/-- A conversion stays at its last character. -/
theorem printfSwitch_continues (s : Printf) (zeroPad leftJustify : Bool) (width : Int)
    (c : UInt8) :
    Continues (fun s' => s'.fmt = s.fmt) (printfSwitch s zeroPad leftJustify width c) := by
  unfold printfSwitch
  split
  · apply (nextString_continues s).bind
    rintro ⟨p, s₁⟩ h
    exact .ok h
  split
  · apply (nextWord_continues s).bind
    rintro ⟨w, s₁⟩ ⟨h, _⟩
    obtain ⟨b, hb, _⟩ := itoaBuf_stored w.toNat s₁.numbuf
    exact number_continues hb h
  split
  · apply (nextWord_continues s).bind
    rintro ⟨w, s₁⟩ ⟨h, _⟩
    obtain ⟨b, hb, _⟩ := utoa_stored (Nat.le_refl 10) (by decide) w s₁.numbuf
    exact number_continues hb h
  split
  · apply (nextWord_continues s).bind
    rintro ⟨w, s₁⟩ ⟨h, _⟩
    obtain ⟨b, hb, _⟩ := utoa_stored (show 10 ≤ 16 by decide) (Nat.le_refl 16) w s₁.numbuf
    exact number_continues hb h
  split
  · apply (nextWord_continues s).bind
    rintro ⟨w, s₁⟩ ⟨h, _⟩
    exact .ok h
  split
  · exact .ok rfl
  · exact .ok rfl

theorem printfConversion_continues {s : Printf} (h : Format s.fmt) :
    Continues (fun s' => Format s'.fmt ∧ s'.fmt.length ≤ s.fmt.length) (printfConversion s) := by
  unfold printfConversion
  apply (printfFlag_continues h (by decide)).bind
  rintro ⟨leftJustify, fmt₁⟩ ⟨h₁, hle₁⟩
  apply (printfFlag_continues h₁ (by decide)).bind
  rintro ⟨zeroPad, fmt₂⟩ ⟨h₂, hle₂⟩
  apply (printfWidth_continues h₂ 0).bind
  rintro ⟨width, fmt₃⟩ ⟨h₃, hle₃⟩
  apply h₃.deref.bind
  intro c _
  apply (printfSwitch_continues { s with fmt := fmt₃ } zeroPad leftJustify width c).mono
  intro s' hs'
  rw [hs']
  exact ⟨h₃, by simp only at hle₁ hle₂ hle₃ ⊢; omega⟩

/-- The last statement moves on, except at the NUL. -/
theorem printfNext_continues {s : Printf} (h : Format s.fmt) :
    Continues (fun s' => Format s'.fmt ∧ s'.fmt.length ≤ s.fmt.length ∧
      (s.fmt ≠ [0] → s'.fmt.length < s.fmt.length)) (printfNext s) := by
  unfold printfNext
  rcases h.cases with h0 | ⟨c, fmt', hc, hs, h'⟩
  · rw [h0]
    exact .ok ⟨h, by rw [h0], fun hne => absurd rfl hne⟩
  · rw [hs]
    show Continues _ (if c = 0 then _ else _)
    rw [if_neg hc]
    exact .ok ⟨h', by simp, fun _ => by simp⟩

/-- A conversion moves on; another character is still there. -/
theorem printfChar_continues {s : Printf} {c : UInt8} {fmt : List UInt8} (hs : s.fmt = c :: fmt)
    (h : Format s.fmt) (h' : Format fmt) :
    Continues (fun s' => Format s'.fmt ∧ (s'.fmt = s.fmt ∨ s'.fmt.length < s.fmt.length))
      (printfChar s c) := by
  unfold printfChar
  split
  · have hdrop : s.fmt.drop 1 = fmt := by
      rw [hs]
      rfl
    rw [hdrop]
    apply (printfConversion_continues (s := { s with fmt }) h').mono
    rintro s' ⟨hfmt, hle⟩
    refine ⟨hfmt, .inr ?_⟩
    rw [hs, List.length_cons]
    exact Nat.lt_succ_of_le hle
  · exact .ok ⟨h, .inl rfl⟩

/-- **One round** takes a character at least and stays in the format. -/
theorem printfRound_continues {s : Printf} {c : UInt8} (h : Format s.fmt)
    (hc : deref s.fmt = .ok c) (h0 : c ≠ 0) :
    Continues (fun s' => Format s'.fmt ∧ s'.fmt.length < s.fmt.length) (printfRound s c) := by
  rcases h.cases with hs | ⟨d, fmt, _, hs, h'⟩
  · rw [hs] at hc
    cases hc
    exact absurd rfl h0
  obtain rfl : d = c := by
    rw [hs] at hc
    cases hc
    rfl
  unfold printfRound
  apply (printfChar_continues hs h h').bind
  rintro s₁ ⟨h₁, hsame | hlt⟩
  · have hend : s₁.fmt ≠ [0] := by
      rw [hsame, hs]
      intro hend
      cases hend
      exact h0 rfl
    apply (printfNext_continues h₁).mono
    rintro s₂ ⟨h₂, _, hlt⟩
    exact ⟨h₂, by rw [← hsame]; exact hlt hend⟩
  · apply (printfNext_continues h₁).mono
    rintro s₂ ⟨h₂, hle, _⟩
    exact ⟨h₂, Nat.lt_of_le_of_lt hle hlt⟩

/-- The loop goes on with less of the format, or comes back. -/
theorem printfBody_continues {s : Printf} (h : Format s.fmt) :
    (∃ s', printfBody s = .inl s' ∧ Format s'.fmt ∧ s'.fmt.length < s.fmt.length) ∨
      ∃ r, printfBody s = .inr r ∧ Continues (fun _ => True) r := by
  unfold printfBody
  rcases h.deref with ⟨c, hc, _⟩ | hc
  · rw [hc]
    by_cases hnul : c = 0
    · exact .inr ⟨_, if_pos hnul, .ok trivial⟩
    · rcases printfRound_continues h hc hnul with ⟨s', hround, h'⟩ | hround
      · exact .inl ⟨s', by simp only [if_neg hnul, hround], h'⟩
      · exact .inr ⟨_, by simp only [if_neg hnul, hround], .inr rfl⟩
  · rw [hc]
    exact .inr ⟨_, rfl, .inr rfl⟩

/-- **The end.**  No format is read behind its NUL, and no store is outside of `numbuf`. -/
theorem terminalPrintf_returns {fmt : List UInt8} (h0 : 0 ∉ fmt) (args : List VaArg) :
    ∃ r, terminalPrintf (fmt ++ [0]) args = some r ∧ Continues (fun _ => True) r := by
  apply loop_total (fun s : Printf => Format s.fmt) (fun s => s.fmt.length)
  · intro s s' h hbody
    rcases printfBody_continues h with ⟨s₁, heq, h₁⟩ | ⟨r, heq, _⟩
    · rw [heq] at hbody
      cases hbody
      exact h₁
    · rw [heq] at hbody
      cases hbody
  · intro s r h hbody
    rcases printfBody_continues h with ⟨s₁, heq, _⟩ | ⟨r₁, heq, h₁⟩
    · rw [heq] at hbody
      cases hbody
    · rw [heq] at hbody
      cases hbody
      exact h₁
  · exact ⟨fmt, h0, rfl⟩
  · exact Nat.lt_succ_self _

end MiniOS
