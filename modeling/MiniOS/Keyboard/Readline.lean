import MiniOS.Memory.Strings
import MiniOS.Screen.Terminal

/-!
# Reading keys (`keyboard_getchar`, `keyboard_readline` in `kernel/keyboard.c`)

The keys to come are a list; a function that waits for a key beyond its end
does not come back (`none`).  What is echoed is a list of terminal calls, and the
terminal has to bring that to its end as well (`CallsReturn`).
-/

namespace MiniOS

open Lib

/-! ## The codes of the arrow keys (`include/keyboard.h`) -/

def keyUpArrow : UInt8 := 0x11
def keyDownArrow : UInt8 := 0x12
def keyRightArrow : UInt8 := 0x13
def keyLeftArrow : UInt8 := 0x14

/-! ## A line -/

/-- What a function that reads keys returns, echoes and leaves unread. -/
structure Typed (α : Type) where
  val : α
  out : List TerminalCall
  keys : List UInt8

/-- `keyboard_getchar`: the next key and the keys after it. -/
def keyboardGetchar : List UInt8 → Option (UInt8 × List UInt8)
  | [] => none
  | c :: keys => some (c, keys)

/-- `buf[i] = '\0'; return i;` -/
def readlineEnd {n : Nat} (buf : Chars n) (i : Nat) (out : List TerminalCall)
    (keys : List UInt8) : Option (Typed (Nat × Chars n)) := do
  let buf ← buf.put i 0
  some ⟨(i, buf), out, keys⟩

/-- The loop of `keyboard_readline` with `i` characters held and room for `room`. -/
def readlineLoop {n : Nat} (room : Nat) (buf : Chars n) (i : Nat) (out : List TerminalCall)
    (keys : List UInt8) : Option (Typed (Nat × Chars n)) :=
  if i < room then
    match keys with
    | [] => none
    | c :: keys =>
      if c = ch '\n' ∨ c = ch '\r' then readlineEnd buf i (out ++ [.putchar (ch '\n')]) keys
      else if c = 8 then
        if i > 0 then readlineLoop room buf (i - 1) (out ++ [.putchar 8]) keys
        else readlineLoop room buf i out keys
      else do
        let buf ← buf.put i c
        readlineLoop room buf (i + 1) (out ++ [.putchar c]) keys
  else readlineEnd buf i out keys

/-- `keyboard_readline(buf, len)`. -/
def keyboardReadline {n : Nat} (buf : Chars n) (len : Nat) (keys : List UInt8) :
    Option (Typed (Nat × Chars n)) :=
  readlineLoop (u32 (len + 2 ^ 32 - 1)) buf 0 [] keys

theorem readlineEnd_keys {n : Nat} {buf : Chars n} {i : Nat} {out : List TerminalCall}
    {keys : List UInt8} {r : Typed (Nat × Chars n)} (h : readlineEnd buf i out keys = some r) :
    r.keys = keys := by
  simp only [readlineEnd, Option.bind_eq_bind, Option.bind_eq_some_iff] at h
  obtain ⟨b, _, h⟩ := h
  cases h
  rfl

/-- A line read leaves no more keys than there were. -/
theorem readlineLoop_keys {n room : Nat} {buf : Chars n} {i : Nat} {out : List TerminalCall}
    {keys : List UInt8} {r : Typed (Nat × Chars n)} (h : readlineLoop room buf i out keys = some r) :
    r.keys.length ≤ keys.length := by
  induction keys generalizing buf i out with
  | nil =>
    rw [readlineLoop] at h
    by_cases hi : i < room
    · rw [if_pos hi] at h
      cases h
    · rw [if_neg hi] at h
      rw [readlineEnd_keys h]
  | cons c keys ih =>
    rw [readlineLoop] at h
    rw [List.length_cons]
    by_cases hi : i < room
    · rw [if_pos hi] at h
      by_cases hc : c = ch '\n' ∨ c = ch '\r'
      · rw [if_pos hc] at h
        rw [readlineEnd_keys h]
        omega
      · rw [if_neg hc] at h
        by_cases hb : c = 8
        · rw [if_pos hb] at h
          split at h
          · have := ih h
            omega
          · have := ih h
            omega
        · rw [if_neg hb] at h
          obtain ⟨b, _, h⟩ := Option.bind_eq_some_iff.mp h
          have := ih h
          omega
    · rw [if_neg hi] at h
      rw [readlineEnd_keys h, List.length_cons]

theorem keyboardReadline_keys {n len : Nat} {buf : Chars n} {keys : List UInt8}
    {r : Typed (Nat × Chars n)} (h : keyboardReadline buf len keys = some r) :
    r.keys.length ≤ keys.length := readlineLoop_keys h

theorem readlineEnd_length {n : Nat} {buf : Chars n} {i : Nat} {out : List TerminalCall}
    {keys : List UInt8} {r : Typed (Nat × Chars n)} (h : readlineEnd buf i out keys = some r) :
    (str r.val.2.bytes).length < n := by
  simp only [readlineEnd, Option.bind_eq_bind, Option.bind_eq_some_iff] at h
  obtain ⟨b, hb, h⟩ := h
  cases h
  exact Chars.length_str_put hb

/-- A line read is a string in its array. -/
theorem readlineLoop_length {n room : Nat} {buf : Chars n} {i : Nat} {out : List TerminalCall}
    {keys : List UInt8} {r : Typed (Nat × Chars n)} (h : readlineLoop room buf i out keys = some r) :
    (str r.val.2.bytes).length < n := by
  induction keys generalizing buf i out with
  | nil =>
    rw [readlineLoop] at h
    by_cases hi : i < room
    · rw [if_pos hi] at h
      cases h
    · rw [if_neg hi] at h
      exact readlineEnd_length h
  | cons c keys ih =>
    rw [readlineLoop] at h
    by_cases hi : i < room
    · rw [if_pos hi] at h
      by_cases hc : c = ch '\n' ∨ c = ch '\r'
      · rw [if_pos hc] at h
        exact readlineEnd_length h
      · rw [if_neg hc] at h
        by_cases hb : c = 8
        · rw [if_pos hb] at h
          split at h
          · exact ih h
          · exact ih h
        · rw [if_neg hb] at h
          obtain ⟨b, _, h⟩ := Option.bind_eq_some_iff.mp h
          exact ih h
    · rw [if_neg hi] at h
      exact readlineEnd_length h

theorem keyboardReadline_length {n len : Nat} {buf : Chars n} {keys : List UInt8}
    {r : Typed (Nat × Chars n)} (h : keyboardReadline buf len keys = some r) :
    (str r.val.2.bytes).length < n := readlineLoop_length h

/-- A key that is read as itself. -/
def PlainKey (c : UInt8) : Prop := c ≠ 0 ∧ c ≠ 8 ∧ c ≠ ch '\n' ∧ c ≠ ch '\r'

instance (c : UInt8) : Decidable (PlainKey c) := by
  unfold PlainKey
  infer_instance

/-- Plain keys and an ENTER are written one after the other, with a NUL behind them. -/
theorem readlineLoop_plain {n room : Nat} {txt : List UInt8} (htxt : ∀ c ∈ txt, PlainKey c)
    (buf : Chars n) (i : Nat) (out : List TerminalCall) (rest : List UInt8)
    (hroom : i + txt.length < room) :
    ∃ out', readlineLoop room buf i out (txt ++ ch '\r' :: rest) =
      (buf.write i (txt ++ [0])).map fun b => ⟨(i + txt.length, b), out', rest⟩ := by
  induction txt generalizing buf i out with
  | nil =>
    refine ⟨out ++ [.putchar (ch '\n')], ?_⟩
    rw [List.nil_append, readlineLoop, if_pos (by rw [List.length_nil] at hroom; omega),
      if_pos (.inr rfl), readlineEnd, List.nil_append, Chars.write_singleton]
    cases buf.put i 0 with
    | none => rfl
    | some b => rfl
  | cons c txt ih =>
    obtain ⟨_, h8, hn, hr⟩ := htxt c List.mem_cons_self
    rw [List.length_cons] at hroom
    rw [List.cons_append, readlineLoop, if_pos (by omega)]
    simp only [if_neg h8, if_neg (show ¬ (c = ch '\n' ∨ c = ch '\r') by
      rw [not_or]; exact ⟨hn, hr⟩)]
    rw [List.cons_append, Chars.write]
    cases hput : buf.put i c with
    | none => exact ⟨out, rfl⟩
    | some b =>
      obtain ⟨out', ho⟩ := ih (fun d hd => htxt d (List.mem_cons_of_mem _ hd)) b (i + 1)
        (out ++ [.putchar c]) (by omega)
      refine ⟨out', ?_⟩
      rw [Option.bind_eq_bind, Option.bind_some, Option.bind_some, ho, List.length_cons,
        show i + 1 + txt.length = i + (txt.length + 1) by omega]

/-- **A plain line** that fits is read as typed, up to its ENTER. -/
theorem keyboardReadline_plain {n : Nat} (hn : n < 2 ^ 32) (buf : Chars n) (txt : List UInt8)
    (htxt : ∀ c ∈ txt, PlainKey c) (hlen : txt.length + 1 < n) (rest : List UInt8) :
    ∃ line, keyboardReadline buf n (txt ++ ch '\r' :: rest) = some line ∧
      str line.val.2.bytes = txt ∧ line.keys = rest := by
  have hroom : u32 (n + 2 ^ 32 - 1) = n - 1 := by
    unfold u32
    omega
  obtain ⟨out', ho⟩ := readlineLoop_plain htxt buf 0 [] rest
    (show 0 + txt.length < n - 1 by omega)
  obtain ⟨b, hb, _⟩ := buf.write_eq 0 (txt ++ [0])
    (by rw [List.length_append, List.length_singleton]; omega)
  refine ⟨⟨(0 + txt.length, b), out', rest⟩, ?_, ?_, rfl⟩
  · unfold keyboardReadline
    rw [hroom, ho, hb]
    rfl
  · show str b.bytes = txt
    rw [Chars.str_write (fun h0 => (htxt 0 h0).1 rfl) (Nat.zero_le _) hb, List.take_zero,
      List.nil_append]

end MiniOS
