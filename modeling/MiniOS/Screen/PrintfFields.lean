import MiniOS.Memory.AtoiRange
import MiniOS.Screen.Printf
import MiniOS.Screen.Printing

/-!
# The fields of `terminal_printf`

* `printfBody_conversion`: what `%s`, `%d` and `%u` print, with flags and width;
* `terminalPrintf_pieces`: a format prints its characters and its fields one
  after the other;
* `fieldBytes_padded_iff`: when a field has its width.  With both flags a number
  is filled up with zeros before it and once more with blanks behind it;
* `printf_padded_iff`: when such a field comes up on the terminal.  A string may
  have tabs in it, and those must fit.

The `itoa` that stores a number for such a field is read back by `atoi`
(`atoi_itoaBuf`).
-/

namespace MiniOS

open Lib

/-! ## One conversion -/

/-- The flags and the width of a conversion; a `0` before the width is the flag. -/
structure Conversion where
  leftJustify : Bool
  zeroPad : Bool
  width : List UInt8
  digits : AllDigits width
  flagged : zeroPad = false → width.head? ≠ some (ch '0')
  fits : numeralDigits 0 width < 2 ^ 31

/-- The text of a conversion in a format. -/
def Conversion.spelled (v : Conversion) (letter : UInt8) : List UInt8 :=
  ch '%' :: ((if v.leftJustify then [ch '-'] else []) ++ ((if v.zeroPad then [ch '0'] else []) ++
    (v.width ++ [letter])))

/-- The width as a number. -/
def Conversion.columns (v : Conversion) : Int := numeralDigits 0 v.width

/-- What a conversion with a width prints: a string, or a word as an `int` or an `unsigned int`. -/
inductive Field where
  | s (p : Option (List UInt8))
  | d (w : UInt32)
  | u (w : UInt32)

def Field.letter : Field → UInt8
  | .s _ => ch 's'
  | .d _ => ch 'd'
  | .u _ => ch 'u'

def Field.arg : Field → VaArg
  | .s p => .string p
  | .d w => .word w
  | .u w => .word w

/-- The text without padding. -/
def Field.unpadded : Field → List UInt8
  | .s p => str (p.getD (text "(null)"))
  | .d w => itoa (i32 w.toNat)
  | .u w => decimal w.toNat

/-- The fields the flag `0` fills up: numbers, but no negative ones. -/
def Field.zeros (zeroPad : Bool) : Field → Bool
  | .s _ => false
  | .d w => i32 w.toNat ≥ 0 ∧ zeroPad
  | .u _ => zeroPad

theorem printfFlag_eq {c d : UInt8} {flag : Bool} (hd : flag = false → d ≠ c) (fmt : List UInt8) :
    printfFlag c ((if flag then [c] else []) ++ d :: fmt) = .ok (flag, d :: fmt) := by
  cases flag with
  | true => exact if_pos rfl
  | false => exact if_neg (hd rfl)

/-- The digits of the width are read as their number. -/
theorem printfWidth_digits {ds : List UInt8} (hds : AllDigits ds) {width : Int} (h0 : 0 ≤ width)
    (hfit : numeralDigits width ds < 2 ^ 31) {c : UInt8} (hc : ¬(ch '0' ≤ c ∧ c ≤ ch '9'))
    (fmt : List UInt8) :
    printfWidth width (ds ++ c :: fmt) = .ok (numeralDigits width ds, c :: fmt) := by
  induction ds generalizing width with
  | nil => exact if_neg hc
  | cons d ds ih =>
    obtain ⟨hd, hds⟩ := List.forall_mem_cons.mp hds
    have hb := digit_bounds hd
    rw [numeralDigits, if_pos hd] at hfit ⊢
    have hle := le_numeralDigits (show 0 ≤ width * 10 + d.toNat - (ch '0').toNat by omega) ds
    rw [List.cons_append, printfWidth, if_pos hd, ← Int.add_sub_assoc,
      i32_of_lt (by omega) (by omega)]
    exact ih hds (by omega) hfit

theorem Field.letter_spec (k : Field) :
    k.letter ≠ ch '-' ∧ k.letter ≠ ch '0' ∧ k.letter ≠ 0 ∧
      ¬(ch '0' ≤ k.letter ∧ k.letter ≤ ch '9') := by
  have hall : ∀ c ∈ [ch 's', ch 'd', ch 'u'], c ≠ ch '-' ∧ c ≠ ch '0' ∧ c ≠ 0 ∧
      ¬(ch '0' ≤ c ∧ c ≤ ch '9') := by decide +kernel
  cases k with
  | s p => exact hall (ch 's') (by decide)
  | d w => exact hall (ch 'd') (by decide)
  | u w => exact hall (ch 'u') (by decide)

theorem bind_ok {α β : Type} {r : Except PrintfFault α} {a : α} (h : r = .ok a)
    (f : α → Except PrintfFault β) : (r >>= f) = f a := by
  rw [h]
  rfl

theorem printfSwitch_field (k : Field) (zeroPad leftJustify : Bool) (width : Int)
    (fmt : List UInt8) (args : List VaArg) (numbuf : Chars 32) (out : List TerminalCall) :
    ∃ numbuf' s, printfSwitch ⟨fmt, k.arg :: args, numbuf, out⟩ zeroPad leftJustify width k.letter =
        .ok ⟨fmt, args, numbuf', out ++ printfField (k.zeros zeroPad) leftJustify width s⟩ ∧
      str s = k.unpadded := by
  cases k with
  | s p => exact ⟨numbuf, p.getD (text "(null)"), rfl, rfl⟩
  | d w =>
    obtain ⟨b, hb, hstr⟩ := itoaBuf_stored w.toNat numbuf
    refine ⟨b, b.bytes, ?_, hstr⟩
    have hs : ch 'd' ≠ ch 's' := by decide
    show printfSwitch ⟨fmt, .word w :: args, numbuf, out⟩ zeroPad leftJustify width (ch 'd') = _
    unfold printfSwitch
    rw [if_neg hs, if_pos rfl]
    exact (bind_ok rfl _).trans (bind_ok hb _)
  | u w =>
    obtain ⟨b, hb, hstr⟩ := utoa_stored (Nat.le_refl 10) (by decide) w numbuf
    refine ⟨b, b.bytes, ?_, by rw [hstr, ← decimal_eq_numeralIn]; rfl⟩
    have hs : ch 'u' ≠ ch 's' := by decide
    have hd : ch 'u' ≠ ch 'd' := by decide
    show printfSwitch ⟨fmt, .word w :: args, numbuf, out⟩ zeroPad leftJustify width (ch 'u') = _
    unfold printfSwitch
    rw [if_neg hs, if_neg hd, if_pos rfl]
    exact (bind_ok rfl _).trans (bind_ok hb _)

/-- Behind the flags there is a digit or the letter, and neither is taken for a flag. -/
theorem Conversion.head_width (v : Conversion) (k : Field) (fmt : List UInt8) :
    ∃ d rest, v.width ++ k.letter :: fmt = d :: rest ∧ d ≠ ch '-' ∧
      (v.zeroPad = false → d ≠ ch '0') := by
  obtain ⟨hminus, hzero, _, _⟩ := k.letter_spec
  cases hwidth : v.width with
  | nil => exact ⟨k.letter, fmt, rfl, hminus, fun _ => hzero⟩
  | cons d ds =>
    have hd := digit_bounds (v.digits d (by rw [hwidth]; exact List.mem_cons_self))
    refine ⟨d, ds ++ k.letter :: fmt, rfl, ?_, ?_⟩
    · rintro rfl
      exact absurd hd.2.1 (by decide)
    · rintro hflag rfl
      exact v.flagged hflag (by rw [hwidth]; rfl)

theorem Conversion.head_zeros (v : Conversion) (k : Field) (fmt : List UInt8) :
    ∃ d rest, (if v.zeroPad then [ch '0'] else []) ++ (v.width ++ k.letter :: fmt) = d :: rest ∧
      d ≠ ch '-' := by
  obtain ⟨d, rest, heq, hd, _⟩ := v.head_width k fmt
  rw [heq]
  cases v.zeroPad with
  | true => exact ⟨ch '0', d :: rest, rfl, by decide⟩
  | false => exact ⟨d, rest, rfl, hd⟩

/-- A conversion and its argument are taken, and the field is printed. -/
theorem printfConversion_field (v : Conversion) (k : Field) (fmt : List UInt8) (args : List VaArg)
    (numbuf : Chars 32) (out : List TerminalCall) :
    ∃ numbuf' s, printfConversion ⟨(v.spelled k.letter).drop 1 ++ fmt, k.arg :: args, numbuf, out⟩ =
        .ok ⟨k.letter :: fmt, args, numbuf',
          out ++ printfField (k.zeros v.zeroPad) v.leftJustify v.columns s⟩ ∧
      str s = k.unpadded := by
  obtain ⟨numbuf', s, hswitch, hstr⟩ := printfSwitch_field k v.zeroPad v.leftJustify v.columns
    (k.letter :: fmt) args numbuf out
  refine ⟨numbuf', s, ?_, hstr⟩
  have hleft : printfFlag (ch '-') ((v.spelled k.letter).drop 1 ++ fmt) = .ok (v.leftJustify,
      (if v.zeroPad then [ch '0'] else []) ++ (v.width ++ k.letter :: fmt)) := by
    obtain ⟨d, rest, heq, hd⟩ := v.head_zeros k fmt
    have hspelled : (v.spelled k.letter).drop 1 ++ fmt =
        (if v.leftJustify then [ch '-'] else []) ++ d :: rest := by
      simp [Conversion.spelled, ← heq]
    rw [hspelled, heq]
    exact printfFlag_eq (fun _ => hd) rest
  have hzero : printfFlag (ch '0')
      ((if v.zeroPad then [ch '0'] else []) ++ (v.width ++ k.letter :: fmt)) =
        .ok (v.zeroPad, v.width ++ k.letter :: fmt) := by
    obtain ⟨d, rest, heq, _, hd⟩ := v.head_width k fmt
    rw [heq]
    exact printfFlag_eq hd rest
  have hwidth := printfWidth_digits v.digits (Int.le_refl 0) v.fits k.letter_spec.2.2.2 fmt
  unfold printfConversion
  exact (bind_ok hleft _).trans ((bind_ok hzero _).trans ((bind_ok hwidth _).trans
    ((bind_ok rfl _).trans hswitch)))

/-- **One conversion.**  The loop goes on behind it, with its field printed. -/
theorem printfBody_conversion (v : Conversion) (k : Field) (fmt : List UInt8) (args : List VaArg)
    (numbuf : Chars 32) (out : List TerminalCall) :
    ∃ numbuf' s, printfBody ⟨v.spelled k.letter ++ fmt, k.arg :: args, numbuf, out⟩ =
        .inl ⟨fmt, args, numbuf',
          out ++ printfField (k.zeros v.zeroPad) v.leftJustify v.columns s⟩ ∧
      str s = k.unpadded := by
  obtain ⟨numbuf', s, hconv, hstr⟩ := printfConversion_field v k fmt args numbuf out
  refine ⟨numbuf', s, ?_, hstr⟩
  have hround : printfRound ⟨v.spelled k.letter ++ fmt, k.arg :: args, numbuf, out⟩ (ch '%') =
      .ok ⟨fmt, args, numbuf',
        out ++ printfField (k.zeros v.zeroPad) v.leftJustify v.columns s⟩ := by
    have hnext : printfNext ⟨k.letter :: fmt, args, numbuf',
        out ++ printfField (k.zeros v.zeroPad) v.leftJustify v.columns s⟩ =
          .ok ⟨fmt, args, numbuf',
            out ++ printfField (k.zeros v.zeroPad) v.leftJustify v.columns s⟩ :=
      if_neg k.letter_spec.2.2.1
    unfold printfRound printfChar
    rw [if_pos rfl]
    exact (bind_ok hconv _).trans hnext
  have hchar : deref (v.spelled k.letter ++ fmt) = .ok (ch '%') := rfl
  have h0 : ch '%' ≠ 0 := by decide
  unfold printfBody
  simp only [hchar, if_neg h0, hround]

/-! ## The width of a field -/

/-- What `printfField` prints for the string `s`. -/
def fieldBytes (zeros leftJustify : Bool) (width : Int) (s : List UInt8) : List UInt8 :=
  let pad := (width - i32 s.length).toNat
  (if zeros then List.replicate pad (ch '0')
    else if !leftJustify then List.replicate pad (ch ' ') else []) ++ s ++
    if leftJustify then List.replicate pad (ch ' ') else []

/-- `o` is `s` in `width` columns or in its own length, with all padding on one side. -/
def PaddedOnOneSide (width : Int) (s o : List UInt8) : Prop :=
  (o.length : Int) = max width s.length ∧ ∃ c k, (c = ch ' ' ∨ c = ch '0') ∧
    (o = List.replicate k c ++ s ∨ o = s ++ List.replicate k c)

theorem padField_bytes (c : UInt8) (len width : Int) :
    (padField c len width).flatMap TerminalCall.bytes = List.replicate (width - len).toNat c := by
  unfold padField
  induction (width - len).toNat with
  | zero => rfl
  | succ n ih =>
    rw [List.replicate_succ, List.flatMap_cons, ih, List.replicate_succ]
    rfl

theorem printfField_bytes (zeros leftJustify : Bool) (width : Int) (s : List UInt8) :
    (printfField zeros leftJustify width s).flatMap TerminalCall.bytes =
      fieldBytes zeros leftJustify width (str s) := by
  have hpad := fun c => padField_bytes c (i32 (str s).length) width
  have hs : [TerminalCall.writestring s].flatMap TerminalCall.bytes = str s :=
    List.append_nil (str s)
  unfold printfField fieldBytes
  rw [strlen_eq, List.flatMap_append, List.flatMap_append, hs]
  cases zeros with
  | true => cases leftJustify with
    | true => simp [hpad]
    | false => simp [hpad]
  | false => cases leftJustify with
    | true => simp [hpad]
    | false => simp [hpad]

theorem length_fieldBytes (zeros leftJustify : Bool) (width : Int) (s : List UInt8) :
    (fieldBytes zeros leftJustify width s).length =
      s.length + (width - i32 s.length).toNat *
        if zeros && leftJustify then 2 else 1 := by
  unfold fieldBytes
  cases zeros with
  | true => cases leftJustify with
    | true => simp; omega
    | false => simp; omega
  | false => cases leftJustify with
    | true => simp
    | false => simp; omega

/-- Without both flags the padding stands on one side. -/
theorem fieldBytes_oneSide {zeros leftJustify : Bool} (hflags : ¬(leftJustify ∧ zeros))
    (width : Int) (s : List UInt8) :
    ∃ c k, (c = ch ' ' ∨ c = ch '0') ∧
      (fieldBytes zeros leftJustify width s = List.replicate k c ++ s ∨
        fieldBytes zeros leftJustify width s = s ++ List.replicate k c) := by
  unfold fieldBytes
  cases leftJustify with
  | true =>
    obtain rfl : zeros = false := by simpa using hflags
    exact ⟨ch ' ', _, .inl rfl, .inr rfl⟩
  | false =>
    cases zeros with
    | true => exact ⟨ch '0', _, .inr rfl, .inl (List.append_nil _)⟩
    | false => exact ⟨ch ' ', _, .inl rfl, .inl (List.append_nil _)⟩

/-- A text that leaves no columns stands alone. -/
theorem fieldBytes_of_le {width : Int} {s : List UInt8} (h : width ≤ i32 s.length)
    (zeros leftJustify : Bool) : fieldBytes zeros leftJustify width s = s := by
  have hpad : (width - i32 s.length).toNat = 0 := by omega
  unfold fieldBytes
  rw [hpad]
  simp

theorem i32_natCast_le (n : Nat) : i32 n ≤ n := by
  by_cases hn : (n : Int) < 2 ^ 31
  · rw [i32_of_lt (by omega) hn]
  · have := (i32_bounds n).2
    omega

/-- **The width.**  A field has its width exactly if it does not fill up on both sides, and the
length of its text is an `int`. -/
theorem fieldBytes_padded_iff {width : Int} (h0 : 0 ≤ width) (hfit : width < 2 ^ 31)
    (zeros leftJustify : Bool) (s : List UInt8) :
    PaddedOnOneSide width s (fieldBytes zeros leftJustify width s) ↔
      ¬(leftJustify ∧ zeros ∧ s.length < width) ∧ (s.length < 2 ^ 31 ∨ width ≤ i32 s.length) := by
  have hle := i32_natCast_le s.length
  have hlen := length_fieldBytes zeros leftJustify width s
  by_cases hpad : width ≤ i32 s.length
  · rw [fieldBytes_of_le hpad]
    refine iff_of_true ⟨by omega, ch ' ', 0, .inl rfl, .inl rfl⟩ ⟨?_, .inr hpad⟩
    rintro ⟨_, _, hlt⟩
    omega
  have hint : s.length < 2 ^ 31 → i32 s.length = s.length :=
    fun h => i32_of_lt (by omega) (by omega)
  by_cases hboth : leftJustify ∧ zeros
  · -- the columns are filled up twice
    have hflags : (zeros && leftJustify) = true := by rw [hboth.1, hboth.2]; rfl
    rw [if_pos hflags] at hlen
    refine iff_of_false ?_ ?_
    · rintro ⟨hmax, _⟩
      by_cases hsmall : s.length < 2 ^ 31
      · have := hint hsmall
        omega
      · omega
    · rintro ⟨hnot, hsmall | hle⟩
      · have := hint hsmall
        exact hnot ⟨hboth.1, hboth.2, by omega⟩
      · exact hpad hle
  · have hflags : ¬(zeros && leftJustify) = true := by
      rw [Bool.and_eq_true]
      exact fun h => hboth h.symm
    rw [if_neg hflags] at hlen
    constructor
    · rintro ⟨hmax, _⟩
      exact ⟨fun h => hboth ⟨h.1, h.2.1⟩, .inl (by omega)⟩
    · rintro ⟨_, hsmall | hle⟩
      · have := hint hsmall
        exact ⟨by omega, fieldBytes_oneSide hboth width s⟩
      · exact absurd hle hpad

/-! ## A field on the terminal -/

theorem padField_displays (c : UInt8) (len width : Int) :
    Displays (padField c len width) (List.replicate (width - len).toNat c) := by
  unfold padField
  rw [← List.map_replicate]
  exact displays_putchars _

theorem printfField_displays (zeros leftJustify : Bool) (width : Int) (s : List UInt8) :
    Displays (printfField zeros leftJustify width s) (fieldBytes zeros leftJustify width (str s)) := by
  refine ⟨?_, printfField_bytes zeros leftJustify width s⟩
  have hpad := fun c => (padField_displays c (i32 (str s).length) width).prints
  have hs := (displays_writestring s).prints
  unfold printfField
  rw [strlen_eq]
  simp only [List.forall_mem_append]
  refine ⟨⟨?_, hs⟩, ?_⟩
  · split
    · exact hpad _
    · split
      · exact hpad _
      · exact displays_nil.prints
  · split
    · exact hpad _
    · exact displays_nil.prints

/-- The text behind the blanks before it. -/
def Conversion.indented (v : Conversion) (k : Field) : List UInt8 :=
  (if v.leftJustify then []
    else List.replicate (v.columns - k.unpadded.length).toNat (ch ' ')) ++ k.unpadded

theorem tab_notMem_replicate {c : UInt8} (hc : ch '\t' ≠ c) (n : Nat) :
    ch '\t' ∉ List.replicate n c :=
  fun h => hc (List.eq_of_mem_replicate h)

/-- A number has no tabs. -/
theorem Field.tab_notMem {k : Field} (hk : k.letter ≠ ch 's') : ch '\t' ∉ k.unpadded := by
  cases k with
  | s p => exact absurd rfl hk
  | d w =>
    show ch '\t' ∉ itoa _
    unfold itoa
    split
    · rw [List.mem_cons, not_or]
      exact ⟨by decide, tab_notMem_decimal _⟩
    · exact tab_notMem_decimal _
  | u w => exact tab_notMem_decimal _

/-- The tabs of a field are those of its text behind the blanks. -/
theorem fieldBytes_tabsFit (v : Conversion) {k : Field}
    (hlen : k.unpadded.length < 2 ^ 31 ∨ v.columns ≤ i32 k.unpadded.length) (pos : Nat) :
    TabsFit pos (fieldBytes (k.zeros v.zeroPad) v.leftJustify v.columns k.unpadded) ↔
      TabsFit pos (v.indented k) := by
  have hblanks := tab_notMem_replicate (show ch '\t' ≠ ch ' ' by decide)
  have hzeros := tab_notMem_replicate (show ch '\t' ≠ ch '0' by decide)
  by_cases hk : k.letter = ch 's'
  · have hz : k.zeros v.zeroPad = false := by
      cases k with
      | s p => rfl
      | d w => exact absurd hk (show ch 'd' ≠ ch 's' by decide)
      | u w => exact absurd hk (show ch 'u' ≠ ch 's' by decide)
    have hpad : (v.columns - i32 k.unpadded.length).toNat =
        (v.columns - k.unpadded.length).toNat := by
      rcases hlen with hsmall | hle
      · rw [i32_of_lt (by omega) (by omega)]
      · have := i32_natCast_le k.unpadded.length
        omega
    unfold fieldBytes Conversion.indented
    rw [hz, hpad]
    cases v.leftJustify with
    | true => exact tabsFit_append_plain (hblanks _)
    | false => exact tabsFit_append_plain List.not_mem_nil
  · have htab := Field.tab_notMem hk
    refine iff_of_true (tabsFit_plain ?_ pos) (tabsFit_plain ?_ pos)
    · unfold fieldBytes
      simp only [List.mem_append, not_or]
      refine ⟨⟨?_, htab⟩, ?_⟩
      · split
        · exact hzeros _
        · split
          · exact hblanks _
          · exact List.not_mem_nil
      · split
        · exact hblanks _
        · exact List.not_mem_nil
    · unfold Conversion.indented
      rw [List.mem_append, not_or]
      refine ⟨?_, htab⟩
      split
      · exact List.not_mem_nil
      · exact hblanks _

/-! ## Whole formats -/

/-- A character that starts no conversion, or a conversion and its argument. -/
inductive Piece where
  | char (c : UInt8) (hc : c ≠ 0 ∧ c ≠ ch '%')
  | field (v : Conversion) (k : Field)

def Piece.spelled : Piece → List UInt8
  | .char c _ => [c]
  | .field v k => v.spelled k.letter

def Piece.args : Piece → List VaArg
  | .char _ _ => []
  | .field _ k => [k.arg]

def Piece.bytes : Piece → List UInt8
  | .char c _ => [c]
  | .field v k => fieldBytes (k.zeros v.zeroPad) v.leftJustify v.columns k.unpadded

/-- One round for a piece. -/
theorem printfBody_piece (p : Piece) (fmt : List UInt8) (args : List VaArg) (numbuf : Chars 32)
    (out : List TerminalCall) :
    ∃ numbuf' calls, printfBody ⟨p.spelled ++ fmt, p.args ++ args, numbuf, out⟩ =
        .inl ⟨fmt, args, numbuf', out ++ calls⟩ ∧ calls.flatMap TerminalCall.bytes = p.bytes := by
  cases p with
  | char c hc =>
    have hround : printfRound ⟨c :: fmt, args, numbuf, out⟩ c =
        .ok ⟨fmt, args, numbuf, out ++ [.putchar c]⟩ := by
      unfold printfRound printfChar
      rw [if_neg hc.2]
      exact if_neg hc.1
    refine ⟨numbuf, [.putchar c], ?_, rfl⟩
    show printfBody ⟨c :: fmt, args, numbuf, out⟩ = _
    unfold printfBody
    simp only [deref, if_neg hc.1, hround]
  | field v k =>
    obtain ⟨numbuf', s, hbody, hstr⟩ := printfBody_conversion v k fmt args numbuf out
    exact ⟨numbuf', _, hbody, by rw [printfField_bytes, hstr]; rfl⟩

theorem loop_pieces (ps : List Piece) {n : Nat} (hn : ps.length < n) (numbuf : Chars 32)
    (out : List TerminalCall) :
    ∃ calls, loop printfBody n
        ⟨ps.flatMap Piece.spelled ++ [0], ps.flatMap Piece.args, numbuf, out⟩ = some (.ok calls) ∧
      calls.flatMap TerminalCall.bytes =
        out.flatMap TerminalCall.bytes ++ ps.flatMap Piece.bytes := by
  induction ps generalizing n numbuf out with
  | nil =>
    obtain ⟨n, rfl⟩ : ∃ k, n = k + 1 := ⟨n - 1, by simp at hn; omega⟩
    exact ⟨out, loop_done rfl n, by simp⟩
  | cons p ps ih =>
    rw [List.length_cons] at hn
    obtain ⟨n, rfl⟩ : ∃ k, n = k + 1 := ⟨n - 1, by omega⟩
    obtain ⟨numbuf', calls, hbody, hbytes⟩ := printfBody_piece p
      (ps.flatMap Piece.spelled ++ [0]) (ps.flatMap Piece.args) numbuf out
    obtain ⟨all, hall, hprinted⟩ := ih (show ps.length < n by omega) numbuf' (out ++ calls)
    refine ⟨all, ?_, ?_⟩
    · rw [List.flatMap_cons, List.flatMap_cons, List.append_assoc, loop_next hbody, hall]
    · rw [hprinted, List.flatMap_append, hbytes, List.flatMap_cons, List.append_assoc]

/-- **Whole formats** print their pieces one after the other. -/
theorem terminalPrintf_pieces (ps : List Piece) :
    ∃ calls, terminalPrintf (ps.flatMap Piece.spelled ++ [0]) (ps.flatMap Piece.args) =
        some (.ok calls) ∧ calls.flatMap TerminalCall.bytes = ps.flatMap Piece.bytes := by
  have hlen : ps.length ≤ (ps.flatMap Piece.spelled).length := by
    induction ps with
    | nil => exact Nat.le_refl 0
    | cons p ps ih =>
      have hpos : 0 < p.spelled.length := by
        cases p with
        | char c hc => exact Nat.one_pos
        | field v k => exact Nat.succ_pos _
      rw [List.flatMap_cons, List.length_append, List.length_cons]
      omega
  exact loop_pieces ps (by rw [List.length_append, List.length_singleton]; omega) _ []

/-! ## The promises of the buffers and the widths -/

/-- **Widths.**  In every state of the loop, on any reachable terminal, a conversion comes back and
prints its text in a field of the width, padded on one side, exactly if it is not left-justified
with zeros and room left, the length of the text is an `int` (or, taken as one, leaves no room),
and the tabs of the text fit behind its blanks; and no format is read behind its NUL. -/
theorem printf_padded_iff (v : Conversion) (k : Field) {t : Terminal} (ht : terminalMachine.Reach t) :
    (∀ (fmt : List UInt8) (args : List VaArg) (numbuf : Chars 32) (out : List TerminalCall),
      ∃ numbuf' calls, printfBody ⟨v.spelled k.letter ++ fmt, k.arg :: args, numbuf, out⟩ =
          .inl ⟨fmt, args, numbuf', out ++ calls⟩ ∧
        (CallsReturn t calls ∧ PaddedOnOneSide v.columns k.unpadded (printedText calls) ↔
          ¬(v.leftJustify ∧ k.zeros v.zeroPad ∧ k.unpadded.length < v.columns) ∧
            (k.unpadded.length < 2 ^ 31 ∨ v.columns ≤ i32 k.unpadded.length) ∧
            TabsFit t.grid.pos (v.indented k))) ∧
      ∀ (fmt : List UInt8) (args : List VaArg), 0 ∉ fmt →
        ∃ r, terminalPrintf (fmt ++ [0]) args = some r ∧ r ≠ .error .read := by
  constructor
  · intro fmt args numbuf out
    obtain ⟨numbuf', s, hbody, hstr⟩ := printfBody_conversion v k fmt args numbuf out
    have hd := printfField_displays (k.zeros v.zeroPad) v.leftJustify v.columns s
    rw [hstr] at hd
    have hwidth := fieldBytes_padded_iff (le_numeralDigits (Int.le_refl 0) v.width) v.fits
      (k.zeros v.zeroPad) v.leftJustify k.unpadded
    refine ⟨numbuf', _, hbody, ?_⟩
    rw [hd.return_iff ht, hd.text_eq]
    constructor
    · rintro ⟨htabs, hpadded⟩
      obtain ⟨hflags, hlen⟩ := hwidth.mp hpadded
      exact ⟨hflags, hlen, (fieldBytes_tabsFit v hlen _).mp htabs⟩
    · rintro ⟨hflags, hlen, htabs⟩
      exact ⟨(fieldBytes_tabsFit v hlen _).mpr htabs, hwidth.mpr ⟨hflags, hlen⟩⟩
  · intro fmt args h0
    obtain ⟨r, hr, hcont⟩ := terminalPrintf_returns h0 args
    exact ⟨r, hr, hcont.ne (by decide)⟩

/-- `%05d` and `%-05d`. -/
def zeroPadded (leftJustify : Bool) : Conversion where
  leftJustify
  zeroPad := true
  width := text "5"
  digits := forall_of_all (by decide)
  flagged := nofun
  fits := by decide

/-- `%6s`. -/
def sixColumns : Conversion where
  leftJustify := false
  zeroPad := false
  width := text "6"
  digits := forall_of_all (by decide)
  flagged := by decide
  fits := by decide

theorem printf_padded_iff_6s :
    (∃ numbuf calls, printfBody ⟨text "%6s" ++ [0], [.string (some (text "a\tb"))],
          Chars.uninit 32, []⟩ = .inl ⟨[0], [], numbuf, calls⟩ ∧ CallsReturn (terminalAtCol 60) calls ∧
      PaddedOnOneSide 6 (text "a\tb") (printedText calls)) ∧
      ∃ r, terminalPrintf (text "%-0" ++ [0]) [] = some r ∧ r ≠ .error .read := by
  obtain ⟨hfields, hend⟩ := printf_padded_iff sixColumns (.s (some (text "a\tb")))
    (terminalAtCol_reach 60)
  obtain ⟨numbuf, calls, hbody, hiff⟩ := hfields [0] [] (Chars.uninit 32) []
  have hcolumns : sixColumns.columns = 6 := by decide
  have hunpadded : Field.unpadded (.s (some (text "a\tb"))) = text "a\tb" := by decide
  rw [hcolumns, hunpadded] at hiff
  refine ⟨⟨numbuf, calls, hbody, hiff.mpr ?_⟩, hend (text "%-0") [] (by decide)⟩
  exact ⟨fun h => absurd h.1 (by decide), .inl (by decide), by decide⟩

/-- Zeros before the number and blanks behind it: nine characters for the width 5. -/
theorem printf_not_padded :
    (∃ calls, terminalPrintf (text "%-05d" ++ [0]) [.word 7] = some (.ok calls) ∧
      calls.flatMap TerminalCall.bytes = text "00007    ") ∧
      ¬ PaddedOnOneSide 5 (text "7") (text "00007    ") := by
  constructor
  · obtain ⟨calls, hprintf, hbytes⟩ := terminalPrintf_pieces [.field (zeroPadded true) (.d 7)]
    have hprinted : [Piece.field (zeroPadded true) (.d 7)].flatMap Piece.bytes =
        text "00007    " := by decide
    exact ⟨calls, hprintf, by rw [hbytes, hprinted]⟩
  · rintro ⟨hlen, _⟩
    exact absurd hlen (by decide)

/-- **Round trip.**  `atoi` reads back the string `itoa` leaves, which has at most 11 characters
and fits `tmp` and a buffer of 12; and no call of `terminal_printf` stores outside of `numbuf`. -/
theorem atoi_itoaBuf {n : Nat} (v : Int32) (hn : 12 ≤ n) (buf : Chars n) :
    (∃ b, itoaBuf v.toInt buf 10 = some b ∧ (str b.bytes).length ≤ 11 ∧ atoi b.bytes = v.toInt) ∧
      ∀ (fmt : List UInt8) (args : List VaArg), 0 ∉ fmt →
        ∃ r, terminalPrintf (fmt ++ [0]) args = some r ∧ r ≠ .error .store := by
  constructor
  · obtain ⟨b, hb, hstr, hlen, hread⟩ := itoaBuf_spec v.le_toInt v.toInt_lt hn buf
    exact ⟨b, hb, by rw [hstr]; exact hlen, hread⟩
  · intro fmt args h0
    obtain ⟨r, hr, hcont⟩ := terminalPrintf_returns h0 args
    exact ⟨r, hr, hcont.ne (by decide)⟩

theorem atoi_itoaBuf_min :
    (∃ b, itoaBuf (-2147483648) (Chars.uninit 12) 10 = some b ∧ atoi b.bytes = -2147483648) ∧
      ∃ r, terminalPrintf (text "%d" ++ [0]) [.word 0x80000000] = some r ∧ r ≠ .error .store := by
  obtain ⟨⟨b, hb, _, hread⟩, hprintf⟩ := atoi_itoaBuf Int32.minValue (by decide) (Chars.uninit 12)
  exact ⟨⟨b, hb, hread⟩, hprintf (text "%d") [.word 0x80000000] (by decide)⟩

end MiniOS
