import MiniOS.Lib.LineBuffer
import MiniOS.Lib.TextLines
import MiniOS.Shell.ViewNames

/-!
# What the line views show

The loops of `hunt`, `top` and `btm` cut the buffer at each `\n` in turn and put
it back (`lineLoop_lines`), so what they show are the lines of the contents
(`textLines`) with their numbers, where the tabs of these lines fit on the
terminal:

* `line_views_iff`: `top` the first, `btm` the last, as many as asked for, and
  `cnt` how many there are;
* `hunt_lines_iff`: `hunt` those with the word in them.

A line with a tab at column 72 never comes to its end (`top_hangs`, `hunt_hangs`).
-/

namespace MiniOS

open Lib

/-! ## The loop -/

/-- What is printed of a line depends on the string only. -/
def ShowsStr (shown : Nat → List UInt8 → List TerminalCall) : Prop :=
  ∀ line s, shown line s = shown line (str s)

section

variable {goes : Nat → Bool} {shown : Nat → List UInt8 → List TerminalCall} {w : LineWalk}
variable {d x t : List UInt8}

/-- The characters of a line are passed over. -/
theorem lineLoop_pass (h0 : 0 ∉ x) (hn : ch '\n' ∉ x) (hgo : goes w.line)
    (hbytes : w.buf.bytes = d ++ x ++ t) (hp : w.p = d.length) (fuel : Nat) :
    loop (lineBody goes shown) (fuel + x.length) w =
      loop (lineBody goes shown) fuel { w with p := w.p + x.length } := by
  induction x generalizing w d with
  | nil => rfl
  | cons c x ih =>
    rw [List.mem_cons, not_or] at h0 hn
    have hget : w.buf.get w.p = c := by
      rw [hp]
      exact Chars.get_at (u := d) (t := x ++ t) (by rw [hbytes, List.append_assoc, List.cons_append])
    have hbody : lineBody goes shown w = .inl { w with p := w.p + 1 } := by
      unfold lineBody
      rw [hget, if_pos ⟨Ne.symm h0.1, hgo⟩, if_neg (Ne.symm hn.1)]
    rw [List.length_cons, show fuel + (x.length + 1) = fuel + x.length + 1 by omega,
      loop_next hbody]
    have hrest := ih (w := { w with p := w.p + 1 }) (d := d ++ [c]) h0.2 hn.2 hgo
      (by rw [hbytes, List.append_cons])
      (by rw [List.length_append, List.length_singleton, hp])
    rw [hrest]
    show loop _ fuel { w with p := w.p + 1 + x.length } = loop _ fuel { w with p := w.p + (x.length + 1) }
    rw [show w.p + 1 + x.length = w.p + (x.length + 1) by omega]

/-- A whole line is shown, and the buffer is as it was. -/
theorem lineLoop_line (hshown : ShowsStr shown) (h0 : 0 ∉ x) (hn : ch '\n' ∉ x) (hgo : goes w.line)
    (hbytes : w.buf.bytes = d ++ x ++ ch '\n' :: t) (hp : w.p = d.length) (hstart : w.start = d.length)
    (fuel : Nat) :
    loop (lineBody goes shown) (fuel + (x.length + 1)) w =
      loop (lineBody goes shown) fuel ⟨w.buf, d.length + x.length + 1, d.length + x.length + 1,
        w.line + 1, w.out ++ shown w.line x⟩ := by
  rw [show fuel + (x.length + 1) = fuel + 1 + x.length by omega,
    lineLoop_pass h0 hn hgo hbytes hp]
  have hget := Chars.get_at (u := d ++ x) hbytes
  obtain ⟨cut, hcut, hcb⟩ := Chars.put_at (u := d ++ x) hbytes 0
  obtain ⟨back, hback, hbb⟩ := Chars.put_at (u := d ++ x) hcb (ch '\n')
  have hsame : back = w.buf := Chars.ext (by rw [hbb, hbytes])
  rw [List.length_append] at hget hcut hback
  have hline : shown w.line (cut.bytes.drop d.length) = shown w.line x := by
    rw [hshown, hcb, List.append_assoc, List.drop_left, str_append_zero h0]
  apply loop_next
  unfold lineBody
  rw [hp, hstart, hget, if_pos ⟨by decide, hgo⟩, if_pos rfl]
  simp only [hcut, hback, hsame, hline]

theorem lineBody_done (h : w.buf.get w.p = 0 ∨ goes w.line = false) :
    lineBody goes shown w = .inr (some w) := by
  unfold lineBody
  rw [if_neg]
  rintro ⟨hget, hgo⟩
  rcases h with h | h
  · exact hget h
  · rw [h] at hgo
    cases hgo

/-- At the last line the loop goes at most to the NUL. -/
theorem lineLoop_last (h0 : 0 ∉ x) (hn : ch '\n' ∉ x) (hbytes : w.buf.bytes = d ++ x ++ 0 :: t)
    (hp : w.p = d.length) {fuel : Nat} (hfuel : x.length < fuel) :
    ∃ p, loop (lineBody goes shown) fuel w = some (some { w with p := p }) := by
  by_cases hgo : goes w.line
  · obtain ⟨k, rfl⟩ : ∃ k, fuel = k + 1 + x.length := ⟨fuel - x.length - 1, by omega⟩
    have hget : w.buf.get (w.p + x.length) = 0 := by
      rw [hp, ← List.length_append]
      exact Chars.get_at hbytes
    refine ⟨w.p + x.length, ?_⟩
    rw [lineLoop_pass h0 hn hgo hbytes hp]
    exact loop_done (lineBody_done (.inl hget)) k
  · obtain ⟨k, rfl⟩ : ∃ k, fuel = k + 1 := ⟨fuel - 1, by omega⟩
    exact ⟨w.p, loop_done (lineBody_done (.inr (Bool.not_eq_true _ ▸ hgo))) k⟩

variable {ls : List (List UInt8)} {rest : List UInt8} {n : Nat}

/-- **The loop.**  It shows the first `n` lines and stops at the start of the
next one, or at the end of the text. -/
theorem lineLoop_lines (hshown : ShowsStr shown) (h0 : 0 ∉ terminated (ch '\n') ls ++ rest)
    (hls : ∀ l ∈ ls, ch '\n' ∉ l) (hrest : ch '\n' ∉ rest) (hn : n ≤ ls.length)
    (hgo : ∀ i, i < n → goes (w.line + i))
    (hstop : goes (w.line + n) = false ∨ n = ls.length)
    (hbytes : w.buf.bytes = d ++ (terminated (ch '\n') ls ++ rest) ++ 0 :: t) (hp : w.p = d.length)
    (hstart : w.start = d.length) {fuel : Nat}
    (hfuel : (terminated (ch '\n') ls ++ rest).length < fuel) :
    ∃ w', loop (lineBody goes shown) fuel w = some (some w') ∧ w'.buf = w.buf ∧
      w'.line = w.line + n ∧ w'.out = w.out ++ numbered shown w.line (ls.take n) ∧
      str (w'.buf.bytes.drop w'.start) = terminated (ch '\n') (ls.drop n) ++ rest := by
  obtain ⟨fuel, rfl⟩ : ∃ k, fuel = k + 1 := ⟨fuel - 1, by omega⟩
  induction ls generalizing w d n fuel with
  | nil =>
    obtain rfl : n = 0 := Nat.le_zero.mp hn
    rw [terminated_nil, List.nil_append] at h0 hbytes hfuel
    obtain ⟨p, hw⟩ := lineLoop_last h0 hrest hbytes hp hfuel
    refine ⟨_, hw, rfl, rfl, ?_, ?_⟩
    · rw [List.take_zero, numbered_nil, List.append_nil]
    · rw [hbytes, hstart, List.append_assoc, List.drop_left]
      exact str_append_zero h0 t
  | cons l ls ih =>
    obtain ⟨hln, hls⟩ := List.forall_mem_cons.mp hls
    have hl0 : 0 ∉ l := (not_mem_of_terminated h0).1 l List.mem_cons_self
    cases n with
    | zero =>
      have hgoes : goes w.line = false := by
        rcases hstop with h | h
        · exact h
        · cases h
      refine ⟨w, loop_done (lineBody_done (.inr hgoes)) _, rfl, rfl, ?_, ?_⟩
      · rw [List.take_zero, numbered_nil, List.append_nil]
      · rw [hbytes, hstart, List.append_assoc, List.drop_left, str_append_zero h0, List.drop_zero]
    | succ n =>
      rw [terminated_cons_append] at h0 hbytes hfuel
      rw [List.mem_append, List.mem_cons, not_or, not_or] at h0
      rw [List.length_append, List.length_cons] at hfuel
      obtain ⟨k, rfl⟩ : ∃ k, fuel = k + (l.length + 1) := ⟨fuel - (l.length + 1), by omega⟩
      have hline := lineLoop_line (x := l) (t := terminated (ch '\n') ls ++ rest ++ 0 :: t) hshown hl0
        hln (hgo 0 (Nat.zero_lt_succ n))
        (by rw [hbytes]; simp only [List.append_assoc, List.cons_append]) hp hstart (k + 1)
      have hd : d.length + l.length + 1 = (d ++ (l ++ [ch '\n'])).length := by
        rw [List.length_append, List.length_append, List.length_singleton]
        omega
      obtain ⟨w', hw, hbuf, hnum, hout, hstr⟩ := ih
        (w := ⟨w.buf, d.length + l.length + 1, d.length + l.length + 1, w.line + 1,
          w.out ++ shown w.line l⟩) (d := d ++ (l ++ [ch '\n'])) (n := n) h0.2.2
        hls (Nat.le_of_succ_le_succ hn)
        (fun i hi => by
          have := hgo (i + 1) (Nat.succ_lt_succ hi)
          rwa [show w.line + (i + 1) = w.line + 1 + i by omega] at this)
        (by
          rw [show w.line + (n + 1) = w.line + 1 + n by omega] at hstop
          rcases hstop with h | h
          · exact .inl h
          · exact .inr (Nat.succ.inj h))
        (by rw [hbytes]; simp only [List.append_assoc, List.cons_append, List.nil_append])
        hd hd k (by omega)
      refine ⟨w', ?_, hbuf, ?_, ?_, hstr⟩
      · rw [show k + (l.length + 1) + 1 = k + 1 + (l.length + 1) by omega, hline]
        exact hw
      · rw [hnum]
        show w.line + 1 + n = w.line + (n + 1)
        omega
      · rw [hout, List.take_succ_cons, numbered_cons, List.append_assoc]

end

/-! ## The views -/

section

variable {buf : Chars (fsMaxFilesize + 1)} {bytes t : List UInt8}
variable {shown : Nat → List UInt8 → List TerminalCall} {ls : List (List UInt8)} {rest : List UInt8}

theorem lineLoop_text (goes : Nat → Bool) (hshown : ShowsStr shown)
    (h0 : 0 ∉ terminated (ch '\n') ls ++ rest) (hls : ∀ l ∈ ls, ch '\n' ∉ l) (hrest : ch '\n' ∉ rest)
    (hbuf : buf.bytes = (terminated (ch '\n') ls ++ rest) ++ 0 :: t) {n : Nat} (hn : n ≤ ls.length)
    (hgo : ∀ i, i < n → goes (1 + i)) (hstop : goes (1 + n) = false ∨ n = ls.length) :
    ∃ w, lineLoop goes shown buf = some w ∧ w.buf = buf ∧ w.line = 1 + n ∧
      w.out = numbered shown 1 (ls.take n) ∧
      str (w.buf.bytes.drop w.start) = terminated (ch '\n') (ls.drop n) ++ rest := by
  have hlen := buf.length_eq
  rw [hbuf, List.length_append, List.length_cons] at hlen
  obtain ⟨w, hw, hsame, hline, hout, hstr⟩ := lineLoop_lines (w := ⟨buf, 0, 0, 1, []⟩) (d := [])
    hshown h0 hls hrest hn hgo hstop hbuf rfl rfl
    (show (terminated (ch '\n') ls ++ rest).length < fsMaxFilesize + 2 by omega)
  refine ⟨w, ?_, hsame, hline, ?_, hstr⟩
  · unfold lineLoop
    rw [hw]
    rfl
  · rw [hout, List.nil_append]

/-- A loop that goes on to the end stops with the rest to be shown. -/
theorem lineLoop_whole (goes : Nat → Bool) (hshown : ShowsStr shown)
    (h0 : 0 ∉ terminated (ch '\n') ls ++ rest) (hls : ∀ l ∈ ls, ch '\n' ∉ l) (hrest : ch '\n' ∉ rest)
    (hbuf : buf.bytes = (terminated (ch '\n') ls ++ rest) ++ 0 :: t)
    (hgo : ∀ i, i < ls.length → goes (1 + i)) :
    ∃ w, lineLoop goes shown buf = some w ∧ w.buf = buf ∧ w.line = 1 + ls.length ∧
      w.out = numbered shown 1 ls ∧ str (w.buf.bytes.drop w.start) = rest := by
  obtain ⟨w, hw, hsame, hline, hout, hstr⟩ := lineLoop_text goes hshown h0 hls hrest hbuf
    (Nat.le_refl ls.length) hgo (.inr rfl)
  rw [List.take_length] at hout
  rw [List.drop_length, terminated_nil, List.nil_append] at hstr
  exact ⟨w, hw, hsame, hline, hout, hstr⟩

theorem printLine_showsStr : ShowsStr printLine := by
  intro line s
  unfold printLine
  rw [str_of_not_mem (zero_not_mem_str s)]

theorem ShowsStr.eq (hshown : ShowsStr shown) {line : Nat} {s u : List UInt8} (hs : str s = u) :
    shown line s = shown line u := by
  rw [hshown line s, hs]

/-- What is shown behind the loop is the rest, unless there is none. -/
theorem numbered_textLines (hls : ∀ l ∈ ls, ch '\n' ∉ l) (hrest : ch '\n' ∉ rest) (k : Nat) :
    numbered shown k (textLines (ch '\n') (terminated (ch '\n') ls ++ rest)) =
      numbered shown k ls ++ if rest = [] then [] else shown (k + ls.length) rest := by
  rw [textLines_terminated hls hrest, numbered_append]
  split
  · rw [numbered_nil]
  · rw [numbered_singleton]

/-- `top n` shows the first `n` lines. -/
theorem topView_eq (h0 : 0 ∉ bytes) (hbuf : buf.bytes = bytes ++ 0 :: t) (n : Nat) :
    topView n buf = some (numbered printLine 1 ((textLines (ch '\n') bytes).take n)) := by
  obtain ⟨ls, rest, rfl, hls, hrest⟩ := exists_lines (ch '\n') bytes
  unfold topView
  by_cases hn : n ≤ ls.length
  · obtain ⟨w, hw, _, hline, hout, _⟩ := lineLoop_text
      (fun line => decide ((line : Int) ≤ n)) printLine_showsStr h0 hls hrest hbuf hn
      (fun i hi => decide_eq_true (by omega)) (.inl (decide_eq_false (by omega)))
    simp only [hw, Option.bind_eq_bind, Option.bind_some, hline, hout]
    rw [if_neg (by omega), List.append_nil, textLines_terminated hls hrest,
      List.take_append_of_le_length hn]
  · obtain ⟨w, hw, _, hline, hout, hstr⟩ := lineLoop_whole
      (fun line => decide ((line : Int) ≤ n)) printLine_showsStr h0 hls hrest hbuf
      (fun i hi => decide_eq_true (by omega))
    have hall : (textLines (ch '\n') (terminated (ch '\n') ls ++ rest)).take n =
        textLines (ch '\n') (terminated (ch '\n') ls ++ rest) := by
      apply List.take_of_length_le
      rw [textLines_terminated hls hrest, List.length_append]
      split
      · rw [List.length_nil]
        omega
      · rw [List.length_singleton]
        omega
    simp only [hw, Option.bind_eq_bind, Option.bind_some, hline, hout]
    rw [hall, numbered_textLines hls hrest]
    by_cases hr : rest = []
    · rw [if_pos hr, if_neg]
      rintro ⟨hhead, _⟩
      exact hhead ((str_eq_nil_iff _).mp (hstr.trans hr))
    · rw [if_neg hr, if_pos, printLine_showsStr.eq hstr]
      refine ⟨?_, by omega⟩
      rw [Ne, ← str_eq_nil_iff, hstr]
      exact hr

theorem totalLines_eq (h0 : 0 ∉ bytes) (hbuf : buf.bytes = bytes ++ 0 :: t) :
    totalLines buf.bytes = (textLines (ch '\n') bytes).length := by
  unfold totalLines
  rw [length_textLines, hbuf, str_append_zero h0]

/-- `btm n` shows the last `n` lines. -/
theorem btmView_eq (h0 : 0 ∉ bytes) (hbuf : buf.bytes = bytes ++ 0 :: t) {n : Nat} (hn : n < 2 ^ 31) :
    btmView n buf = some (numbered printLine (1 + ((textLines (ch '\n') bytes).length - n))
      ((textLines (ch '\n') bytes).drop ((textLines (ch '\n') bytes).length - n))) := by
  have hlen : bytes.length ≤ 256 := by
    have hlen := buf.length_eq
    rw [hbuf, List.length_append, List.length_cons] at hlen
    have : fsMaxFilesize = 256 := rfl
    omega
  have hle := length_textLines_le (ch '\n') bytes
  unfold btmView
  rw [totalLines_eq h0 hbuf]
  generalize hL : (textLines (ch '\n') bytes).length = L at hle
  have hstart : (if i32 ((L : Int) - n + 1) < 1 then 1 else i32 ((L : Int) - n + 1)) =
      ((L - n + 1 : Nat) : Int) := by
    rw [i32_of_lt (by omega) (by omega)]
    split
    · omega
    · omega
  simp only [hstart, ge_iff_le, Int.ofNat_le]
  obtain ⟨ls, rest, rfl, hls, hrest⟩ := exists_lines (ch '\n') bytes
  have hshown : ShowsStr fun line s => if L - n + 1 ≤ line then printLine line s else [] := by
    intro line s
    show (if _ then printLine line s else []) = if _ then printLine line (str s) else []
    rw [printLine_showsStr line s]
  obtain ⟨w, hw, _, hline, hout, hstr⟩ := lineLoop_whole (fun _ => true) hshown h0 hls hrest hbuf
    fun _ _ => rfl
  have hfrom := numbered_from printLine 1 (L - n + 1)
    (textLines (ch '\n') (terminated (ch '\n') ls ++ rest))
  rw [Nat.add_sub_cancel, numbered_textLines hls hrest] at hfrom
  simp only [hw, Option.bind_eq_bind, Option.bind_some, hline, hout]
  rw [← hfrom]
  by_cases hr : rest = []
  · rw [if_pos hr, if_neg (fun hhead => hhead ((str_eq_nil_iff _).mp (hstr.trans hr)))]
  · rw [if_neg hr, if_pos, printLine_showsStr.eq hstr]
    rw [Ne, ← str_eq_nil_iff, hstr]
    exact hr

/-- What separates words. -/
def isBlank (c : UInt8) : Bool := c = ch ' ' ∨ c = ch '\n' ∨ c = ch '\t'

theorem cntByte_fold (bytes : List UInt8) (lines words : Nat) (inWord : Bool) :
    (bytes.foldl cntByte (lines, words, inWord)).1 = lines + bytes.count (ch '\n') ∧
      (bytes.foldl cntByte (lines, words, inWord)).2.1 =
        words + if inWord then wordCountInside isBlank bytes else wordCount isBlank bytes := by
  induction bytes generalizing lines words inWord with
  | nil =>
    refine ⟨rfl, ?_⟩
    cases inWord with
    | false => rfl
    | true => rfl
  | cons c bytes ih =>
    have hlines : (if c = ch '\n' then lines + 1 else lines) + bytes.count (ch '\n') =
        lines + (c :: bytes).count (ch '\n') := by
      rw [List.count_cons]
      by_cases hc : c = ch '\n'
      · rw [if_pos hc, if_pos (beq_iff_eq.mpr hc)]
        omega
      · rw [if_neg hc, if_neg (fun h => hc (beq_iff_eq.mp h))]
        rfl
    rw [List.foldl_cons]
    by_cases hblank : c = ch ' ' ∨ c = ch '\n' ∨ c = ch '\t'
    · have hb : isBlank c = true := decide_eq_true hblank
      have hstep : cntByte (lines, words, inWord) c =
          (if c = ch '\n' then lines + 1 else lines, words, false) := if_pos hblank
      rw [hstep, (ih _ _ _).1, (ih _ _ _).2, hlines, wordCount_blank hb, wordCountInside_blank hb]
      refine ⟨rfl, ?_⟩
      cases inWord with
      | false => rfl
      | true => rfl
    · have hb : ¬ isBlank c = true := fun h => hblank (of_decide_eq_true h)
      cases inWord with
      | true =>
        have hstep : cntByte (lines, words, true) c =
            (if c = ch '\n' then lines + 1 else lines, words, true) :=
          (if_neg hblank).trans (if_pos rfl)
        rw [hstep, (ih _ _ _).1, (ih _ _ _).2, hlines, wordCountInside_cons hb]
        exact ⟨rfl, rfl⟩
      | false =>
        have hstep : cntByte (lines, words, false) c =
            (if c = ch '\n' then lines + 1 else lines, words + 1, true) :=
          (if_neg hblank).trans (if_neg Bool.false_ne_true)
        rw [hstep, (ih _ _ _).1, (ih _ _ _).2, hlines, wordCount_cons hb]
        refine ⟨rfl, ?_⟩
        show words + 1 + wordCountInside isBlank bytes = words + (wordCountInside isBlank bytes + 1)
        omega

/-- `cnt` counts the lines, the words and the bytes. -/
theorem cntShown_eq (hbuf : buf.bytes = bytes ++ 0 :: t) :
    cntShown (bytes.length : Int) buf =
      say (text "Lines : " ++ decimal (textLines (ch '\n') bytes).length ++ text "\nWords : " ++
        decimal (wordCount isBlank bytes) ++ text "\nBytes : " ++ decimal bytes.length ++
        text "\n") := by
  obtain ⟨hlines, hwords⟩ := cntByte_fold bytes 0 0 false
  rw [Nat.zero_add] at hlines hwords
  have hlast : (if (bytes.length : Int) > 0 ∧ buf.get (bytes.length - 1) ≠ ch '\n' then
      bytes.count (ch '\n') + 1 else bytes.count (ch '\n')) = (textLines (ch '\n') bytes).length := by
    rw [length_textLines]
    rcases List.eq_nil_or_concat bytes with rfl | ⟨front, c, rfl⟩
    · rfl
    · rw [List.concat_eq_append] at hbuf ⊢
      have hget := Chars.get_at (u := front) (x := c) (t := 0 :: t)
        (by rw [hbuf, List.append_assoc, List.singleton_append])
      have hlen : (front ++ [c]).length = front.length + 1 := List.length_append
      rw [hlen, Nat.add_sub_cancel, hget, List.getLast?_concat, Option.any_some]
      by_cases hc : c = ch '\n'
      · rw [if_neg (fun h => h.2 hc), if_neg (fun h => absurd hc (of_decide_eq_true h))]
        rfl
      · rw [if_pos ⟨by omega, hc⟩, if_pos (decide_eq_true hc)]
  rcases hfold : bytes.foldl cntByte (0, 0, false) with ⟨lines, words, inWord⟩
  rw [hfold] at hlines hwords
  have hlines' : lines = bytes.count (ch '\n') := hlines
  have hwords' : words = wordCount isBlank bytes := hwords
  unfold cntShown
  simp only [Int.toNat_natCast, hbuf, List.take_left, hfold, hlines', hwords', hlast]

end

/-! ## `mini_strstr` -/

section

variable {needle : List UInt8}

theorem strstrMatch_iff (hay needle : List UInt8) :
    (strstrMatch hay needle).headD 0 = 0 ↔ str needle <+: str hay := by
  induction hay generalizing needle with
  | nil =>
    cases needle with
    | nil => exact iff_of_true rfl (List.prefix_refl _)
    | cons n ns =>
      show n = 0 ↔ _
      rw [str_nil, List.prefix_nil, str_eq_nil_iff]
      rfl
  | cons h hay ih =>
    cases needle with
    | nil => exact iff_of_true rfl List.nil_prefix
    | cons n ns =>
      rw [strstrMatch]
      by_cases hn : n = 0
      · rw [if_neg (fun hcond => hcond.2.1 hn), hn, str_zero]
        exact iff_of_true rfl List.nil_prefix
      · by_cases hh : h = 0
        · rw [if_neg (fun hcond => hcond.1 hh), hh, str_zero, List.prefix_nil, str_eq_nil_iff]
        · rw [str_cons hn, str_cons hh, List.cons_prefix_cons]
          by_cases heq : h = n
          · rw [if_pos ⟨hh, hn, heq⟩, ih]
            exact ⟨fun hp => ⟨heq.symm, hp⟩, And.right⟩
          · rw [if_neg (fun hcond => heq hcond.2.2)]
            exact iff_of_false hn fun hp => heq hp.1.symm

theorem strstrLoop_spec (hay : List UInt8) (hneedle : str needle ≠ []) (i : Nat) :
    (strstrLoop needle i hay = none ∧ ¬ str needle <:+: str hay) ∨
      ∃ j, strstrLoop needle i hay = some (i + j) ∧ FirstAt (str needle) (str hay) j := by
  induction hay generalizing i with
  | nil => exact .inl ⟨rfl, fun h => hneedle (List.infix_nil.mp h)⟩
  | cons h hay ih =>
    rw [strstrLoop]
    by_cases hh : h = 0
    · rw [if_pos hh, hh, str_zero]
      exact .inl ⟨rfl, fun h => hneedle (List.infix_nil.mp h)⟩
    · rw [if_neg hh]
      by_cases hmatch : str needle <+: str (h :: hay)
      · rw [if_pos ((strstrMatch_iff _ _).mpr hmatch)]
        exact .inr ⟨0, rfl, firstAt_zero.mpr hmatch⟩
      · rw [if_neg (fun hc => hmatch ((strstrMatch_iff _ _).mp hc))]
        rw [str_cons hh] at hmatch ⊢
        rcases ih (i + 1) with ⟨hnone, hno⟩ | ⟨j, hsome, hfirst⟩
        · refine .inl ⟨hnone, ?_⟩
          rw [List.infix_cons_iff]
          rintro (hp | hi)
          · exact hmatch hp
          · exact hno hi
        · refine .inr ⟨j + 1, ?_, hfirst.cons hmatch⟩
          rw [hsome, show i + 1 + j = i + (j + 1) by omega]

/-- **`mini_strstr`** finds the first occurrence, and NULL is for none. -/
theorem miniStrstr_spec (hay needle : List UInt8) :
    (miniStrstr hay needle = none ∧ ¬ str needle <:+: str hay) ∨
      ∃ i, miniStrstr hay needle = some i ∧ FirstAt (str needle) (str hay) i := by
  unfold miniStrstr
  by_cases h0 : needle.headD 0 = 0
  · rw [if_pos h0, (str_eq_nil_iff needle).mpr h0]
    exact .inr ⟨0, rfl, firstAt_zero.mpr List.nil_prefix⟩
  · rw [if_neg h0]
    rcases strstrLoop_spec hay (fun hnil => h0 ((str_eq_nil_iff needle).mp hnil)) 0 with
      h | ⟨j, hj, hfirst⟩
    · exact .inl h
    · exact .inr ⟨j, by rw [hj, Nat.zero_add], hfirst⟩

theorem miniStrstr_none_iff (hay needle : List UInt8) :
    miniStrstr hay needle = none ↔ ¬ str needle <:+: str hay := by
  rcases miniStrstr_spec hay needle with ⟨h, hno⟩ | ⟨i, h, hfirst⟩
  · exact iff_of_true h hno
  · rw [h]
    exact iff_of_false (Option.some_ne_none i) (not_not.mpr hfirst.infix)

theorem miniStrstr_some_iff (hay needle : List UInt8) (i : Nat) :
    miniStrstr hay needle = some i ↔ FirstAt (str needle) (str hay) i := by
  rcases miniStrstr_spec hay needle with ⟨h, hno⟩ | ⟨j, h, hfirst⟩
  · rw [h]
    exact iff_of_false (Option.some_ne_none i).symm fun hi => hno hi.infix
  · rw [h, Option.some_inj]
    constructor
    · rintro rfl
      exact hfirst
    · intro hi
      exact hfirst.unique hi

theorem miniStrstr_isSome_iff (hay needle : List UInt8) :
    (miniStrstr hay needle).isSome ↔ str needle <:+: str hay := by
  rw [← Option.ne_none_iff_isSome, Ne, miniStrstr_none_iff, not_not]

/-- The calls `hunt` makes for a line with the number `line`. -/
def matchShown (word : List UInt8) (line : Nat) (s : List UInt8) : List TerminalCall :=
  if word <:+: s then printQuoted line s else []

theorem huntShown_showsStr (word : List UInt8) : ShowsStr (huntShown word) := by
  intro line s
  unfold huntShown printQuoted
  simp only [miniStrstr_isSome_iff, str_of_not_mem (zero_not_mem_str s)]

theorem huntShown_eq {word s : List UInt8} (h0 : 0 ∉ s) (line : Nat) :
    huntShown word line s = matchShown (str word) line s := by
  unfold huntShown matchShown
  simp only [miniStrstr_isSome_iff, str_of_not_mem h0]

/-- `hunt` shows the lines with the word, and no more. -/
theorem huntLoop_eq {word : List UInt8} (hword : str word ≠ []) (h0 : 0 ∉ bytes)
    (hbuf : buf.bytes = bytes ++ 0 :: t) :
    ∃ w, lineLoop (fun _ => true) (huntShown word) buf = some w ∧ w.buf = buf ∧
      w.out ++ huntShown word w.line (w.buf.bytes.drop w.start) =
        numbered (matchShown (str word)) 1 (textLines (ch '\n') bytes) := by
  obtain ⟨ls, rest, rfl, hls, hrest⟩ := exists_lines (ch '\n') bytes
  obtain ⟨w, hw, hsame, hline, hout, hstr⟩ := lineLoop_whole (fun _ => true)
    (huntShown_showsStr word) h0 hls hrest hbuf fun _ _ => rfl
  refine ⟨w, hw, hsame, ?_⟩
  obtain ⟨hls0, hrest0⟩ := not_mem_of_terminated h0
  have hshown : ∀ l ∈ ls, ∀ i, huntShown word i l = matchShown (str word) i l :=
    fun l hl i => huntShown_eq (hls0 l hl) i
  rw [hout, hline, (huntShown_showsStr word).eq hstr, huntShown_eq hrest0,
    numbered_textLines hls hrest, numbered_congr hshown]
  congr 1
  split
  · rename_i hr
    unfold matchShown
    rw [hr, if_neg (fun hin => hword (List.infix_nil.mp hin))]
  · rfl

end

/-! ## What is read on the screen -/

/-- A line, as `top` and `btm` show it. -/
def numberedLine (line : Nat) (s : List UInt8) : List UInt8 :=
  text "Line " ++ decimal line ++ text ": " ++ s ++ text "\n"

/-- A line, as `hunt` shows it if the word is in it. -/
def lineWith (word : List UInt8) (line : Nat) (s : List UInt8) : List UInt8 :=
  if word <:+: s then text "Line " ++ decimal line ++ text ": \"" ++ s ++ text "\"\n" else []

theorem printLine_displays {s : List UInt8} (h0 : 0 ∉ s) (line : Nat) :
    Displays (printLine line s) (numberedLine line s) := by
  unfold printLine numberedLine
  rw [str_of_not_mem h0]
  apply displays_say
  simp only [List.mem_append, not_or]
  exact ⟨⟨⟨⟨by decide, zero_notMem_decimal line⟩, by decide⟩, h0⟩, by decide⟩

theorem matchShown_displays {s : List UInt8} (h0 : 0 ∉ s) (word : List UInt8) (line : Nat) :
    Displays (matchShown word line s) (lineWith word line s) := by
  unfold matchShown lineWith printQuoted
  split
  · rw [str_of_not_mem h0]
    apply displays_say
    simp only [List.mem_append, not_or]
    exact ⟨⟨⟨⟨by decide, zero_notMem_decimal line⟩, by decide⟩, h0⟩, by decide⟩
  · exact displays_nil

theorem displays_numbered {f : Nat → List UInt8 → List TerminalCall}
    {g : Nat → List UInt8 → List UInt8} {ls : List (List UInt8)}
    (h : ∀ l ∈ ls, ∀ i, Displays (f i l) (g i l)) (k : Nat) :
    Displays (numbered f k ls) (numbered g k ls) := by
  induction ls generalizing k with
  | nil => exact displays_nil
  | cons l ls ih =>
    obtain ⟨hl, hls⟩ := List.forall_mem_cons.mp h
    exact (hl k).append (ih hls (k + 1))

/-- A text without NUL has lines without NUL. -/
theorem zero_notMem_textLines (h0 : 0 ∉ bytes) : ∀ l ∈ textLines (ch '\n') bytes, 0 ∉ l := by
  obtain ⟨ls, rest, rfl, hls, hrest⟩ := exists_lines (ch '\n') bytes
  obtain ⟨hls0, hrest0⟩ := not_mem_of_terminated h0
  rw [textLines_terminated hls hrest]
  intro l hl
  rcases List.mem_append.mp hl with hl | hl
  · exact hls0 l hl
  · split at hl
    · cases hl
    · rw [List.mem_singleton.mp hl]
      exact hrest0

/-- The command comes back on the terminal, leaves the state as it was and shows the text. -/
def Answers (s : Shell) (t : Terminal) (r : Option Shown) (txt : List UInt8) : Prop :=
  ∃ out, r = some (s, out) ∧ CallsReturn t out ∧ printedText out = txt

theorem answers_iff {s : Shell} {t : Terminal} (ht : terminalMachine.Reach t) {r : Option Shown}
    {out : List TerminalCall} {txt : List UInt8} (hr : r = some (s, out)) (hd : Displays out txt) :
    Answers s t r txt ↔ TabsFit t.grid.pos txt := by
  rw [← hd.return_iff ht]
  constructor
  · rintro ⟨out', hr', hback, _⟩
    rw [hr] at hr'
    cases hr'
    exact hback
  · exact fun hback => ⟨out, hr, hback, hd.text_eq⟩

/-! ## The commands -/

/-- `top` and `btm` come to the file `bytes` by the name `f`. -/
structure Shell.Opens (s : Shell) (f bytes : List UInt8) : Prop where
  resolves : (resolvePath s.currentDir f (Chars.uninit 64)).isSome
  file : (fsMap s.table).lookup (s.path f) = some (.file bytes)

section

variable {s : Shell} {f bytes : List UInt8}

/-- A file is read whole. -/
theorem fsRead_file (h : TableInv s.table) {name : List UInt8}
    (hl : (fsMap s.table).lookup (str name) = some (.file bytes)) :
    ∃ buf t, fsRead s.table name (Chars.uninit (fsMaxFilesize + 1)) (fsMaxFilesize + 1) =
      some ((bytes.length : Int), buf) ∧ buf.bytes = bytes ++ 0 :: t := by
  obtain ⟨n, buf, hread, hcase⟩ := fsRead_spec h name (Chars.uninit (fsMaxFilesize + 1))
    (fsMaxFilesize + 1) (by decide) (by decide) (Nat.le_refl _)
  rcases hcase with ⟨bytes', hl', hn, hbuf⟩ | ⟨hno, _⟩
  · rw [hl] at hl'
    cases hl'
    have hall : bytes.take (fsMaxFilesize + 1 - 1) = bytes :=
      List.take_of_length_le (fsMap_file_length h hl)
    rw [hall] at hn hbuf
    rw [hn] at hread
    exact ⟨buf, _, hread, hbuf⟩
  · exact absurd hl (hno bytes)

/-- The name and the count typed behind it. -/
theorem fileAndCount_numeral (hf : Token f) {n : Nat} (hn : n < 2 ^ 31) :
    ∃ file, fileAndCount (f ++ ch ' ' :: decimal n) = some (file, (n : Int)) ∧
      str file.bytes = f.take 31 := by
  have hskip : skipSpaces (f ++ ch ' ' :: decimal n) = f ++ ch ' ' :: decimal n :=
    skipSpaces_append hf.nonempty hf.space hf.headD_ne_tab _
  have hchr : strchr (f ++ ch ' ' :: decimal n) (ch ' ') = some f.length :=
    strchr_append (by decide) hf.nul hf.space _
  have hitoa : itoa n = decimal n := itoa_natCast (by omega)
  have hhead := itoa_headD n []
  rw [List.append_nil, hitoa] at hhead
  have hrest : skipSpaces ((f ++ ch ' ' :: decimal n).drop f.length) = decimal n := by
    rw [List.drop_left]
    show skipSpaces (ch ' ' :: decimal n) = decimal n
    rw [skipSpaces, if_pos (.inl rfl), skipSpaces_of_ne hhead.1 hhead.2]
  have hcount : atoi (decimal n) = n := by
    rw [← hitoa]
    exact atoi_itoa (by omega) (by omega)
  obtain ⟨c, file, hc, hfile, hs⟩ := cutName_spec hf.nul (decimal n)
  refine ⟨file, ?_, hs⟩
  unfold fileAndCount
  simp only [hskip, hchr, hrest, hcount, hc, hfile, Option.bind_eq_bind, Option.bind_some]

/-- What `top` and `btm` do with the file they come to. -/
theorem viewCmd_opens (h : TableInv s.table) (hf : Token f) (hopen : s.Opens (f.take 31) bytes)
    {n : Nat} (hn : n < 2 ^ 31) {usage : List UInt8} {out : List TerminalCall}
    {view : Int → Chars (fsMaxFilesize + 1) → Option (List TerminalCall)}
    (hview : ∀ buf t, buf.bytes = bytes ++ 0 :: t → view n buf = some out) :
    viewCmd s (f ++ ch ' ' :: decimal n) usage view = some (s, out) := by
  obtain ⟨file, hargs, hfs⟩ := fileAndCount_numeral hf hn
  have hne : file.get 0 ≠ 0 := cut_get_zero hf.nonempty hfs
  have h0 : 0 ∉ f.take 31 := fun hz => hf.nul (List.mem_of_mem_take hz)
  have hsome : (resolvePath s.currentDir file.bytes (Chars.uninit 64)).isSome := by
    have hres := hopen.resolves
    rw [resolvePath_isSome_iff] at hres ⊢
    rw [hfs, ← headD_str file.bytes, hfs]
    rwa [str_of_not_mem h0] at hres
  obtain ⟨path, hpath⟩ := Option.isSome_iff_exists.mp hsome
  have hps : str path.bytes = s.path (f.take 31) := by
    rw [resolvePath_str hpath, hfs]
    unfold Shell.path
    rw [str_of_not_mem h0]
  obtain ⟨buf, t, hread, hbuf⟩ := fsRead_file h (by rw [hps]; exact hopen.file)
  unfold viewCmd
  simp only [hargs, hpath, hread, Option.bind_eq_bind, Option.bind_some, if_neg hne,
    if_neg (show ¬ (bytes.length : Int) < 0 by omega), hview buf t hbuf]

/-- A file with the text typed to `write` comes up. -/
theorem written_reach (txt : List UInt8) (htxt : ∀ c ∈ txt, PlainKey c) (hlen : txt.length ≤ 254) :
    ∃ s, shellMachine.Reach s ∧ str s.currentDir.bytes = text "/root" ∧
      (fsMap s.table).lookup (text "/root/a.txt") = some (.file txt) := by
  obtain ⟨s, hs, hdir, hmap⟩ := new_reach (text "a.txt") (by decide) (by decide) (by decide)
    (by decide) (by decide) (by decide)
  obtain ⟨path, hpath, hps⟩ := resolvePath_spec s.currentDir (text "a.txt") (Chars.uninit 64)
    (.inr (.inr (by rw [hdir]; decide)))
  have hname : str path.bytes = text "/root/a.txt" := by
    rw [hps, hdir]
    decide
  have hsize : fsMaxFilesize = 256 := rfl
  obtain ⟨line, hline, hstr, hkeys⟩ := keyboardReadline_plain (by decide) s.textBuf txt htxt
    (by omega) []
  have hold : (fsMap s.table).lookup (str path.bytes) = some (.file []) := by
    rw [hname, hmap]
    exact Finmap.lookup_insert _
  obtain ⟨r, hr, _, hcase⟩ := fsWrite_spec (shell_reach_inv hs).table path.bytes line.val.2.bytes
    (strlen line.val.2.bytes) (by rw [line.val.2.length_eq]; exact Nat.min_le_right _ _)
  have hdata : line.val.2.bytes.take (min (strlen line.val.2.bytes) fsMaxFilesize) = txt := by
    rw [strlen_eq, hstr, Nat.min_eq_left (by omega), take_str_of_le (by rw [hstr]), hstr,
      List.take_length]
  rcases hcase with ⟨_, _, _, hrmap⟩ | ⟨hno, _⟩
  swap
  · exact absurd hold (hno [])
  rw [hname, hdata] at hrmap
  have hwrite : ∃ out, cmdWrite s (text "a.txt") (txt ++ [ch '\r']) =
      some ⟨{ s with table := r.table, textBuf := line.val.2 }, out, []⟩ := by
    unfold cmdWrite
    rw [if_neg (by decide)]
    simp only [hpath, hline, hr, hkeys, Option.bind_eq_bind, Option.bind_some]
    exact ⟨_, rfl⟩
  obtain ⟨out, hwrite⟩ := hwrite
  have hreach : shellMachine.Reach { s with table := r.table, textBuf := line.val.2 } :=
    shell_reach_run (e := ⟨.write, text "a.txt", txt ++ [ch '\r']⟩) (r := ⟨_, out, []⟩) hs
      (show (str (text "a.txt")).length ≤ 255 by decide) hwrite
  refine ⟨_, hreach, hdir, ?_⟩
  show (fsMap r.table).lookup _ = _
  rw [hrmap]
  exact Finmap.lookup_insert _

/-- What `cnt` shows. -/
def countsText (bytes : List UInt8) : List UInt8 :=
  text "Lines : " ++ decimal (textLines (ch '\n') bytes).length ++ text "\nWords : " ++
    decimal (wordCount isBlank bytes) ++ text "\nBytes : " ++ decimal bytes.length ++ text "\n"

theorem countsText_plain (bytes : List UInt8) : 0 ∉ countsText bytes ∧ ch '\t' ∉ countsText bytes := by
  have h0 := zero_notMem_decimal
  have htab := tab_notMem_decimal
  constructor
  · simp only [countsText, List.mem_append, not_or]
    exact ⟨⟨⟨⟨⟨⟨by decide, h0 _⟩, by decide⟩, h0 _⟩, by decide⟩, h0 _⟩, by decide⟩
  · simp only [countsText, List.mem_append, not_or]
    exact ⟨⟨⟨⟨⟨⟨by decide, htab _⟩, by decide⟩, htab _⟩, by decide⟩, htab _⟩, by decide⟩

section

variable (h : TableInv s.table) (h0 : 0 ∉ bytes) (hf : Token f)
variable {term : Terminal} (hterm : terminalMachine.Reach term)

include h h0 hf hterm

theorem cmdTop_answers (hopen : s.Opens (f.take 31) bytes) {n : Nat} (hn : n < 2 ^ 31) :
    Answers s term (cmdTop s (f ++ ch ' ' :: decimal n))
        (numbered numberedLine 1 ((textLines (ch '\n') bytes).take n)) ↔
      TabsFit term.grid.pos (numbered numberedLine 1 ((textLines (ch '\n') bytes).take n)) :=
  answers_iff hterm (viewCmd_opens h hf hopen hn fun _ _ hbuf => topView_eq h0 hbuf n)
    (displays_numbered (fun l hl =>
      printLine_displays (zero_notMem_textLines h0 l (List.mem_of_mem_take hl))) 1)

theorem cmdBtm_answers (hopen : s.Opens (f.take 31) bytes) {n : Nat} (hn : n < 2 ^ 31)
    {ls : List (List UInt8)} (hls : textLines (ch '\n') bytes = ls) :
    Answers s term (cmdBtm s (f ++ ch ' ' :: decimal n))
        (numbered numberedLine (1 + (ls.length - n)) (ls.drop (ls.length - n))) ↔
      TabsFit term.grid.pos
        (numbered numberedLine (1 + (ls.length - n)) (ls.drop (ls.length - n))) := by
  subst hls
  exact answers_iff hterm (viewCmd_opens h hf hopen hn fun _ _ hbuf => btmView_eq h0 hbuf hn)
    (displays_numbered (fun l hl =>
      printLine_displays (zero_notMem_textLines h0 l (List.mem_of_mem_drop hl))) _)

omit h0 hf in
theorem cmdCnt_answers {p : List UInt8} (hp : str p ≠ [])
    (hfile : (fsMap s.table).lookup (str p) = some (.file bytes)) :
    Answers s term (cmdCnt s p) (countsText bytes) := by
  obtain ⟨buf, t, hread, hbuf⟩ := fsRead_file h hfile
  have hne : ¬ p.headD 0 = 0 := fun hhead => hp ((headD_eq_zero_iff p).mp hhead)
  have hshown := cntShown_eq hbuf
  have hcnt : cmdCnt s p = some (s, say (countsText bytes)) := by
    unfold cmdCnt
    simp only [hread, Option.bind_eq_bind, Option.bind_some, if_neg hne,
      if_neg (show ¬ (bytes.length : Int) < 0 by omega)]
    exact congrArg (fun out => some (s, out)) hshown
  exact (answers_iff hterm hcnt (displays_say (countsText_plain bytes).1)).mpr
    (tabsFit_plain (countsText_plain bytes).2 _)

/-- **Lines.**  `top n` shows the first `n` lines of a file, `btm n` the last `n`, with their
numbers, `cnt` counts lines, words and bytes, and `top n` and `btm` with the number of the other
lines show each line once: exactly if the tabs of the lines shown fit. -/
theorem line_views_iff (hopen : s.Opens (f.take 31) bytes) {p : List UInt8} (hp : str p ≠ [])
    (hfile : (fsMap s.table).lookup (str p) = some (.file bytes)) {n : Nat} (hn : n < 2 ^ 31) :
    let ls := textLines (ch '\n') bytes
    let first := numbered numberedLine 1 (ls.take n)
    let last := numbered numberedLine (1 + (ls.length - n)) (ls.drop (ls.length - n))
    let others := numbered numberedLine (1 + n) (ls.drop n)
    (Answers s term (cmdTop s (f ++ ch ' ' :: decimal n)) first ∧
        Answers s term (cmdBtm s (f ++ ch ' ' :: decimal n)) last ∧
        Answers s term (cmdCnt s p) (countsText bytes) ∧
        (n ≤ ls.length → ∃ a b, Answers s term (cmdTop s (f ++ ch ' ' :: decimal n)) a ∧
          Answers s term (cmdBtm s (f ++ ch ' ' :: decimal (ls.length - n))) b ∧
          a ++ b = numbered numberedLine 1 ls)) ↔
      TabsFit term.grid.pos first ∧ TabsFit term.grid.pos last ∧
        (n ≤ ls.length → TabsFit term.grid.pos others) := by
  intro ls first last others
  have htop := cmdTop_answers h h0 hf hterm hopen hn
  have hbtm := cmdBtm_answers h h0 hf hterm hopen hn (show textLines (ch '\n') bytes = ls from rfl)
  have hcnt := cmdCnt_answers h hterm hp hfile
  have hlines : ls.length ≤ bytes.length + 1 := length_textLines_le (ch '\n') bytes
  have hbytes : bytes.length ≤ 256 := fsMap_file_length h hfile
  have hothers : n ≤ ls.length →
      (Answers s term (cmdBtm s (f ++ ch ' ' :: decimal (ls.length - n))) others ↔
        TabsFit term.grid.pos others) := by
    intro hle
    have hrest := cmdBtm_answers h h0 hf hterm hopen (show ls.length - n < 2 ^ 31 by omega)
      (show textLines (ch '\n') bytes = ls from rfl)
    rw [show ls.length - (ls.length - n) = n by omega] at hrest
    exact hrest
  have happ : n ≤ ls.length → first ++ others = numbered numberedLine 1 ls := by
    intro hle
    have happ := numbered_append numberedLine 1 (ls.take n) (ls.drop n)
    rw [List.take_append_drop, List.length_take_of_le hle] at happ
    exact happ.symm
  constructor
  · rintro ⟨ha, hb, _, hboth⟩
    refine ⟨htop.mp ha, hbtm.mp hb, fun hle => ?_⟩
    obtain ⟨a, b, ⟨out, hout, _, rfl⟩, hb', hab⟩ := hboth hle
    obtain ⟨out', hout', _, htext⟩ := ha
    rw [hout] at hout'
    cases hout'
    rw [htext, ← happ hle] at hab
    rw [List.append_cancel_left hab] at hb'
    exact (hothers hle).mp hb'
  · rintro ⟨ha, hb, hrest⟩
    exact ⟨htop.mpr ha, hbtm.mpr hb, hcnt, fun hle =>
      ⟨first, others, htop.mpr ha, (hothers hle).mpr (hrest hle), happ hle⟩⟩

end

/-- `a.txt` with this text is opened. -/
theorem written_opens (hdir : str s.currentDir.bytes = text "/root") {txt : List UInt8}
    (hfile : (fsMap s.table).lookup (text "/root/a.txt") = some (.file txt)) :
    s.Opens ((text "a.txt").take 31) txt := by
  have hpath : s.path (text "a.txt") = text "/root/a.txt" := by
    unfold Shell.path
    rw [hdir]
    decide
  refine ⟨(resolvePath_isSome_iff _ _ _).mpr (.inr (.inr (by rw [hdir]; decide))), ?_⟩
  rw [show (text "a.txt").take 31 = text "a.txt" by decide, hpath]
  exact hfile

theorem line_views_hello : ∃ s, shellMachine.Reach s ∧
    Answers s (terminalAtCol 0) (cmdTop s (text "a.txt" ++ ch ' ' :: decimal 1))
      (text "Line 1: hel\tlo\n") := by
  obtain ⟨s, hs, hdir, hfile⟩ :=
    written_reach (text "hel\tlo") (forall_of_all (by decide)) (by decide)
  have htop := ((line_views_iff (shell_reach_inv hs).table (by decide)
    ⟨by decide, by decide, by decide, by decide⟩ (terminalAtCol_reach 0) (written_opens hdir hfile)
    (p := text "/root/a.txt") (by decide) hfile (n := 1) (by decide)).mpr
      ⟨by decide, by decide, fun _ => by decide⟩).1
  exact ⟨s, hs, htop⟩

/-- 68 characters, a tab and one more: typed behind `Enter text: ` the tab is in column 0, behind
`Line 1: ` it is in column 76. -/
def tabbedLine : List UInt8 := List.replicate 68 (ch 'a') ++ text "\tb"

theorem tabbed_reach : ∃ s, shellMachine.Reach s ∧ str s.currentDir.bytes = text "/root" ∧
    (fsMap s.table).lookup (text "/root/a.txt") = some (.file tabbedLine) :=
  written_reach tabbedLine (forall_of_all (by decide)) (by decide)

/-- `top a.txt 1` prints the `a`s, and then blanks for ever. -/
theorem top_hangs : TabsFit 12 tabbedLine ∧ ∃ s out, shellMachine.Reach s ∧
    (fsMap s.table).lookup (text "/root/a.txt") = some (.file tabbedLine) ∧
    cmdTop s (text "a.txt" ++ ch ' ' :: decimal 1) = some (s, out) ∧
    ∀ fuel, runCalls fuel (terminalAtCol 0) out = none := by
  obtain ⟨s, hs, hdir, hfile⟩ := tabbed_reach
  have h0 : 0 ∉ tabbedLine := by decide +kernel
  have htop : cmdTop s (text "a.txt" ++ ch ' ' :: decimal 1) =
      some (s, numbered printLine 1 ((textLines (ch '\n') tabbedLine).take 1)) :=
    viewCmd_opens (shell_reach_inv hs).table ⟨by decide, by decide, by decide, by decide⟩
      (written_opens hdir hfile) (by decide) fun _ _ hbuf => topView_eq h0 hbuf 1
  have hd : Displays _ (numbered numberedLine 1 ((textLines (ch '\n') tabbedLine).take 1)) :=
    displays_numbered (fun l hl =>
      printLine_displays (zero_notMem_textLines h0 l (List.mem_of_mem_take hl))) 1
  exact ⟨by decide +kernel, s, _, hs, hfile, htop,
    hd.hangs (terminalAtCol_reach 0) (by decide +kernel)⟩

/-- `hunt` shows the lines with the word. -/
theorem cmdHunt_matches (h : TableInv s.table) (h0 : 0 ∉ bytes) (hf : Token f)
    (hfile : (fsMap s.table).lookup (f.take 31) = some (.file bytes)) {a : List UInt8}
    (hword : str (skipSpaces a) ≠ []) :
    cmdHunt s (f ++ ch ' ' :: a) = some (s, numbered (matchShown ((str (skipSpaces a)).take 31)) 1
      (textLines (ch '\n') bytes)) := by
  obtain ⟨file, kept, hargs, hfs, hks⟩ := twoArgs_read hf.nul hf.space hf.headD_ne_tab hf.nonempty
    hword
  obtain ⟨buf, t, hread, hbuf⟩ := fsRead_file h (by rw [hfs]; exact hfile)
  have hne : str kept.bytes ≠ [] := by
    rw [hks]
    exact cut_ne_nil hword
  obtain ⟨w, hw, _, hout⟩ := huntLoop_eq hne h0 hbuf
  unfold cmdHunt
  simp only [hargs, hread, hw, hout, hks, Option.bind_eq_bind, Option.bind_some,
    if_neg (show ¬ (bytes.length : Int) < 0 by omega)]

/-- **Search.**  `hunt` shows the lines with the word in them, exactly if their tabs fit; it leaves
the buffer as it was, and `mini_strstr` finds the first place of a word. -/
theorem hunt_lines_iff (h : TableInv s.table) (h0 : 0 ∉ bytes) (hf : Token f)
    (hfile : (fsMap s.table).lookup (f.take 31) = some (.file bytes)) {a : List UInt8}
    (hword : str (skipSpaces a) ≠ []) {term : Terminal} (hterm : terminalMachine.Reach term) :
    let word := (str (skipSpaces a)).take 31
    let found := numbered (lineWith word) 1 (textLines (ch '\n') bytes)
    (Answers s term (cmdHunt s (f ++ ch ' ' :: a)) found ∧
      (∃ file kept buf w, twoArgs (f ++ ch ' ' :: a) = some (some (file, kept)) ∧
        str kept.bytes = word ∧
        fsRead s.table file.bytes (Chars.uninit (fsMaxFilesize + 1)) (fsMaxFilesize + 1) =
          some ((bytes.length : Int), buf) ∧
        lineLoop (fun _ => true) (huntShown kept.bytes) buf = some w ∧ w.buf = buf) ∧
      ∀ hay needle, (miniStrstr hay needle = none ↔ ¬ str needle <:+: str hay) ∧
        ∀ i, miniStrstr hay needle = some i ↔ FirstAt (str needle) (str hay) i) ↔
      TabsFit term.grid.pos found := by
  intro word found
  obtain ⟨file, kept, hargs, hfs, hks⟩ := twoArgs_read hf.nul hf.space hf.headD_ne_tab hf.nonempty
    hword
  obtain ⟨buf, t, hread, hbuf⟩ := fsRead_file h (by rw [hfs]; exact hfile)
  have hne : str kept.bytes ≠ [] := by
    rw [hks]
    exact cut_ne_nil hword
  obtain ⟨w, hw, hsame, _⟩ := huntLoop_eq hne h0 hbuf
  have hshown := answers_iff hterm (cmdHunt_matches h h0 hf hfile hword)
    (displays_numbered (fun l hl => matchShown_displays (zero_notMem_textLines h0 l hl) word) 1)
  constructor
  · exact fun hall => hshown.mp hall.1
  · intro htabs
    exact ⟨hshown.mpr htabs, ⟨file, kept, buf, w, hargs, hks, hread, hw, hsame⟩, fun hay needle =>
      ⟨miniStrstr_none_iff hay needle, miniStrstr_some_iff hay needle⟩⟩

end

/-- `hunt` wants the path. -/
theorem hunt_lines_hello : ∃ s, shellMachine.Reach s ∧
    Answers s (terminalAtCol 0) (cmdHunt s (text "/root/a.txt" ++ ch ' ' :: text "l\tl"))
      (text "Line 1: \"hel\tlo\"\n") := by
  obtain ⟨s, hs, _, hfile⟩ :=
    written_reach (text "hel\tlo") (forall_of_all (by decide)) (by decide)
  have hall : (text "/root/a.txt").take 31 = text "/root/a.txt" := by decide
  have hshown := ((hunt_lines_iff (shell_reach_inv hs).table (by decide)
    ⟨by decide, by decide, by decide, by decide⟩ (hall ▸ hfile) (a := text "l\tl") (by decide)
    (terminalAtCol_reach 0)).mpr (by decide)).1
  exact ⟨s, hs, hshown⟩

/-- So does `hunt /root/a.txt b`. -/
theorem hunt_hangs : TabsFit 12 tabbedLine ∧ ∃ s out, shellMachine.Reach s ∧
    (fsMap s.table).lookup (text "/root/a.txt") = some (.file tabbedLine) ∧
    cmdHunt s (text "/root/a.txt" ++ ch ' ' :: text "b") = some (s, out) ∧
    ∀ fuel, runCalls fuel (terminalAtCol 0) out = none := by
  obtain ⟨s, hs, _, hfile⟩ := tabbed_reach
  have h0 : 0 ∉ tabbedLine := by decide +kernel
  have hall : (text "/root/a.txt").take 31 = text "/root/a.txt" := by decide
  have hhunt := cmdHunt_matches (shell_reach_inv hs).table h0
    (show Token (text "/root/a.txt") from ⟨by decide, by decide, by decide, by decide⟩)
    (hall ▸ hfile) (a := text "b") (by decide)
  have hd : Displays _ (numbered (lineWith (text "b")) 1 (textLines (ch '\n') tabbedLine)) :=
    displays_numbered (fun l hl => matchShown_displays (zero_notMem_textLines h0 l hl) _) 1
  exact ⟨by decide +kernel, s, _, hs, hfile, hhunt,
    hd.hangs (terminalAtCol_reach 0) (by decide +kernel)⟩

end MiniOS
