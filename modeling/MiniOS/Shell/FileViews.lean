import MiniOS.Memory.Numbers
import MiniOS.Shell.Commands

/-!
# `hunt`, `cnt`, `top`, `btm` (`kernel/shell.c`)

The commands that show parts of a file.  `hunt`, `top` and `btm` walk the buffer
line by line, with a NUL in the place of the `\n` while a line is looked at;
they differ in when they stop and in what they print (`lineBody`).  `none` is a
store outside of an array; what is printed comes to its end or not (`CallsReturn`).

`top` and `btm` resolve their file name; `hunt` and `cnt` take it as it is.
-/

namespace MiniOS

open Lib

/-- What is left of the needle where the inner loop of `mini_strstr` stops. -/
def strstrMatch : List UInt8 → List UInt8 → List UInt8
  | h :: hs, n :: ns => if h ≠ 0 ∧ n ≠ 0 ∧ h = n then strstrMatch hs ns else n :: ns
  | _, ns => ns

/-- The outer loop of `mini_strstr` at offset `i`. -/
def strstrLoop (needle : List UInt8) (i : Nat) : List UInt8 → Option Nat
  | [] => none
  | h :: hs =>
    if h = 0 then none
    else if (strstrMatch (h :: hs) needle).headD 0 = 0 then some i
    else strstrLoop needle (i + 1) hs

/-- The offset found, `none` for NULL. -/
def miniStrstr (haystack needle : List UInt8) : Option Nat :=
  if needle.headD 0 = 0 then some 0 else strstrLoop needle 0 haystack

/-! ## Line by line -/

/-- The buffer, `p`, `start`, the line number and what was printed. -/
structure LineWalk where
  buf : Chars (fsMaxFilesize + 1)
  p : Nat
  start : Nat
  line : Nat
  out : List TerminalCall

/-- One round of the loops over lines: `goes` is the test on the line number, `shown` what is
printed of a line. -/
def lineBody (goes : Nat → Bool) (shown : Nat → List UInt8 → List TerminalCall) (w : LineWalk) :
    LineWalk ⊕ Option LineWalk :=
  if w.buf.get w.p ≠ 0 ∧ goes w.line then
    if w.buf.get w.p = ch '\n' then
      match w.buf.put w.p 0 with
      | none => .inr none
      | some cut =>
        match cut.put w.p (ch '\n') with
        | none => .inr none
        | some buf =>
          .inl ⟨buf, w.p + 1, w.p + 1, w.line + 1, w.out ++ shown w.line (cut.bytes.drop w.start)⟩
    else .inl { w with p := w.p + 1 }
  else .inr (some w)

/-- The loop: every round moves `p`. -/
def lineLoop (goes : Nat → Bool) (shown : Nat → List UInt8 → List TerminalCall)
    (buf : Chars (fsMaxFilesize + 1)) : Option LineWalk :=
  (loop (lineBody goes shown) (fsMaxFilesize + 2) ⟨buf, 0, 0, 1, []⟩).join

/-- `"Line %d: %s\n"`. -/
def printLine (line : Nat) (s : List UInt8) : List TerminalCall :=
  say (text "Line " ++ decimal line ++ text ": " ++ str s ++ text "\n")

/-- `"Line %d: \"%s\"\n"`. -/
def printQuoted (line : Nat) (s : List UInt8) : List TerminalCall :=
  say (text "Line " ++ decimal line ++ text ": \"" ++ str s ++ text "\"\n")

def notFound (name : List UInt8) : List TerminalCall :=
  say (text "Error: file '" ++ str name ++ text "' not found.\n")

/-! ## The commands -/

/-- What `hunt` prints of a line. -/
def huntShown (word : List UInt8) (line : Nat) (s : List UInt8) : List TerminalCall :=
  if (miniStrstr s word).isSome then printQuoted line s else []

def cmdHunt (s : Shell) (arg : List UInt8) : Option Shown := do
  match ← twoArgs arg with
  | none => some (s, say (text "Usage: hunt [file] [word]\n"))
  | some (file, word) =>
    let (n, buf) ← fsRead s.table file.bytes (Chars.uninit (fsMaxFilesize + 1)) (fsMaxFilesize + 1)
    if n < 0 then some (s, notFound file.bytes)
    else
      let w ← lineLoop (fun _ => true) (huntShown word.bytes) buf
      some (s, w.out ++ huntShown word.bytes w.line (w.buf.bytes.drop w.start))

/-- `lines`, `words` and `in_word` after one more byte. -/
def cntByte (r : Nat × Nat × Bool) (c : UInt8) : Nat × Nat × Bool :=
  let (lines, words, inWord) := r
  let lines := if c = ch '\n' then lines + 1 else lines
  if c = ch ' ' ∨ c = ch '\n' ∨ c = ch '\t' then (lines, words, false)
  else if inWord then (lines, words, true)
  else (lines, words + 1, true)

def cmdCnt (s : Shell) (arg : List UInt8) : Option Shown :=
  if arg.headD 0 = 0 then some (s, say (text "Usage: cnt [file]\n"))
  else do
    let (n, buf) ← fsRead s.table arg (Chars.uninit (fsMaxFilesize + 1)) (fsMaxFilesize + 1)
    if n < 0 then some (s, notFound arg)
    else
      let (lines, words, _) := (buf.bytes.take n.toNat).foldl cntByte (0, 0, false)
      let lines := if n > 0 ∧ buf.get (n.toNat - 1) ≠ ch '\n' then lines + 1 else lines
      some (s, say (text "Lines : " ++ decimal lines ++ text "\nWords : " ++ decimal words ++
        text "\nBytes : " ++ decimal n.toNat ++ text "\n"))

/-- The file name, in 32 bytes, and the count of `top` and `btm`. -/
def fileAndCount (arg : List UInt8) : Option (Chars 32 × Int) :=
  let arg := skipSpaces arg
  match strchr arg (ch ' ') with
  | some space => do
    let len1 := if space ≥ 32 then 32 - 1 else space
    let file ← strncpy (Chars.uninit 32) 0 arg len1
    let file ← file.put len1 0
    some (file, atoi (skipSpaces (arg.drop space)))
  | none => do
    let file ← strncpy (Chars.uninit 32) 0 arg (32 - 1)
    let file ← file.put (32 - 1) 0
    some (file, 10)

/-- The part `top` and `btm` share: `view` shows the buffer. -/
def viewCmd (s : Shell) (arg usage : List UInt8)
    (view : Int → Chars (fsMaxFilesize + 1) → Option (List TerminalCall)) : Option Shown := do
  let (file, count) ← fileAndCount arg
  if file.get 0 = 0 then some (s, say usage)
  else
    let path ← resolvePath s.currentDir file.bytes (Chars.uninit 64)
    let (n, buf) ← fsRead s.table path.bytes (Chars.uninit (fsMaxFilesize + 1)) (fsMaxFilesize + 1)
    if n < 0 then some (s, notFound path.bytes)
    else
      let out ← view count buf
      some (s, out)

def topView (count : Int) (buf : Chars (fsMaxFilesize + 1)) : Option (List TerminalCall) := do
  let w ← lineLoop (fun line => decide ((line : Int) ≤ count)) printLine buf
  let s := w.buf.bytes.drop w.start
  some (w.out ++ if s.headD 0 ≠ 0 ∧ (w.line : Int) ≤ count then printLine w.line s else [])

def cmdTop (s : Shell) (arg : List UInt8) : Option Shown :=
  viewCmd s arg (text "Usage: top [file] [n]\n") topView

/-- `total_lines` of `cmd_btm`. -/
def totalLines (buf : List UInt8) : Nat :=
  (str buf).count (ch '\n') +
    if (str buf).getLast?.any (· ≠ ch '\n') then 1 else 0

def btmView (count : Int) (buf : Chars (fsMaxFilesize + 1)) : Option (List TerminalCall) := do
  let startLine := i32 (totalLines buf.bytes - count + 1)
  let startLine := if startLine < 1 then 1 else startLine
  let shown := fun (line : Nat) s => if (line : Int) ≥ startLine then printLine line s else []
  let w ← lineLoop (fun _ => true) shown buf
  let s := w.buf.bytes.drop w.start
  some (w.out ++ if s.headD 0 ≠ 0 then shown w.line s else [])

def cmdBtm (s : Shell) (arg : List UInt8) : Option Shown :=
  viewCmd s arg (text "Usage: btm [file] [n]\n") btmView

/-! ## What is shown of a file that is there -/

/-- Lines that begin with `L`, as no message does. -/
def Lines (out : List TerminalCall) : Prop :=
  ∀ call ∈ out, ∃ s, call = .writestring (ch 'L' :: s)

theorem Lines.append {a b : List TerminalCall} (ha : Lines a) (hb : Lines b) : Lines (a ++ b) := by
  intro call hc
  rcases List.mem_append.mp hc with h | h
  · exact ha call h
  · exact hb call h

theorem lines_nil : Lines [] := fun _ h => by cases h

theorem lines_say (s : List UInt8) : Lines (say (ch 'L' :: s)) := by
  intro call hc
  exact ⟨s, List.mem_singleton.mp hc⟩

theorem Lines.ne_notFound {out : List TerminalCall} (h : Lines out) (name : List UInt8) :
    out ≠ notFound name := by
  rintro rfl
  obtain ⟨s, hs⟩ := h _ (List.mem_singleton.mpr rfl)
  injection hs with hs
  injection hs with hs
  exact absurd hs (by decide)

theorem printLine_lines (line : Nat) (s : List UInt8) : Lines (printLine line s) := lines_say _

theorem huntShown_lines (word : List UInt8) (line : Nat) (s : List UInt8) :
    Lines (huntShown word line s) := by
  unfold huntShown
  split
  · exact lines_say _
  · exact lines_nil

/-- **The loop** comes back, with what `shown` gave. -/
theorem lineLoop_spec (goes : Nat → Bool) {shown : Nat → List UInt8 → List TerminalCall}
    (hshown : ∀ line s, Lines (shown line s)) (buf : Chars (fsMaxFilesize + 1)) :
    ∃ w, lineLoop goes shown buf = some w ∧ Lines w.out := by
  have hbody : ∀ w : LineWalk, w.p ≤ fsMaxFilesize + 1 ∧ Lines w.out →
      (∃ w', lineBody goes shown w = .inl w' ∧ (w'.p ≤ fsMaxFilesize + 1 ∧ Lines w'.out) ∧
        w'.p = w.p + 1) ∨ lineBody goes shown w = .inr (some w) := by
    rintro w ⟨hp, hout⟩
    unfold lineBody
    by_cases hgo : w.buf.get w.p ≠ 0 ∧ goes w.line
    · have hlt : w.p < fsMaxFilesize + 1 := by
        by_contra hge
        refine hgo.1 ?_
        unfold Chars.get
        rw [List.getD_eq_getElem?_getD, List.getElem?_eq_none, Option.getD_none]
        rw [w.buf.length_eq]
        omega
      left
      rw [if_pos hgo]
      by_cases hn : w.buf.get w.p = ch '\n'
      · obtain ⟨cut, hcut, _⟩ := Chars.put_eq (b := w.buf) hlt 0
        obtain ⟨back, hback, _⟩ := Chars.put_eq (b := cut) hlt (ch '\n')
        simp only [if_pos hn, hcut, hback]
        exact ⟨_, rfl, ⟨hlt, hout.append (hshown _ _)⟩, rfl⟩
      · rw [if_neg hn]
        exact ⟨_, rfl, ⟨hlt, hout⟩, rfl⟩
    · right
      rw [if_neg hgo]
  have hnext : ∀ w w' : LineWalk, w.p ≤ fsMaxFilesize + 1 ∧ Lines w.out →
      lineBody goes shown w = .inl w' → (w'.p ≤ fsMaxFilesize + 1 ∧ Lines w'.out) ∧
        fsMaxFilesize + 1 - w'.p < fsMaxFilesize + 1 - w.p := by
    intro w w' hI hb
    rcases hbody w hI with ⟨w₁, h1, hI', hp⟩ | h1
    · rw [hb] at h1
      cases h1
      exact ⟨hI', by omega⟩
    · rw [hb] at h1
      cases h1
  have hdone : ∀ (w : LineWalk) (r : Option LineWalk), w.p ≤ fsMaxFilesize + 1 ∧ Lines w.out →
      lineBody goes shown w = .inr r → ∃ w, r = some w ∧ Lines w.out := by
    intro w r hI hb
    rcases hbody w hI with ⟨w₁, h1, _⟩ | h1
    · rw [hb] at h1
      cases h1
    · rw [hb] at h1
      cases h1
      exact ⟨w, rfl, hI.2⟩
  obtain ⟨r, hr, w, rfl, hw⟩ := loop_total _ _ _ hnext hdone (fsMaxFilesize + 2)
    ⟨buf, 0, 0, 1, []⟩ ⟨Nat.zero_le _, lines_nil⟩ (by show _ - 0 < _; omega)
  refine ⟨w, ?_, hw⟩
  unfold lineLoop
  rw [hr]
  rfl

theorem topView_lines (count : Int) (buf : Chars (fsMaxFilesize + 1)) :
    ∃ out, topView count buf = some out ∧ Lines out := by
  obtain ⟨w, hw, hout⟩ := lineLoop_spec (fun line => decide ((line : Int) ≤ count))
    printLine_lines buf
  unfold topView
  simp only [hw, Option.bind_eq_bind, Option.bind_some]
  refine ⟨_, rfl, hout.append ?_⟩
  split
  · exact printLine_lines _ _
  · exact lines_nil

theorem btmView_lines (count : Int) (buf : Chars (fsMaxFilesize + 1)) :
    ∃ out, btmView count buf = some out ∧ Lines out := by
  have hshown : ∀ (startLine : Int) (line : Nat) (s : List UInt8),
      Lines (if (line : Int) ≥ startLine then printLine line s else []) := by
    intro startLine line s
    split
    · exact printLine_lines _ _
    · exact lines_nil
  unfold btmView
  obtain ⟨w, hw, hout⟩ := lineLoop_spec (fun _ => true)
    (hshown (if i32 (totalLines buf.bytes - count + 1) < 1 then 1
      else i32 (totalLines buf.bytes - count + 1))) buf
  simp only [hw, Option.bind_eq_bind, Option.bind_some]
  refine ⟨_, rfl, hout.append ?_⟩
  split
  · exact hshown _ _ _
  · exact lines_nil

end MiniOS
