import Mathlib.Data.List.Induction
import MiniOS.Lib.CString

/-!
# Line editing in an array

A `Line` is the text before the cursor and the text after it.  An array
`Holds` a line when its bytes are the text, a NUL, and then anything.

An editor that keeps the line in one array has to move the bytes after the
cursor: `shiftDown` closes the gap of a deleted character, `shiftUp` opens the
gap for a new one.  Both are loops of single stores, in the order in which no
byte is overwritten before it is moved.

* `Holds.insert`: the gap opened, the character and the NUL stored, the array
  holds the line with the character inserted;
* `Holds.backspace`: the gap closed and the NUL stored, the array holds the
  line without the character before the cursor;
* `Holds.of_text`: moving the cursor stores nothing.
-/

namespace Lib

/-- A line of text with a cursor in it. -/
structure Line (α : Type*) where
  before : List α
  after : List α
deriving DecidableEq

namespace Line

variable {α : Type*}

def text (l : Line α) : List α := l.before ++ l.after

/-- `s` with the cursor at its end. -/
def atEnd (s : List α) : Line α := ⟨s, []⟩

def insert (l : Line α) (c : α) : Line α := ⟨l.before ++ [c], l.after⟩

/-- Delete the character before the cursor. -/
def backspace (l : Line α) : Line α := ⟨l.before.dropLast, l.after⟩

def left (l : Line α) : Line α :=
  match l.before.getLast? with
  | none => l
  | some c => ⟨l.before.dropLast, c :: l.after⟩

def right (l : Line α) : Line α :=
  match l.after with
  | [] => l
  | c :: after => ⟨l.before ++ [c], after⟩

@[simp] theorem text_atEnd (s : List α) : (atEnd s).text = s := List.append_nil s

theorem length_text (l : Line α) : l.text.length = l.before.length + l.after.length :=
  List.length_append

/-- A cursor that is not at the start stands behind some character. -/
theorem eq_snoc {l : Line α} (h : l.before ≠ []) : ∃ xs c, l = ⟨xs ++ [c], l.after⟩ := by
  obtain ⟨before, after⟩ := l
  exact ⟨before.dropLast, before.getLast h, by rw [List.dropLast_append_getLast h]⟩

@[simp] theorem backspace_snoc (xs after : List α) (c : α) :
    (Line.mk (xs ++ [c]) after).backspace = ⟨xs, after⟩ := by
  unfold backspace
  rw [List.dropLast_concat]

theorem backspace_nil {l : Line α} (h : l.before = []) : l.backspace = l := by
  obtain ⟨before, after⟩ := l
  cases h
  rfl

theorem text_backspace_subset (l : Line α) : l.backspace.text ⊆ l.text := by
  intro x hx
  unfold text backspace at hx
  unfold text
  rw [List.mem_append] at hx ⊢
  exact hx.imp_left fun h => List.dropLast_subset _ h

theorem mem_text_insert {l : Line α} {c x : α} : x ∈ (l.insert c).text ↔ x = c ∨ x ∈ l.text := by
  simp only [text, insert, List.mem_append, List.mem_singleton]
  rw [or_comm (a := x ∈ l.before), or_assoc]

@[simp] theorem left_snoc (xs after : List α) (c : α) :
    (Line.mk (xs ++ [c]) after).left = ⟨xs, c :: after⟩ := by
  unfold left
  simp

theorem left_nil {l : Line α} (h : l.before = []) : l.left = l := by
  unfold left
  rw [h]
  rfl

theorem text_left (l : Line α) : l.left.text = l.text := by
  by_cases h : l.before = []
  · rw [left_nil h]
  · obtain ⟨xs, c, hl⟩ := eq_snoc h
    rw [hl, left_snoc]
    show xs ++ c :: l.after = xs ++ [c] ++ l.after
    simp

theorem text_right (l : Line α) : l.right.text = l.text := by
  obtain ⟨before, after⟩ := l
  cases after with
  | nil => rfl
  | cons c after =>
    show before ++ [c] ++ after = before ++ c :: after
    simp

end Line

/-! ## The loops of stores -/

namespace Chars

variable {n : Nat}

/-- `b[i] = b[i + 1]` for `k` indices from `i` upwards. -/
def shiftDown (b : Chars n) (i : Nat) : Nat → Option (Chars n)
  | 0 => some b
  | k + 1 => do
    let b ← b.put i (b.get (i + 1))
    shiftDown b (i + 1) k

/-- `b[i] = b[i - 1]` for `k` indices from `i` downwards. -/
def shiftUp (b : Chars n) (i : Nat) : Nat → Option (Chars n)
  | 0 => some b
  | k + 1 => do
    let b ← b.put i (b.get (i - 1))
    shiftUp b (i - 1) k

theorem get_at {b : Chars n} {u t : List UInt8} {x : UInt8} (h : b.bytes = u ++ x :: t) :
    b.get u.length = x := by
  unfold get
  rw [h]
  simp

theorem put_at {b : Chars n} {u t : List UInt8} {x : UInt8} (h : b.bytes = u ++ x :: t)
    (c : UInt8) : ∃ b', b.put u.length c = some b' ∧ b'.bytes = u ++ c :: t := by
  have hlen := b.length_eq
  rw [h, List.length_append, List.length_cons] at hlen
  obtain ⟨b', hput, hb'⟩ := put_eq (b := b) (i := u.length) (by omega) c
  refine ⟨b', hput, ?_⟩
  rw [hb', h]
  simp

/-- `v` moves one down, over `x`. -/
theorem shiftDown_at {b : Chars n} {u v t : List UInt8} {x : UInt8}
    (h : b.bytes = u ++ x :: (v ++ t)) :
    ∃ b' z, b.shiftDown u.length v.length = some b' ∧ b'.bytes = u ++ v ++ z :: t := by
  induction v generalizing b u x with
  | nil => exact ⟨b, x, rfl, by simpa using h⟩
  | cons y v ih =>
    have hy : b.get (u.length + 1) = y := by
      have := get_at (b := b) (u := u ++ [x]) (x := y) (t := v ++ t) (by simpa using h)
      simpa using this
    obtain ⟨b₁, hput, hb₁⟩ := put_at h y
    obtain ⟨b', z, hshift, hb'⟩ := ih (b := b₁) (u := u ++ [y]) (x := y) (by simpa using hb₁)
    rw [List.length_append, List.length_singleton] at hshift
    refine ⟨b', z, ?_, by simpa using hb'⟩
    rw [List.length_cons, shiftDown, hy, hput]
    exact hshift

/-- `v` moves one up, over `z`. -/
theorem shiftUp_at {b : Chars n} {u v t : List UInt8} {z : UInt8}
    (h : b.bytes = u ++ v ++ z :: t) :
    ∃ b' w, b.shiftUp (u.length + v.length) v.length = some b' ∧
      b'.bytes = u ++ w :: (v ++ t) := by
  induction v using List.reverseRecOn generalizing b z t with
  | nil => exact ⟨b, z, rfl, by simpa using h⟩
  | append_singleton v y ih =>
    have hy : b.get (u.length + v.length) = y := by
      have := get_at (b := b) (u := u ++ v) (x := y) (t := z :: t) (by simpa using h)
      simpa using this
    obtain ⟨b₁, hput, hb₁⟩ := put_at h y
    obtain ⟨b', w, hshift, hb'⟩ := ih (b := b₁) (z := y) (t := y :: t) (by simpa using hb₁)
    refine ⟨b', w, ?_, by simpa using hb'⟩
    have hi : u.length + (v ++ [y]).length = (u ++ (v ++ [y])).length := by simp
    have hk : (v ++ [y]).length = v.length + 1 := by simp
    have hpred : (u ++ (v ++ [y])).length - 1 = u.length + v.length := by
      simp
    rw [hi, hk, shiftUp, hpred, hy, hput]
    exact hshift

end Chars

/-! ## An array that holds a line -/

variable {n : Nat}

/-- The text of the line, a NUL, and then anything. -/
structure Holds (b : Chars n) (l : Line UInt8) : Prop where
  bytes : ∃ rest, b.bytes = l.text ++ 0 :: rest
  noNul : 0 ∉ l.text

namespace Holds

variable {b : Chars n} {l l' : Line UInt8}

theorem str_eq (h : Holds b l) : str b.bytes = l.text := by
  obtain ⟨rest, hb⟩ := h.bytes
  rw [hb, str_append_zero h.noNul]

theorem length_lt (h : Holds b l) : l.text.length < n := by
  obtain ⟨rest, hb⟩ := h.bytes
  rw [← b.length_eq, hb, List.length_append, List.length_cons]
  omega

theorem get_length (h : Holds b l) : b.get l.text.length = 0 := by
  obtain ⟨rest, hb⟩ := h.bytes
  exact Chars.get_at hb

theorem get_mem (h : Holds b l) {i : Nat} (hi : i < l.text.length) : b.get i ∈ l.text := by
  obtain ⟨rest, hb⟩ := h.bytes
  unfold Chars.get
  rw [hb, List.getD_eq_getElem?_getD, List.getElem?_append_left hi, List.getElem?_eq_getElem hi]
  exact List.getElem_mem hi

/-- Moving the cursor stores nothing. -/
theorem of_text (h : Holds b l) (ht : l'.text = l.text) : Holds b l' :=
  ⟨by rw [ht]; exact h.bytes, by rw [ht]; exact h.noNul⟩

/-- An array that ends in NUL holds its string. -/
theorem of_str (hb : (str b.bytes).length < n) : Holds b (Line.atEnd (str b.bytes)) := by
  obtain ⟨rest, hrest⟩ := eq_str_append b.bytes (by rw [b.length_eq]; exact hb)
  refine ⟨⟨rest, ?_⟩, ?_⟩
  · rw [Line.text_atEnd]
    exact hrest
  · rw [Line.text_atEnd]
    exact zero_not_mem_str _

/-- The NUL behind the line stored once more. -/
theorem terminate (h : Holds b l) : ∃ b', b.put l.text.length 0 = some b' ∧ Holds b' l := by
  obtain ⟨rest, hb⟩ := h.bytes
  obtain ⟨b', hput, hb'⟩ := Chars.put_at hb 0
  exact ⟨b', hput, ⟨rest, hb'⟩, h.noNul⟩

/-- A NUL at the start clears the line. -/
theorem clear (b : Chars n) (hn : 0 < n) :
    ∃ b', b.put 0 0 = some b' ∧ Holds b' (Line.atEnd []) := by
  obtain ⟨b', hput, hb'⟩ := Chars.put_eq (b := b) hn 0
  refine ⟨b', hput, ⟨b.bytes.tail, ?_⟩, List.not_mem_nil⟩
  have hlen := b.length_eq
  rw [hb']
  cases hb : b.bytes with
  | nil =>
    rw [hb, List.length_nil] at hlen
    omega
  | cons x t => rfl

theorem insert (h : Holds b l) {c : UInt8} (hc : c ≠ 0) (hroom : l.text.length + 1 < n) :
    ∃ b₁ b₂ b₃, b.shiftUp l.text.length l.after.length = some b₁ ∧
      b₁.put l.before.length c = some b₂ ∧ b₂.put (l.text.length + 1) 0 = some b₃ ∧
      Holds b₃ (l.insert c) := by
  obtain ⟨before, after⟩ := l
  obtain ⟨⟨rest, hb⟩, h0⟩ := h
  have hlen := b.length_eq
  rw [hb, List.length_append, List.length_cons] at hlen
  cases rest with
  | nil =>
    rw [List.length_nil] at hlen
    omega
  | cons r rest =>
    obtain ⟨b₁, w, hshift, hb₁⟩ := Chars.shiftUp_at (u := before) (v := after) hb
    obtain ⟨b₂, hput, hb₂⟩ := Chars.put_at hb₁ c
    obtain ⟨b₃, hput', hb₃⟩ :=
      Chars.put_at (b := b₂) (u := before ++ c :: after) (x := r) (t := rest)
        (by simpa using hb₂) 0
    have hi : (before ++ c :: after).length = (Line.mk before after).text.length + 1 := by
      simp [Line.text]
      omega
    rw [hi] at hput'
    refine ⟨b₁, b₂, b₃, ?_, hput, hput', ⟨rest, ?_⟩, ?_⟩
    · rw [Line.length_text]
      exact hshift
    · rw [hb₃]
      simp [Line.text, Line.insert]
    · rw [Line.mem_text_insert, not_or]
      exact ⟨Ne.symm hc, h0⟩

theorem backspace (h : Holds b l) (hl : l.before ≠ []) :
    ∃ b₁ b₂, b.shiftDown (l.before.length - 1) l.after.length = some b₁ ∧
      b₁.put (l.text.length - 1) 0 = some b₂ ∧ Holds b₂ l.backspace := by
  obtain ⟨xs, c, hsnoc⟩ := Line.eq_snoc hl
  obtain ⟨before, after⟩ := l
  cases hsnoc
  obtain ⟨⟨rest, hb⟩, h0⟩ := h
  obtain ⟨b₁, z, hshift, hb₁⟩ :=
    Chars.shiftDown_at (b := b) (u := xs) (x := c) (v := after) (t := 0 :: rest)
      (by simpa [Line.text] using hb)
  obtain ⟨b₂, hput, hb₂⟩ := Chars.put_at hb₁ 0
  have hi : (xs ++ after).length = (Line.mk (xs ++ [c]) after).text.length - 1 := by
    simp [Line.text]
  rw [hi] at hput
  refine ⟨b₁, b₂, by simpa using hshift, hput, ⟨0 :: rest, ?_⟩, ?_⟩
  · rw [hb₂, Line.backspace_snoc]
    rfl
  · exact fun hm => h0 (Line.text_backspace_subset _ hm)

end Holds

end Lib
