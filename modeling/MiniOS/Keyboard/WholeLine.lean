import MiniOS.Keyboard.Readline
import MiniOS.Screen.Printing

/-!
# Which key ends `keyboard_readline`

A key edits what has been typed (`editKey`): a backspace takes the last
character away, any other key is appended.  The loop stops at Enter or as soon
as the array is full, whichever comes first (`readlineLoop_spec`), and every key
it takes is echoed (`echoed`).  So a line is read whole exactly when the array is
never full on the way to its Enter and the tabs of the echo fit on the terminal
(`keyboardReadline_whole_iff`).
-/

namespace MiniOS

open Lib

/-- What has been typed behind one more key. -/
def editKey (typed : List UInt8) (c : UInt8) : List UInt8 :=
  if c = 8 then typed.dropLast else typed ++ [c]

/-- A line after backspace editing. -/
def edited (keys : List UInt8) : List UInt8 := keys.foldl editKey []

theorem edited_plain {keys : List UInt8} (h8 : 8 ∉ keys) : edited keys = keys := by
  have hfold : ∀ typed, keys.foldl editKey typed = typed ++ keys := by
    induction keys with
    | nil => exact fun typed => (List.append_nil typed).symm
    | cons c keys ih =>
      intro typed
      rw [List.mem_cons, not_or] at h8
      rw [List.foldl_cons, ih h8.2, editKey, if_neg (Ne.symm h8.1), List.append_assoc,
        List.singleton_append]
  exact hfold []

/-- What is echoed of keys behind `typed`: a backspace only where it takes something away. -/
def echoed (typed : List UInt8) : List UInt8 → List UInt8
  | [] => []
  | c :: keys => (if c = 8 ∧ typed = [] then [] else [c]) ++ echoed (editKey typed c) keys

/-- `buf` holds `typed` and a NUL, `typed.length` is returned, `echo` is shown, `keys` are left. -/
structure ReadsAs {n : Nat} (typed : List UInt8) (echo : List TerminalCall) (keys : List UInt8)
    (r : Typed (Nat × Chars n)) : Prop where
  out_eq : r.out = echo
  keys_eq : r.keys = keys
  length_eq : r.val.1 = typed.length
  holds : typed ++ [0] <+: r.val.2.bytes

section

variable {n : Nat}

theorem prefix_put {buf b : Chars n} {typed : List UInt8} {c : UInt8} (h : typed <+: buf.bytes)
    (hput : buf.put typed.length c = some b) : typed ++ [c] <+: b.bytes := by
  obtain ⟨rest, hrest⟩ := h
  obtain ⟨hlt, hb⟩ := Chars.put_bytes hput
  rw [hb, ← hrest, List.set_append_right _ _ (Nat.le_refl _), Nat.sub_self]
  cases rest with
  | nil =>
    have hlen := buf.length_eq
    rw [← hrest, List.append_nil] at hlen
    omega
  | cons d rest =>
    refine ⟨rest, ?_⟩
    rw [List.set_cons_zero, List.append_assoc, List.singleton_append]

theorem readlineEnd_spec {buf : Chars n} {typed : List UInt8} (h : typed <+: buf.bytes)
    (hlt : typed.length < n) (out : List TerminalCall) (keys : List UInt8) :
    ∃ r, readlineEnd buf typed.length out keys = some r ∧ ReadsAs typed out keys r := by
  obtain ⟨b, hput, _⟩ := Chars.put_eq (b := buf) hlt 0
  refine ⟨⟨(typed.length, b), out, keys⟩, ?_, rfl, rfl, rfl, prefix_put h hput⟩
  rw [readlineEnd, hput]
  rfl

variable {room : Nat} {enter : UInt8} {line rest : List UInt8}

/-- The loop came to the Enter behind `line` and echoed it, or stopped at the first
point where the array was full and left the rest of the line with its Enter. -/
def StopsAs (room : Nat) (enter : UInt8) (rest typed : List UInt8) (out : List TerminalCall)
    (line : List UInt8) (r : Typed (Nat × Chars n)) : Prop :=
  ((∀ p, p <+: line → (p.foldl editKey typed).length < room) ∧
      ReadsAs (line.foldl editKey typed)
        (out ++ (echoed typed line ++ [ch '\n']).map .putchar) rest r) ∨
    ∃ p q echo, line = p ++ q ∧ (p.foldl editKey typed).length = room ∧
      ReadsAs (p.foldl editKey typed) echo (q ++ enter :: rest) r

theorem StopsAs.cons {typed : List UInt8} (echo : List UInt8) {out : List TerminalCall} {c : UInt8}
    {r : Typed (Nat × Chars n)} (hi : typed.length < room)
    (hecho : (if c = 8 ∧ typed = [] then [] else [c]) = echo)
    (h : StopsAs room enter rest (editKey typed c) (out ++ echo.map .putchar) line r) :
    StopsAs room enter rest typed out (c :: line) r := by
  rcases h with ⟨hfits, has⟩ | ⟨p, q, echo, hpq, hfull, has⟩
  · refine .inl ⟨?_, ?_⟩
    · intro p hp
      rcases List.prefix_cons_iff.mp hp with rfl | ⟨p', rfl, hp'⟩
      · exact hi
      · exact hfits p' hp'
    · rw [echoed, hecho, List.append_assoc, List.map_append, ← List.append_assoc]
      exact has
  · exact .inr ⟨c :: p, q, echo, by rw [hpq, List.cons_append], hfull, has⟩

theorem readlineLoop_spec (hroom : room < n) (henter : enter = ch '\n' ∨ enter = ch '\r')
    (hline : ∀ c ∈ line, c ≠ ch '\n' ∧ c ≠ ch '\r') (buf : Chars n) (typed : List UInt8)
    (htyped : typed <+: buf.bytes) (hle : typed.length ≤ room) (out : List TerminalCall) :
    ∃ r, readlineLoop room buf typed.length out (line ++ enter :: rest) = some r ∧
      StopsAs room enter rest typed out line r := by
  induction line generalizing buf typed out with
  | nil =>
    rw [List.nil_append, readlineLoop]
    by_cases hi : typed.length < room
    · rw [if_pos hi]
      simp only [if_pos henter]
      obtain ⟨r, hr, has⟩ := readlineEnd_spec htyped (by omega) (out ++ [.putchar (ch '\n')]) rest
      refine ⟨r, hr, .inl ⟨?_, has⟩⟩
      intro p hp
      rw [List.prefix_nil.mp hp]
      exact hi
    · rw [if_neg hi]
      obtain ⟨r, hr, has⟩ := readlineEnd_spec htyped (by omega) out (enter :: rest)
      exact ⟨r, hr, .inr ⟨[], [], out, rfl, Nat.le_antisymm hle (Nat.le_of_not_lt hi), has⟩⟩
  | cons c line ih =>
    obtain ⟨⟨hn, hr⟩, hline⟩ := List.forall_mem_cons.mp hline
    rw [List.cons_append, readlineLoop]
    by_cases hi : typed.length < room
    · rw [if_pos hi]
      simp only [if_neg (not_or.mpr ⟨hn, hr⟩)]
      by_cases h8 : c = 8
      · rw [if_pos h8]
        have hkey : editKey typed c = typed.dropLast := if_pos h8
        have hpre : typed.dropLast <+: buf.bytes := (List.dropLast_prefix typed).trans htyped
        have hlen : typed.dropLast.length = typed.length - 1 := List.length_dropLast
        by_cases h0 : typed.length > 0
        · obtain ⟨r, hr, hstops⟩ := ih hline buf typed.dropLast hpre (by omega) (out ++ [.putchar 8])
          rw [if_pos h0, ← hlen]
          rw [← hkey, ← h8] at hstops
          exact ⟨r, hr, hstops.cons [c] hi
            (if_neg fun h => by rw [h.2] at h0; exact Nat.lt_irrefl 0 h0)⟩
        · have hnil : typed = [] := List.eq_nil_of_length_eq_zero (Nat.le_zero.mp (Nat.le_of_not_lt h0))
          obtain ⟨r, hr, hstops⟩ := ih hline buf typed.dropLast hpre (by omega) out
          rw [if_neg h0, show typed.length = typed.dropLast.length by omega]
          rw [← hkey, ← List.append_nil out] at hstops
          exact ⟨r, hr, hstops.cons [] hi (if_pos ⟨h8, hnil⟩)⟩
      · rw [if_neg h8]
        have hkey : editKey typed c = typed ++ [c] := if_neg h8
        have hlen : (typed ++ [c]).length = typed.length + 1 := List.length_append
        obtain ⟨b, hput, _⟩ := Chars.put_eq (b := buf) (show typed.length < n by omega) c
        obtain ⟨r, hr, hstops⟩ := ih hline b (typed ++ [c]) (prefix_put htyped hput) (by omega)
          (out ++ [.putchar c])
        rw [hput, Option.bind_eq_bind, Option.bind_some, ← hlen]
        rw [← hkey] at hstops
        exact ⟨r, hr, hstops.cons [c] hi (if_neg fun h => h8 h.1)⟩
    · rw [if_neg hi]
      obtain ⟨r, hr, has⟩ := readlineEnd_spec htyped (by omega) out (c :: (line ++ enter :: rest))
      exact ⟨r, hr, .inr ⟨[], c :: line, out, rfl, Nat.le_antisymm hle (Nat.le_of_not_lt hi), has⟩⟩

variable {len : Nat}

theorem keyboardReadline_spec (hlen : 1 ≤ len) (hn : len ≤ n) (h32 : len < 2 ^ 32) (buf : Chars n)
    (henter : enter = ch '\n' ∨ enter = ch '\r')
    (hline : ∀ c ∈ line, c ≠ ch '\n' ∧ c ≠ ch '\r') (rest : List UInt8) :
    ∃ r, keyboardReadline buf len (line ++ enter :: rest) = some r ∧
      StopsAs (len - 1) enter rest [] [] line r := by
  have hroom : u32 (len + 2 ^ 32 - 1) = len - 1 := by
    unfold u32
    omega
  unfold keyboardReadline
  rw [hroom]
  exact readlineLoop_spec (by omega) henter hline buf [] List.nil_prefix (Nat.zero_le _) []

theorem readlineEnd_noBackspace {buf : Chars n} {typed : List UInt8} (hpre : typed <+: buf.bytes)
    (h8 : 8 ∉ typed) {out : List TerminalCall} {keys : List UInt8} {r : Typed (Nat × Chars n)}
    (h : readlineEnd buf typed.length out keys = some r) : 8 ∉ str r.val.2.bytes := by
  obtain ⟨b, hput, h⟩ := Option.bind_eq_some_iff.mp h
  cases h
  obtain ⟨behind, hb⟩ := prefix_put hpre hput
  show 8 ∉ str b.bytes
  rw [← hb, List.append_assoc, List.singleton_append, str_append_nul]
  exact fun hmem => h8 (List.takeWhile_subset _ hmem)

/-- A line read holds no backspace. -/
theorem readlineLoop_noBackspace {buf : Chars n} {typed : List UInt8} (hpre : typed <+: buf.bytes)
    (h8 : 8 ∉ typed) {out : List TerminalCall} {keys : List UInt8} {r : Typed (Nat × Chars n)}
    (h : readlineLoop room buf typed.length out keys = some r) : 8 ∉ str r.val.2.bytes := by
  induction keys generalizing buf typed out with
  | nil =>
    rw [readlineLoop] at h
    split at h
    · cases h
    · exact readlineEnd_noBackspace hpre h8 h
  | cons c keys ih =>
    rw [readlineLoop] at h
    split at h
    · split at h
      · exact readlineEnd_noBackspace hpre h8 h
      split at h
      · have hdrop : 8 ∉ typed.dropLast := fun hmem => h8 (List.dropLast_subset typed hmem)
        have hlen : typed.dropLast.length = typed.length - 1 := List.length_dropLast
        split at h
        · rw [← hlen] at h
          exact ih ((List.dropLast_prefix typed).trans hpre) hdrop h
        · exact ih hpre h8 h
      · rename_i hc
        obtain ⟨b, hput, h⟩ := Option.bind_eq_some_iff.mp h
        have hlen : (typed ++ [c]).length = typed.length + 1 := List.length_append
        rw [← hlen] at h
        refine ih (prefix_put hpre hput) ?_ h
        rw [List.mem_append, List.mem_singleton, not_or]
        exact ⟨h8, Ne.symm hc⟩
    · exact readlineEnd_noBackspace hpre h8 h

theorem keyboardReadline_noBackspace {buf : Chars n} {keys : List UInt8} {r : Typed (Nat × Chars n)}
    (h : keyboardReadline buf len keys = some r) : 8 ∉ str r.val.2.bytes :=
  readlineLoop_noBackspace (show [] <+: buf.bytes from List.nil_prefix) List.not_mem_nil h

/-- **Whole lines.**  On any reachable terminal `keyboard_readline` comes back, takes
the keys up to the first Enter and leaves the edited line, cut to the array, exactly
when the array is never full before the Enter and the tabs of the echo fit. -/
theorem keyboardReadline_whole_iff {t : Terminal} (ht : terminalMachine.Reach t) (hlen : 1 ≤ len)
    (hn : len ≤ n) (h32 : len < 2 ^ 32) (buf : Chars n) (henter : enter = ch '\n' ∨ enter = ch '\r')
    (hline : ∀ c ∈ line, c ≠ ch '\n' ∧ c ≠ ch '\r') (rest : List UInt8) :
    (∃ r, keyboardReadline buf len (line ++ enter :: rest) = some r ∧ CallsReturn t r.out ∧
        r.keys = rest ∧ (edited line).take (len - 1) ++ [0] <+: r.val.2.bytes) ↔
      (∀ p, p <+: line → (edited p).length < len - 1) ∧ TabsFit t.grid.pos (echoed [] line) := by
  obtain ⟨r, hr, hcases⟩ := keyboardReadline_spec hlen hn h32 buf henter hline rest
  constructor
  · rintro ⟨r', hr', hshown, hkeys, _⟩
    rw [hr] at hr'
    cases hr'
    rcases hcases with ⟨hfits, has⟩ | ⟨p, q, echo, _, _, has⟩
    · refine ⟨hfits, ?_⟩
      rw [has.out_eq, List.nil_append, (displays_putchars _).return_iff ht] at hshown
      exact hshown.left
    · have hlen := congrArg List.length (has.keys_eq.symm.trans hkeys)
      rw [List.length_append, List.length_cons] at hlen
      omega
  · rintro ⟨hfits, htabs⟩
    rcases hcases with ⟨_, has⟩ | ⟨p, q, echo, hpq, hfull, _⟩
    · refine ⟨r, hr, ?_, has.keys_eq, ?_⟩
      · rw [has.out_eq, List.nil_append, (displays_putchars _).return_iff ht]
        exact (tabsFit_append_plain (by decide)).mpr htabs
      · rw [List.take_of_length_le (Nat.le_of_lt (hfits line (List.prefix_refl line)))]
        exact has.holds
    · have hlt : (edited p).length < len - 1 := hfits p ⟨q, hpq.symm⟩
      have hfull' : (edited p).length = len - 1 := hfull
      omega

end

/-- `ab`, a backspace, a tab and `c` behind a prompt of 12 characters, into five bytes. -/
theorem keyboardReadline_whole_ac :
    ∃ r, keyboardReadline (Chars.fill 5 0) 5 (text "ab\x08\tc" ++ ch '\r' :: text "ls") = some r ∧
      CallsReturn (terminalAtCol 12) r.out ∧ r.keys = text "ls" ∧
      (edited (text "ab\x08\tc")).take 4 ++ [0] <+: r.val.2.bytes := by
  apply (keyboardReadline_whole_iff (terminalAtCol_reach 12) (by omega) (Nat.le_refl 5) (by omega) _
    (.inr rfl) (forall_of_all (by decide)) _).mpr
  refine ⟨?_, by decide⟩
  intro p hp
  have hall : ∀ k, k < 6 → (edited ((text "ab\x08\tc").take k)).length < 4 := by decide
  rw [List.prefix_iff_eq_take.mp hp]
  exact hall p.length (Nat.lt_succ_of_le hp.length_le)

/-- 255 characters fill `text_buf`: their Enter and the next line are left together. -/
theorem keyboardReadline_not_whole :
    ¬ ∃ r, keyboardReadline (Chars.fill 256 0) 256
        (List.replicate 255 (ch 'a') ++ ch '\r' :: text "ls\r") = some r ∧
      r.keys = text "ls\r" ∧
      (edited (List.replicate 255 (ch 'a'))).take 255 ++ [0] <+: r.val.2.bytes := by
  rintro ⟨r', hr', hkeys, _⟩
  have hline : ∀ c ∈ List.replicate 255 (ch 'a'), c ≠ ch '\n' ∧ c ≠ ch '\r' := by
    intro c hc
    rw [List.eq_of_mem_replicate hc]
    decide
  have h8 : 8 ∉ List.replicate 255 (ch 'a') := fun h => absurd (List.eq_of_mem_replicate h) (by decide)
  obtain ⟨r, hr, hcases⟩ := keyboardReadline_spec (by omega) (Nat.le_refl 256) (by omega)
    (Chars.fill 256 0) (.inr rfl) hline (text "ls\r")
  rw [hr] at hr'
  cases hr'
  rcases hcases with ⟨hfits, _⟩ | ⟨p, q, _, _, _, has⟩
  · have hlt : (edited (List.replicate 255 (ch 'a'))).length < 255 := hfits _ (List.prefix_refl _)
    rw [edited_plain h8, List.length_replicate] at hlt
    omega
  · have hlen := congrArg List.length (has.keys_eq.symm.trans hkeys)
    rw [List.length_append, List.length_cons] at hlen
    omega

end MiniOS
