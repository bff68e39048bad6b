import MiniOS.Shell.CommandLine
import MiniOS.Shell.LineRefinement

/-!
# What a line asks for (`shell_run` in `kernel/shell.c`)

The command of a line is the one named by its first word, however long the word
is: the copy of it that is compared is cut at 63 characters, where no name
comes to (`commandLine_spec`).
-/

namespace MiniOS

open Lib

/-- A line up to its first blank. -/
def firstWord (line : List UInt8) : List UInt8 := line.takeWhile (· ≠ ch ' ')

/-- What stands behind the blanks behind the first word. -/
def behindWord (line : List UInt8) : List UInt8 :=
  (line.dropWhile (· ≠ ch ' ')).tail.dropWhile isSpace

theorem line_eq_word {word tail : List UInt8} (hspace : ch ' ' ∉ word)
    (htail : tail.headD (ch ' ') = ch ' ') :
    firstWord (word ++ tail) = word ∧ behindWord (word ++ tail) = tail.dropWhile isSpace := by
  have hword : ∀ c ∈ word, decide (c ≠ ch ' ') = true := fun c hc =>
    decide_eq_true fun h => hspace (h ▸ hc)
  unfold firstWord behindWord
  rw [List.takeWhile_append_of_pos hword, List.dropWhile_append_of_pos hword]
  cases tail with
  | nil => exact ⟨List.append_nil _, rfl⟩
  | cons c tail =>
    obtain rfl : c = ch ' ' := htail
    exact ⟨List.append_nil _, rfl⟩

theorem behindWord_subset (line : List UInt8) : behindWord line ⊆ line := fun _ hc =>
  List.dropWhile_subset _ (List.mem_of_mem_tail (List.dropWhile_subset _ hc))

theorem length_behindWord (line : List UInt8) : (behindWord line).length ≤ line.length - 1 := by
  have hdrop := (List.dropWhile_suffix (l := line) (· ≠ ch ' ')).length_le
  have hblanks := (List.dropWhile_suffix (l := (line.dropWhile (· ≠ ch ' ')).tail) isSpace).length_le
  rw [List.length_tail] at hblanks
  unfold behindWord
  omega

/-- The two copies that are made of a line. -/
theorem splitCommand_spec (line : List UInt8) :
    ∃ cmd arg, splitCommand line = some (cmd, arg) ∧
      str cmd.bytes = (firstWord (str line)).take 63 ∧ str arg = behindWord (str line) := by
  unfold splitCommand
  rcases strchr_spec line (c := ch ' ') (by decide) with ⟨hnone, hspace⟩ | ⟨u, v, hs, hspace, hsome⟩
  · obtain ⟨b, b', hb, hb', hstr⟩ :=
      strncpy_put_spec (Chars.uninit 64) 0 line 63 (by decide) (Nat.zero_le _)
    rw [Nat.zero_add] at hb'
    obtain ⟨hword, hbehind⟩ := @line_eq_word _ [] hspace rfl
    rw [List.append_nil] at hword hbehind
    rw [hnone, hword, hbehind]
    simp only [hb, hb', Option.bind_eq_bind, Option.bind_some]
    exact ⟨b', [], rfl, hstr, rfl⟩
  · have hcut : (if u.length ≥ 64 then 64 - 1 else u.length) = min 63 u.length := by
      split
      · omega
      · omega
    obtain ⟨b, b', hb, hb', hstr⟩ := strncpy_put_spec (Chars.uninit 64) 0 line (min 63 u.length)
      (by omega) (Nat.zero_le _)
    rw [Nat.zero_add] at hb'
    obtain ⟨hword, hbehind⟩ := @line_eq_word u (ch ' ' :: v) hspace rfl
    rw [hs, hword, hbehind]
    rw [hsome]
    simp only [hcut, hb, hb', Option.bind_eq_bind, Option.bind_some]
    refine ⟨b', _, rfl, ?_, ?_⟩
    · rw [hstr, hs, List.take_append_of_le_length (Nat.min_le_right _ _), ← List.take_take,
        List.take_length]
      rfl
    · have hrest : str (line.drop (u.length + 1)) = v := by
        have := str_drop_append (s := line) (u := u ++ [ch ' ']) (w := v)
          (by rw [hs, List.append_assoc]; rfl)
        rwa [List.length_append] at this
      rw [str_skipSpaces, hrest]
      rfl

/-- No name is long enough to be cut. -/
theorem mem_commandTable_take (word : List UInt8) (c : Command) :
    (word.take 63, c) ∈ commandTable ↔ (word, c) ∈ commandTable := by
  have hshort : ∀ e ∈ commandTable, e.1.length < 63 := by decide
  by_cases hlen : word.length ≤ 63
  · rw [List.take_of_length_le hlen]
  · refine iff_of_false (fun h => ?_) (fun h => ?_)
    · have hcut : (word.take 63).length < 63 := hshort _ h
      rw [List.length_take] at hcut
      omega
    · have hword : word.length < 63 := hshort _ h
      omega

/-- **The command of a line** is the one its first word names, with what stands behind it. -/
theorem commandLine_spec (inputBuf : List UInt8) :
    ∃ command arg, commandLine inputBuf = some (command, arg) ∧
      (∀ c, command = some c ↔
        (firstWord ((str inputBuf).dropWhile isSpace), c) ∈ commandTable) ∧
      str arg = behindWord ((str inputBuf).dropWhile isSpace) := by
  obtain ⟨cmd, arg, hsplit, hcmd, harg⟩ := splitCommand_spec (skipSpaces inputBuf)
  rw [str_skipSpaces] at hcmd harg
  refine ⟨dispatch cmd.bytes, arg, ?_, fun c => ?_, harg⟩
  · unfold commandLine
    rw [hsplit]
    rfl
  · rw [dispatch_eq_some_iff, hcmd, ← mem_commandTable_take]
    exact ⟨fun ⟨_, h, he⟩ => he ▸ h, fun h => ⟨_, h, rfl⟩⟩

/-- The argument stands behind a character of the line, at least. -/
theorem commandLine_arg {inputBuf : List UInt8} {command : Option Command} {arg : List UInt8}
    (h : commandLine inputBuf = some (command, arg)) :
    (str arg).length ≤ (str inputBuf).length - 1 ∧ str arg ⊆ str inputBuf := by
  obtain ⟨command', arg', hcmd, _, harg⟩ := commandLine_spec inputBuf
  rw [h] at hcmd
  cases hcmd
  have hline := (List.dropWhile_suffix (l := str inputBuf) isSpace).length_le
  have hlen := length_behindWord ((str inputBuf).dropWhile isSpace)
  rw [harg]
  exact ⟨by omega, fun c hc => List.dropWhile_subset _ (behindWord_subset _ hc)⟩

/-! ## Names -/

theorem name_plain {name : List UInt8} {c : Command} (hname : (name, c) ∈ commandTable) :
    name ≠ [] ∧ name.length < 63 ∧ ∀ c ∈ name, IsPrintable c ∧ c ≠ ch ' ' := by
  have hall : ∀ e ∈ commandTable, e.1 ≠ [] ∧ e.1.length < 63 ∧
      e.1.all fun c => IsPrintable c ∧ c ≠ ch ' ' := by decide
  obtain ⟨hne, hlen, hplain⟩ := hall _ hname
  exact ⟨hne, hlen, forall_of_all hplain⟩

theorem dropWhile_name {name : List UInt8} {c : Command} (hname : (name, c) ∈ commandTable)
    (tail : List UInt8) : (name ++ tail).dropWhile isSpace = name ++ tail := by
  obtain ⟨hne, _, hplain⟩ := name_plain hname
  cases name with
  | nil => exact absurd rfl hne
  | cons x name =>
    obtain ⟨hprintable, hspace⟩ := hplain x (List.mem_cons_self ..)
    have htab : x ≠ ch '\t' := hprintable.ne_of_lt (by decide)
    exact List.dropWhile_cons_of_neg (by simp [isSpace, hspace, htab])

/-- A line that is a name, or starts with one and a blank. -/
theorem commandLine_typed {name tail : List UInt8} {c : Command} (hname : (name, c) ∈ commandTable)
    (htail : tail.headD (ch ' ') = ch ' ') {inputBuf : List UInt8}
    (hline : str inputBuf = name ++ tail) :
    (str inputBuf).dropWhile isSpace ≠ [] ∧
      ∃ arg, commandLine inputBuf = some (some c, arg) ∧ str arg = tail.dropWhile isSpace := by
  obtain ⟨hne, _, hplain⟩ := name_plain hname
  obtain ⟨hword, hbehind⟩ := line_eq_word (fun h => (hplain _ h).2 rfl) htail
  obtain ⟨command, arg, hcmd, hiff, harg⟩ := commandLine_spec inputBuf
  rw [hline, dropWhile_name hname] at hiff harg ⊢
  rw [hword] at hiff
  refine ⟨by simp [hne], arg, ?_, by rw [harg, hbehind]⟩
  rw [hcmd, (hiff c).mpr hname]

end MiniOS
