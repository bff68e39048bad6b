import MiniOS.Memory.Strings

/-!
# Paths (`resolve_path` in `kernel/shell.c`)

`resolvePath` fills the caller's `char[64]` from `current_dir` and an argument,
store by store; `joinPath` is the path it is meant to build, cut to 63
characters in the array (`resolvePath_str`).  It stays inside the array except
for a relative argument and a `current_dir` of 63 characters
(`resolvePath_isSome_iff`).
-/

namespace MiniOS

open Lib

/-- `if (strcmp(path, "/") != 0) strcat(path, "/");` -/
def appendSlash (path : Chars 64) : Option (Chars 64) :=
  if strcmp path.bytes (text "/") ≠ 0 then strcat path (text "/") else some path

/-- `strcpy(out_path, current_dir)`, and a `/` behind it unless it is the root. -/
def dirPrefix (currentDir out : Chars 64) : Option (Chars 64) := do
  let out ← strcpy out currentDir.bytes
  appendSlash out

/-- `resolve_path`. -/
def resolvePath (currentDir : Chars 64) (arg : List UInt8) (out : Chars 64) : Option (Chars 64) :=
  if arg.headD 0 = 0 then strcpy out currentDir.bytes
  else if arg.headD 0 = ch '/' then do
    let out ← strncpy out 0 arg 63
    out.put 63 0
  else do
    let out ← dirPrefix currentDir out
    let out ← strncat out arg (u32 (63 + 2 ^ 32 - strlen out.bytes))
    out.put 63 0

/-! ## The path built -/

/-- A directory as a prefix: the root already ends in `/`. -/
def withSlash (dir : List UInt8) : List UInt8 := if dir = text "/" then dir else dir ++ text "/"

/-- The path of `arg` seen from `dir`, at any length. -/
def joinPath (dir arg : List UInt8) : List UInt8 :=
  if arg = [] then dir
  else if arg.headD 0 = ch '/' then arg
  else withSlash dir ++ arg

theorem withSlash_length (dir : List UInt8) :
    (withSlash dir).length ≤ dir.length + 1 ∧ (dir ≠ text "/" → (withSlash dir).length =
      dir.length + 1) := by
  unfold withSlash
  split
  · exact ⟨by omega, fun h => absurd (by assumption) h⟩
  · have : (text "/").length = 1 := rfl
    rw [List.length_append, this]
    exact ⟨Nat.le_refl _, fun _ => rfl⟩

theorem headD_eq_zero_iff (arg : List UInt8) : arg.headD 0 = 0 ↔ str arg = [] :=
  (str_eq_nil_iff arg).symm

theorem appendSlash_spec (path : Chars 64) (h : (str path.bytes).length ≤ 62) :
    ∃ b, appendSlash path = some b ∧ str b.bytes = withSlash (str path.bytes) := by
  have hroot : strcmp path.bytes (text "/") = 0 ↔ str path.bytes = text "/" := by
    rw [strcmp_eq_zero_iff]
    exact Iff.rfl
  unfold appendSlash withSlash
  by_cases hr : str path.bytes = text "/"
  · rw [if_neg (not_not.mpr (hroot.mpr hr)), if_pos hr]
    exact ⟨path, rfl, rfl⟩
  · rw [if_pos (fun h => hr (hroot.mp h)), if_neg hr]
    refine strcat_spec path (text "/") ?_
    rw [show (str (text "/")).length = 1 from rfl]
    omega

theorem appendSlash_fits {path b : Chars 64} (h : appendSlash path = some b) :
    (str path.bytes).length ≤ 62 := by
  unfold appendSlash at h
  split at h
  · have hfit := (strcat_fits h).1
    rw [show (str (text "/")).length = 1 from rfl] at hfit
    omega
  · rename_i hr
    rw [not_not, strcmp_eq_zero_iff] at hr
    rw [hr]
    decide

/-- The prefix fits unless the directory is 63 characters long (or no string at all). -/
theorem dirPrefix_isSome_iff (currentDir out : Chars 64) :
    (dirPrefix currentDir out).isSome ↔ (str currentDir.bytes).length ≤ 62 := by
  unfold dirPrefix
  constructor
  · intro h
    obtain ⟨b, hb⟩ := Option.isSome_iff_exists.mp h
    rw [Option.bind_eq_bind, Option.bind_eq_some_iff] at hb
    obtain ⟨c, hc, hb⟩ := hb
    rw [← (strcpy_fits hc).2]
    exact appendSlash_fits hb
  · intro h
    obtain ⟨c, hc, hs⟩ := strcpy_spec out currentDir.bytes (by omega)
    obtain ⟨b, hb, _⟩ := appendSlash_spec c (by rw [hs]; exact h)
    rw [hc, Option.bind_eq_bind, Option.bind_some, hb]
    rfl

theorem dirPrefix_str {currentDir out b : Chars 64} (h : dirPrefix currentDir out = some b) :
    (str currentDir.bytes).length ≤ 62 ∧ str b.bytes = withSlash (str currentDir.bytes) := by
  unfold dirPrefix at h
  rw [Option.bind_eq_bind, Option.bind_eq_some_iff] at h
  obtain ⟨c, hc, hb⟩ := h
  have hs := (strcpy_fits hc).2
  have hlen := appendSlash_fits hb
  obtain ⟨b', hb', hbs⟩ := appendSlash_spec c hlen
  rw [hb] at hb'
  cases hb'
  rw [hs] at hlen hbs
  exact ⟨hlen, hbs⟩

/-- `63 - strlen(out_path)` does not wrap where the prefix fits. -/
theorem dirPrefix_room {currentDir out b : Chars 64} (h : dirPrefix currentDir out = some b) :
    strlen b.bytes ≤ 63 ∧ u32 (63 + 2 ^ 32 - strlen b.bytes) = 63 - strlen b.bytes := by
  obtain ⟨hlen, hs⟩ := dirPrefix_str h
  have hw := (withSlash_length (str currentDir.bytes)).1
  have : strlen b.bytes ≤ 63 := by
    rw [strlen_eq, hs]
    omega
  refine ⟨this, ?_⟩
  unfold u32
  omega

/-- An array whose string is at most 63 characters long after a NUL was put at its end. -/
theorem put_last {b : Chars 64} (h : (str b.bytes).length ≤ 63) :
    ∃ b', b.put 63 0 = some b' ∧ str b'.bytes = str b.bytes := by
  obtain ⟨b', hb', hbytes⟩ := Chars.put_eq (b := b) (i := 63) (by omega) 0
  refine ⟨b', hb', ?_⟩
  obtain ⟨t, ht⟩ := eq_str_append b.bytes (by rw [b.length_eq]; omega)
  have h0 := zero_not_mem_str b.bytes
  rw [hbytes]
  conv => lhs; rw [ht]
  rw [List.set_append_right _ _ h]
  cases hi : 63 - (str b.bytes).length with
  | zero => exact str_append_zero h0 t
  | succ k => exact str_append_zero h0 _

/-- **What `resolve_path` leaves.**  It comes back unless a relative argument meets
a `current_dir` of 63 characters, and then holds the joined path cut to 63. -/
theorem resolvePath_spec (currentDir : Chars 64) (arg : List UInt8) (out : Chars 64)
    (h : (str arg = [] ∧ (str currentDir.bytes).length ≤ 63) ∨ arg.headD 0 = ch '/' ∨
      (str currentDir.bytes).length ≤ 62) :
    ∃ b, resolvePath currentDir arg out = some b ∧
      str b.bytes = (joinPath (str currentDir.bytes) (str arg)).take 63 := by
  unfold resolvePath
  by_cases h0 : arg.headD 0 = 0
  · have ha : str arg = [] := (headD_eq_zero_iff arg).mp h0
    have hlen : (str currentDir.bytes).length ≤ 63 := by
      rcases h with ⟨_, h⟩ | h | h
      · exact h
      · rw [h0] at h
        exact absurd h (by decide)
      · omega
    obtain ⟨b, hb, hs⟩ := strcpy_spec out currentDir.bytes (by omega)
    refine ⟨b, by rw [if_pos h0, hb], ?_⟩
    rw [hs, joinPath, if_pos ha, List.take_of_length_le hlen]
  · have ha : str arg ≠ [] := fun ha => h0 ((headD_eq_zero_iff arg).mpr ha)
    rw [if_neg h0]
    by_cases h1 : arg.headD 0 = ch '/'
    · obtain ⟨b, b', hb, hb', hs⟩ := strncpy_put_spec out 0 arg 63 (by omega) (Nat.zero_le _)
      refine ⟨b', ?_, ?_⟩
      · rw [if_pos h1]
        simp only [hb, Option.bind_eq_bind, Option.bind_some]
        exact hb'
      · rw [hs, joinPath, if_neg ha, headD_str, if_pos h1]
        simp
    · have hlen : (str currentDir.bytes).length ≤ 62 := by
        rcases h with ⟨h, _⟩ | h | h
        · exact absurd h ha
        · exact absurd h h1
        · exact h
      obtain ⟨p, hp⟩ := Option.isSome_iff_exists.mp ((dirPrefix_isSome_iff currentDir out).mpr hlen)
      obtain ⟨_, hps⟩ := dirPrefix_str hp
      obtain ⟨hroom, hu⟩ := dirPrefix_room hp
      rw [strlen_eq] at hroom hu
      have hcat : (str p.bytes).length + ((str arg).take (63 - (str p.bytes).length)).length ≤ 63 :=
        by rw [List.length_take]; omega
      obtain ⟨b, hb, hbs⟩ := strncat_spec p arg (63 - (str p.bytes).length) (by omega)
      obtain ⟨b', hb', hs'⟩ := put_last (b := b) (by rw [hbs, List.length_append]; exact hcat)
      refine ⟨b', ?_, ?_⟩
      · rw [if_neg h1]
        simp only [hp, Option.bind_eq_bind, Option.bind_some, strlen_eq, hu, hb]
        exact hb'
      · rw [hs', hbs, hps, joinPath, if_neg ha, headD_str, if_neg h1, List.take_append]
        rw [hps] at hroom
        rw [List.take_of_length_le hroom]

theorem resolvePath_isSome_iff (currentDir : Chars 64) (arg : List UInt8) (out : Chars 64) :
    (resolvePath currentDir arg out).isSome ↔
      (str arg = [] ∧ (str currentDir.bytes).length ≤ 63) ∨ arg.headD 0 = ch '/' ∨
        (str currentDir.bytes).length ≤ 62 := by
  constructor
  · intro h
    unfold resolvePath at h
    by_cases h0 : arg.headD 0 = 0
    · rw [if_pos h0] at h
      obtain ⟨b, hb⟩ := Option.isSome_iff_exists.mp h
      have := (strcpy_fits hb).1
      exact .inl ⟨(headD_eq_zero_iff arg).mp h0, by omega⟩
    · by_cases h1 : arg.headD 0 = ch '/'
      · exact .inr (.inl h1)
      · rw [if_neg h0, if_neg h1] at h
        refine .inr (.inr ((dirPrefix_isSome_iff currentDir out).mp ?_))
        cases hd : dirPrefix currentDir out with
        | none => rw [hd] at h; cases h
        | some b => rfl
  · intro h
    obtain ⟨b, hb, _⟩ := resolvePath_spec currentDir arg out h
    rw [hb]
    rfl

theorem resolvePath_str {currentDir out b : Chars 64} {arg : List UInt8}
    (h : resolvePath currentDir arg out = some b) :
    str b.bytes = (joinPath (str currentDir.bytes) (str arg)).take 63 := by
  obtain ⟨b', hb', hs⟩ := resolvePath_spec currentDir arg out
    ((resolvePath_isSome_iff currentDir arg out).mp (by rw [h]; rfl))
  rw [h] at hb'
  cases hb'
  exact hs

end MiniOS
