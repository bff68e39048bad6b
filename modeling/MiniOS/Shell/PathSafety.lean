import MiniOS.Shell.Invariants

/-!
# Path buffers

`resolve_path` stays inside the caller's `char[64]` in every reachable state of
the shell, except for a relative argument once `current_dir` is 63 characters
long (`resolvePath_safe_iff`).  There the `/` it appends puts the NUL at
`out_path[64]`.  `mkd` and `goto` with an absolute path of 63 characters lead to
that state (`mkd_goto`, `resolvePath_overruns`).
-/

namespace MiniOS

open Lib

/-- `resolve_path` writes inside the array, whatever it held; `63 - strlen(out_path)`
does not wrap; and what it leaves is a string of at most 63 characters. -/
def PathSafe (currentDir : Chars 64) (arg : List UInt8) : Prop :=
  ∀ out : Chars 64, (∀ p, dirPrefix currentDir out = some p → strlen p.bytes ≤ 63) ∧
    ∃ out', resolvePath currentDir arg out = some out' ∧ 0 ∈ out'.bytes ∧ strlen out'.bytes ≤ 63

/-- **When `resolve_path` is safe.**  In every reachable state and for every
argument: an empty or absolute argument, or a `current_dir` of at most 62
characters. -/
theorem resolvePath_safe_iff {s : Shell} (h : shellMachine.Reach s) (arg : List UInt8) :
    PathSafe s.currentDir arg ↔
      (str arg = [] ∨ arg.headD 0 = ch '/' ∨ strlen s.currentDir.bytes ≤ 62) := by
  have hdir := (shell_reach_inv h).dir
  rw [strlen_eq]
  constructor
  · intro hsafe
    obtain ⟨_, out', hout, _⟩ := hsafe (Chars.uninit 64)
    rcases (resolvePath_isSome_iff s.currentDir arg (Chars.uninit 64)).mp (by rw [hout]; rfl)
      with ⟨h, _⟩ | h | h
    · exact .inl h
    · exact .inr (.inl h)
    · exact .inr (.inr h)
  · intro hcond out
    refine ⟨fun p hp => (dirPrefix_room hp).1, ?_⟩
    have hfits : (str arg = [] ∧ (str s.currentDir.bytes).length ≤ 63) ∨ arg.headD 0 = ch '/' ∨
        (str s.currentDir.bytes).length ≤ 62 := by
      rcases hcond with h | h | h
      · exact .inl ⟨h, hdir⟩
      · exact .inr (.inl h)
      · exact .inr (.inr h)
    obtain ⟨out', hout, hs⟩ := resolvePath_spec s.currentDir arg out hfits
    have hlen : (str out'.bytes).length ≤ 63 := by
      rw [hs, List.length_take]
      omega
    obtain ⟨t, ht⟩ := eq_str_append out'.bytes (by rw [out'.length_eq]; omega)
    refine ⟨out', hout, ?_, ?_⟩
    · rw [ht]
      simp
    · rw [strlen_eq]
      exact hlen

/-! ## The state that is not safe -/

/-- `mkd` and `goto` with a new absolute path of at most 63 characters. -/
theorem mkd_goto {s : Shell} (h : ShellInv s) {p : List UInt8} (h0 : 0 ∉ p)
    (hslash : p.headD 0 = ch '/') (hc : Creatable (fsMap s.table) p) :
    ∃ s₁ s₂ o₁ o₂, cmdMkd s p = some (s₁, o₁) ∧ cmdGoto s₁ p = some (s₂, o₂) ∧
      str s₂.currentDir.bytes = p ∧ fsMap s₂.table = (fsMap s.table).insert p .dir := by
  have hp : str p = p := str_of_not_mem h0
  have hlen : p.length ≤ 63 := Nat.le_of_lt_succ hc.2.1
  have hne : p.headD 0 ≠ 0 := by rw [hslash]; decide
  have hnil : p ≠ [] := by
    rintro rfl
    exact hne rfl
  -- mkd: the path is the argument, and the directory is new
  obtain ⟨path, hpath, hps⟩ :=
    resolvePath_spec s.currentDir p (Chars.uninit 64) (.inr (.inl hslash))
  rw [hp, joinPath, if_neg hnil, if_pos hslash, List.take_of_length_le hlen] at hps
  obtain ⟨r, hr, hinv, hcr⟩ := fsCreateDir_spec h.table path.bytes
  rw [hps] at hcr
  rcases hcr with ⟨_, hret, hmap⟩ | ⟨hno, _⟩
  swap
  · exact absurd hc hno
  -- goto: the same path, now a directory
  obtain ⟨b, b', hb, hb', hbs⟩ :=
    strncpy_put_spec (Chars.uninit 64) 0 p (64 - 1) (by omega) (Nat.zero_le _)
  rw [List.take_zero, List.nil_append, hp, List.take_of_length_le hlen] at hbs
  have hdots : strcmp p (text "..") ≠ 0 := by
    rw [Ne, strcmp_eq_zero_iff, hp]
    intro heq
    rw [heq] at hslash
    exact absurd hslash (by decide)
  have hgoto : gotoDir s.currentDir p (Chars.uninit 64) = some b' := by
    unfold gotoDir
    rw [if_neg hne, if_neg hdots, if_pos hslash]
    simp only [hb, Option.bind_eq_bind, Option.bind_some]
    exact hb'
  have hisdir : fsIsDir r.table b'.bytes = true := by
    rw [fsIsDir_iff, hbs, hmap, Finmap.lookup_insert]
    exact .inr rfl
  obtain ⟨dir, hd, hds⟩ := strcpy_spec s.currentDir b'.bytes (by rw [hbs]; omega)
  refine ⟨{ s with table := r.table }, { s with table := r.table, currentDir := dir },
    say (text "Directory created: " ++ str path.bytes ++ text "\n"),
    say (text "Moved to: " ++ str dir.bytes ++ text "\n"), ?_, ?_, ?_, ?_⟩
  · unfold cmdMkd
    rw [if_neg hne]
    simp only [hpath, hr, Option.bind_eq_bind, Option.bind_some, if_pos hret]
  · unfold cmdGoto
    simp only [hgoto, Option.bind_eq_bind, Option.bind_some, hisdir, hd, not_true_eq_false,
      if_false]
  · show str dir.bytes = p
    rw [hds, hbs]
  · show fsMap r.table = _
    rw [hmap]

/-- A new absolute directory can be made and gone to from boot. -/
theorem dir_reach {p : List UInt8} (h0 : 0 ∉ p) (hslash : p.headD 0 = ch '/')
    (hc : Creatable rootMap p) :
    ∃ s, shellMachine.Reach s ∧ str s.currentDir.bytes = p ∧
      fsMap s.table = rootMap.insert p .dir := by
  obtain ⟨s, hreach, _, hmap⟩ := boot_reach
  rw [← hmap] at hc ⊢
  obtain ⟨s₁, s₂, o₁, o₂, hmkd, hgoto, hdir, hmap₂⟩ := mkd_goto (shell_reach_inv hreach) h0 hslash hc
  have hlegal : (str p).length ≤ 255 := by
    rw [str_of_not_mem h0]
    exact Nat.le_trans (Nat.le_of_lt hc.2.1) (by decide)
  have hreach₁ : shellMachine.Reach s₁ :=
    shell_reach_run (e := ⟨.mkd, p, []⟩) (r := ⟨s₁, o₁, []⟩) hreach hlegal
      (by show (cmdMkd _ _).map _ = _; rw [hmkd]; rfl)
  have hreach₂ : shellMachine.Reach s₂ :=
    shell_reach_run (e := ⟨.goto, p, []⟩) (r := ⟨s₂, o₂, []⟩) hreach₁ hlegal
      (by show (cmdGoto _ _).map _ = _; rw [hgoto]; rfl)
  exact ⟨s₂, hreach₂, hdir, hmap₂⟩

/-- A directory name of 63 characters. -/
def longDir : List UInt8 := text "/" ++ List.replicate 62 (ch 'a')

theorem resolvePath_safe_iff_boot : ∃ s : Shell, PathSafe s.currentDir (text "notes.txt") := by
  obtain ⟨s, hs, hdir, _⟩ := boot_reach
  refine ⟨s, (resolvePath_safe_iff hs (text "notes.txt")).mpr (.inr (.inr ?_))⟩
  rw [strlen_eq, hdir]
  decide

/-- After `mkd` and `goto` with 63 characters, a relative path overruns its buffer. -/
theorem resolvePath_overruns :
    ∃ s, shellMachine.Reach s ∧ (str (text "b")).length ≤ 255 ∧
      ∀ out, resolvePath s.currentDir (text "b") out = none := by
  obtain ⟨s, hs, hdir, _⟩ := dir_reach (p := longDir) (by decide) (by decide) (by decide)
  refine ⟨s, hs, by decide, fun out => ?_⟩
  rw [← Option.not_isSome_iff_eq_none, resolvePath_isSome_iff, hdir]
  decide

end MiniOS
