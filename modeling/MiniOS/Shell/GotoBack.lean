import MiniOS.Shell.PathTree

/-!
# Down and up again

`goto d` builds the path with a `/` in front of `d` unless the directory ends
in one, within 63 characters; `goto ..` cuts it at its last `/`.  That gives the
directory back exactly if it does not end in a `/` and has room for one behind
it (`gotoPath_back_iff` for the paths, `goto_back_iff` for the commands).
-/

namespace MiniOS

open Lib

/-! ## The paths -/

/-- The last component is cut off. -/
theorem gotoPath_up {u v : List UInt8} (h0 : 0 ∉ u ++ ch '/' :: v) (hv : ch '/' ∉ v) (hu : u ≠ []) :
    gotoPath (u ++ ch '/' :: v) (text "..") = u := by
  have hne : ∀ w, ch '/' ∉ w → u ++ ch '/' :: v ≠ [] ++ ch '/' :: w :=
    fun w hw h => hu (append_slash_inj hv hw h).1
  unfold gotoPath
  rw [if_neg (by decide), if_pos rfl, if_neg, parentPath_append h0 hv, if_neg hu]
  rintro (h | h)
  · exact hne [] List.not_mem_nil h
  · exact hne (text "root") (by decide) h

theorem exists_of_getLast? {dir : List UInt8} (h : dir.getLast? = some (ch '/')) :
    ∃ u, dir = u ++ [ch '/'] :=
  ⟨dir.dropLast, (List.dropLast_append_getLast? _ h).symm⟩

theorem gotoPath_back_iff {dir d : List UInt8} (h0 : 0 ∉ dir) (h0d : 0 ∉ d)
    (habs : dir.headD 0 = ch '/') (hlen : dir.length ≤ 63) (hroot : dir ≠ text "/") (hd : d ≠ [])
    (hslash : ch '/' ∉ d) (hdots : d ≠ text "..") :
    gotoPath (gotoPath dir d) (text "..") = dir ↔
      dir.length ≤ 62 ∧ dir.getLast? ≠ some (ch '/') := by
  have hrel : d.headD 0 ≠ ch '/' := by
    cases d with
    | nil => exact absurd rfl hd
    | cons c d => exact fun h => hslash (List.mem_cons.mpr (.inl h.symm))
  have hkept : ∀ k, ch '/' ∉ d.take k := fun k h => hslash (List.mem_of_mem_take h)
  have hzero : ∀ u k, 0 ∉ u → 0 ∉ u ++ ch '/' :: d.take k := by
    intro u k hu h
    rcases List.mem_append.mp h with h | h
    · exact hu h
    · rcases List.mem_cons.mp h with h | h
      · exact absurd h (by decide)
      · exact h0d (List.mem_of_mem_take h)
  rw [gotoPath_relative hd hdots hrel]
  by_cases hroom : dir.length ≤ 62
  · by_cases hsl : dir.getLast? = some (ch '/')
    · -- the `/` the directory ends in is cut off as well
      obtain ⟨u, rfl⟩ := exists_of_getLast? hsl
      rw [List.mem_append, not_or] at h0
      have hu : u ≠ [] := by
        rintro rfl
        exact hroot rfl
      refine iff_of_false ?_ fun h => h.2 hsl
      rw [endSlash, if_pos hsl, List.take_append, List.take_of_length_le hlen, List.append_assoc,
        List.singleton_append, gotoPath_up (hzero u _ h0.1) (hkept _) hu]
      intro h
      have hl := congrArg List.length h
      rw [List.length_append, List.length_singleton] at hl
      omega
    · refine iff_of_true ?_ ⟨hroom, hsl⟩
      have hlen' : (dir ++ text "/").length ≤ 63 := by
        rw [List.length_append, show (text "/").length = 1 from rfl]
        omega
      rw [endSlash, if_neg hsl, List.take_append, List.take_of_length_le hlen', List.append_assoc]
      exact gotoPath_up (hzero dir _ h0) (hkept _) (ne_nil_of_slash habs)
  · -- nothing is appended, so the directory itself is cut
    refine iff_of_false ?_ fun h => hroom h.1
    have hfull : (endSlash dir ++ d).take 63 = dir := by
      unfold endSlash
      split
      · rw [List.take_append_of_le_length (by omega), List.take_of_length_le hlen]
      · rw [List.append_assoc, List.take_append_of_le_length (by omega), List.take_of_length_le hlen]
    have hhome : dir ≠ text "/root" := by
      rintro rfl
      exact hroom (by decide)
    rw [hfull, gotoPath, if_neg (by decide), if_pos rfl, if_neg (not_or.mpr ⟨hroot, hhome⟩)]
    exact fun h => hroot (parentPath_eq_self h0 habs h)

/-! ## The commands -/

/-- `goto arg` says that it moved. -/
def Shell.Moves (s : Shell) (arg : List UInt8) (s₁ : Shell) : Prop :=
  cmdGoto s arg = some (s₁, say (text "Moved to: " ++ str s₁.currentDir.bytes ++ text "\n"))

theorem Shell.Moves.spec {s s₁ : Shell} {arg : List UInt8} (hmove : s.Moves arg s₁)
    (habs : (str s.currentDir.bytes).headD 0 = ch '/') (hlen : (str s.currentDir.bytes).length ≤ 63) :
    s₁.table = s.table ∧
      str s₁.currentDir.bytes = gotoPath (str s.currentDir.bytes) (str arg) := by
  obtain ⟨b, hb, hbs⟩ := gotoDir_spec arg (Chars.uninit 64) habs hlen
  unfold Shell.Moves cmdGoto at hmove
  simp only [hb, Option.bind_eq_bind, Option.bind_some] at hmove
  split at hmove
  · have hout := congrArg Prod.snd (Option.some.inj hmove)
    simp only [List.append_assoc] at hout
    exact absurd hout (say_append_ne _ _ (by decide) (by decide) (by decide))
  · obtain ⟨dir, hcopy, hmove⟩ := Option.bind_eq_some_iff.mp hmove
    have hs := congrArg Prod.fst (Option.some.inj hmove)
    subst hs
    exact ⟨rfl, (strcpy_fits hcopy).2.trans hbs⟩

/-- `goto` to a directory that exists. -/
theorem moves_of_lookup {s : Shell} (arg : List UInt8)
    (habs : (str s.currentDir.bytes).headD 0 = ch '/') (hlen : (str s.currentDir.bytes).length ≤ 63)
    (hdir : (fsMap s.table).lookup (gotoPath (str s.currentDir.bytes) (str arg)) = some .dir) :
    ∃ s₁, s.Moves arg s₁ := by
  obtain ⟨s₁, hgoto, hs₁⟩ := cmdGoto_moves habs hlen hdir
  exact ⟨s₁, by rw [Shell.Moves, hgoto, hs₁]⟩

/-- **Down and up.**  After `goto d`, `goto ..` comes back exactly if the directory
does not end in a `/` and leaves room for one. -/
theorem goto_back_iff {s s₁ : Shell} (h : shellMachine.Reach s)
    (hdir : fsIsDir s.table s.currentDir.bytes) (hroot : str s.currentDir.bytes ≠ text "/")
    {d : List UInt8} (hd : str d ≠ []) (hslash : ch '/' ∉ str d) (hdots : str d ≠ text "..")
    (hmove : s.Moves d s₁) :
    (∃ s₂, s₁.Moves (text "..") s₂ ∧ str s₂.currentDir.bytes = str s.currentDir.bytes) ↔
      strlen s.currentDir.bytes ≤ 62 ∧ (str s.currentDir.bytes).getLast? ≠ some (ch '/') := by
  have hlen := (shell_reach_inv h).dir
  have habs := shell_reach_absolute h
  obtain ⟨htab, hdown⟩ := hmove.spec habs hlen
  have habs₁ : (str s₁.currentDir.bytes).headD 0 = ch '/' := by
    rw [hdown]
    exact gotoPath_headD (zero_not_mem_str _) habs _
  have hlen₁ : (str s₁.currentDir.bytes).length ≤ 63 := by
    rw [hdown]
    exact gotoPath_length hlen _
  have hback := gotoPath_back_iff (zero_not_mem_str _) (zero_not_mem_str d) habs hlen hroot hd
    hslash hdots
  rw [← hdown] at hback
  rw [strlen_eq, ← hback]
  constructor
  · rintro ⟨s₂, hup, hsame⟩
    rw [← hsame]
    exact (hup.spec habs₁ hlen₁).2.symm
  · intro hpath
    have hlook : (fsMap s₁.table).lookup (gotoPath (str s₁.currentDir.bytes) (str (text ".."))) =
        some .dir := by
      rw [show str (text "..") = text ".." by decide, hpath, htab]
      exact ((fsIsDir_iff _ _).mp hdir).resolve_left hroot
    obtain ⟨s₂, hup⟩ := moves_of_lookup (text "..") habs₁ hlen₁ hlook
    exact ⟨s₂, hup, (hup.spec habs₁ hlen₁).2.trans hpath⟩

/-- `goto docs` and `goto ..` from `/root`. -/
theorem goto_back_iff_docs : ∃ s s₁ s₂, shellMachine.Reach s ∧ s.Moves (text "docs") s₁ ∧
    s₁.Moves (text "..") s₂ ∧ str s₂.currentDir.bytes = text "/root" := by
  obtain ⟨s, hboot, hhome, hmap⟩ := boot_reach
  obtain ⟨t, hmkd, _, hmap'⟩ := cmdMkd_creates (shell_reach_inv hboot).table
    (p := text "/root/docs") (show str (text "docs") ≠ [] by decide) (.inr (by rw [hhome]; decide))
    (by unfold Shell.path; rw [hhome]; decide) (by rw [hmap]; decide)
  rw [hmap] at hmap'
  have hreach : shellMachine.Reach { s with table := t } :=
    shell_reach_run (e := ⟨.mkd, text "docs", []⟩) (r := ⟨_, _, []⟩) hboot
      (show (str (text "docs")).length ≤ 255 by decide)
      (by show (cmdMkd _ _).map _ = _; rw [hmkd]; rfl)
  obtain ⟨s₁, hdown⟩ := moves_of_lookup (s := { s with table := t }) (text "docs")
    (shell_reach_absolute hreach) (shell_reach_inv hreach).dir (by rw [hhome, hmap']; decide)
  obtain ⟨s₂, hup, hback⟩ := (goto_back_iff hreach
    (by rw [fsIsDir_iff, hhome, hmap']; decide) (by rw [hhome]; decide) (by decide) (by decide)
    (by decide) hdown).mpr ⟨by rw [strlen_eq, hhome]; decide, by rw [hhome]; decide⟩
  exact ⟨_, s₁, s₂, hreach, hdown, hup, hback.trans hhome⟩

/-- From a directory of 63 characters `goto b` goes nowhere, and `goto ..` to the root. -/
theorem goto_not_back : ∃ s s₁ d, shellMachine.Reach s ∧ fsIsDir s.table s.currentDir.bytes ∧
    str s.currentDir.bytes ≠ text "/" ∧ str d ≠ [] ∧ ch '/' ∉ str d ∧ str d ≠ text ".." ∧
      s.Moves d s₁ ∧
      ∀ s₂, s₁.Moves (text "..") s₂ → str s₂.currentDir.bytes ≠ str s.currentDir.bytes := by
  obtain ⟨s, hreach, hdir, hmap⟩ := dir_reach (p := longDir) (by decide) (by decide) (by decide)
  have hlook : (fsMap s.table).lookup (gotoPath (str s.currentDir.bytes) (str (text "b"))) =
      some .dir := by
    rw [hdir, hmap]
    decide
  obtain ⟨s₁, hdown⟩ := moves_of_lookup (text "b") (shell_reach_absolute hreach)
    (shell_reach_inv hreach).dir hlook
  obtain ⟨_, hdir₁⟩ := hdown.spec (shell_reach_absolute hreach) (shell_reach_inv hreach).dir
  rw [hdir, show gotoPath _ _ = longDir by decide] at hdir₁
  refine ⟨s, s₁, text "b", hreach, ?_, by rw [hdir]; decide, by decide, by decide, by decide, hdown,
    ?_⟩
  · rw [fsIsDir_iff, hdir, hmap]
    decide
  · intro s₂ hup
    rw [(hup.spec (by rw [hdir₁]; decide) (by rw [hdir₁]; decide)).2, hdir₁, hdir]
    decide

end MiniOS
