import MiniOS.Shell.CommandChanges
import MiniOS.Shell.PathSafety

/-!
# `goto` and the current directory

`gotoDir_spec` is the directory `cmd_goto` builds: of the four branches the last
joins `current_dir` and the argument with a test of its own, for a `/` at the
end where `resolve_path` asks for the string `/` (`endSlash`, `withSlash`).
`current_dir` begins with `/` in every reachable state (`shell_reach_absolute`).

So `goto` and the commands that resolve their path agree on an absolute argument,
and on a relative one unless `current_dir` ends in `/` without being the root, or
has 63 characters (`goto_agrees_iff`).  `mkd /a/` and `goto /a/` lead to the first.
-/

namespace MiniOS

open Lib

/-! ## The parent -/

/-- The path up to its last `/`, or the root. -/
def parentPath (path : List UInt8) : List UInt8 :=
  match strrchr path (ch '/') with
  | some i => if i = 0 then text "/" else path.take i
  | none => text "/"

theorem append_slash_inj {u v u' v' : List UInt8} (hv : ch '/' ∉ v) (hv' : ch '/' ∉ v')
    (h : u ++ ch '/' :: v = u' ++ ch '/' :: v') : u = u' ∧ v = v' := by
  have hrev : ∀ {x y : List UInt8}, ch '/' ∉ y →
      (x ++ ch '/' :: y).reverse.takeWhile (· ≠ ch '/') = y.reverse := by
    intro x y hy
    rw [List.reverse_append, List.reverse_cons, List.append_assoc, List.takeWhile_append_of_pos]
    · simp
    · intro c hc
      rw [List.mem_reverse] at hc
      have : c ≠ ch '/' := by
        rintro rfl
        exact hy hc
      simpa using this
  have hvv : v = v' := by
    have := hrev (x := u) hv
    rw [h, hrev hv'] at this
    exact (List.reverse_injective this).symm
  subst hvv
  exact ⟨List.append_cancel_right h, rfl⟩

/-- The last `/` of a string, in whatever array it is. -/
theorem strrchr_slash {s u v : List UInt8} (hs : str s = u ++ ch '/' :: v) (hv : ch '/' ∉ v) :
    strrchr s (ch '/') = some u.length := by
  rcases strrchr_spec s (c := ch '/') (by decide) with ⟨_, h2⟩ | ⟨u', v', h1, h2, h3⟩
  · refine absurd ?_ h2
    rw [hs]
    simp
  · rw [hs] at h1
    rw [h3, (append_slash_inj hv h2 h1).1]

theorem parentPath_append {u v : List UInt8} (h0 : 0 ∉ u ++ ch '/' :: v) (hv : ch '/' ∉ v) :
    parentPath (u ++ ch '/' :: v) = if u = [] then text "/" else u := by
  unfold parentPath
  rw [strrchr_slash (str_of_not_mem h0) hv]
  simp only [List.length_eq_zero_iff, List.take_left']

/-- Every absolute path is cut at its last `/`. -/
theorem exists_append_slash {path : List UInt8} (h : path.headD 0 = ch '/') :
    ∃ u v, path = u ++ ch '/' :: v ∧ ch '/' ∉ v := by
  have hmem : ch '/' ∈ path := by
    cases path with
    | nil => exact absurd h (by decide)
    | cons c path => exact h ▸ List.mem_cons_self
  have hrev : ch '/' ∈ path.reverse := List.mem_reverse.mpr hmem
  obtain ⟨v, u, hvu, hv⟩ := List.eq_append_cons_of_mem hrev
  refine ⟨u.reverse, v.reverse, ?_, fun hm => hv (List.mem_reverse.mp hm)⟩
  have := congrArg List.reverse hvu
  rw [List.reverse_reverse] at this
  rw [this]
  simp

theorem parentPath_headD {path : List UInt8} (h0 : 0 ∉ path) (h : path.headD 0 = ch '/') :
    (parentPath path).headD 0 = ch '/' := by
  obtain ⟨u, v, rfl, hv⟩ := exists_append_slash h
  rw [parentPath_append h0 hv]
  split
  · rfl
  · rename_i hu
    obtain ⟨c, u, rfl⟩ := List.exists_cons_of_ne_nil hu
    exact h

/-! ## The directory `goto` builds -/

/-- A `/` behind the directory, unless it ends in one. -/
def endSlash (dir : List UInt8) : List UInt8 :=
  if dir.getLast? = some (ch '/') then dir else dir ++ text "/"

/-- Where `goto` wants to go. -/
def gotoPath (dir arg : List UInt8) : List UInt8 :=
  if arg = [] then text "/root"
  else if arg = text ".." then
    if dir = text "/" ∨ dir = text "/root" then dir else parentPath dir
  else if arg.headD 0 = ch '/' then arg.take 63
  else (endSlash dir ++ arg).take 63

/-- A relative path that is not `..` is joined to the directory. -/
theorem gotoPath_relative {dir arg : List UInt8} (hne : arg ≠ []) (hdots : arg ≠ text "..")
    (hrel : arg.headD 0 ≠ ch '/') : gotoPath dir arg = (endSlash dir ++ arg).take 63 := by
  unfold gotoPath
  rw [if_neg hne, if_neg hdots, if_neg hrel]

/-- A NUL put inside of the string cuts it. -/
theorem put_cut {n : Nat} {b : Chars n} {i : Nat} (hi : i < n) (h : i ≤ (str b.bytes).length) :
    ∃ b', b.put i 0 = some b' ∧ str b'.bytes = (str b.bytes).take i := by
  obtain ⟨b', hb', _⟩ := Chars.put_eq (b := b) hi 0
  refine ⟨b', hb', ?_⟩
  have hw : b.write i ([] ++ [0]) = some b' := by
    rw [List.nil_append, Chars.write_singleton, hb']
  rw [Chars.str_write (by simp) h hw, List.append_nil]

theorem parentDir_spec {currentDir : Chars 64} (out : Chars 64)
    (habs : (str currentDir.bytes).headD 0 = ch '/') (hlen : (str currentDir.bytes).length ≤ 63) :
    ∃ b, parentDir currentDir out = some b ∧
      str b.bytes = gotoPath (str currentDir.bytes) (text "..") := by
  obtain ⟨c, hc, hcs⟩ := strcpy_spec out currentDir.bytes (by omega)
  have hcmp : ∀ {p : List UInt8}, str p = p → (strcmp c.bytes p = 0 ↔ str currentDir.bytes = p) := by
    intro p hp
    rw [strcmp_eq_zero_iff, hcs, hp]
  have hroot := hcmp (p := text "/") (by decide)
  have hhome := hcmp (p := text "/root") (by decide)
  have hpath : gotoPath (str currentDir.bytes) (text "..") =
      if str currentDir.bytes = text "/" ∨ str currentDir.bytes = text "/root"
      then str currentDir.bytes else parentPath (str currentDir.bytes) := by
    unfold gotoPath
    rw [if_neg (show ¬ text ".." = [] by decide), if_pos rfl]
  rw [hpath]
  unfold parentDir
  rw [hc, Option.bind_eq_bind, Option.bind_some]
  by_cases htop : str currentDir.bytes = text "/" ∨ str currentDir.bytes = text "/root"
  · rw [if_pos htop, if_neg]
    · exact ⟨c, rfl, hcs⟩
    · rintro ⟨h1, h2⟩
      rcases htop with h | h
      · exact h1 (hroot.mpr h)
      · exact h2 (hhome.mpr h)
  · rw [not_or] at htop
    obtain ⟨u, v, huv, hv⟩ := exists_append_slash habs
    have h0 : 0 ∉ u ++ ch '/' :: v := by
      rw [← huv]
      exact zero_not_mem_str _
    rw [if_pos ⟨fun h => htop.1 (hroot.mp h), fun h => htop.2 (hhome.mp h)⟩,
      if_neg (by rw [not_or]; exact htop)]
    simp only [strrchr_slash (by rw [hcs, huv]) hv]
    rw [huv, parentPath_append h0 hv]
    by_cases hu : u = []
    · subst hu
      obtain ⟨b, hb, hbs⟩ := strcpy_spec c (text "/") (by decide)
      exact ⟨b, hb, by rw [hbs]; rfl⟩
    · have hul : u.length ≠ 0 := fun h => hu (List.length_eq_zero_iff.mp h)
      have hfit : u.length ≤ (str c.bytes).length := by
        rw [hcs, huv, List.length_append]
        omega
      obtain ⟨b, hb, hbs⟩ := put_cut (b := c) (i := u.length) (by rw [hcs] at hfit; omega) hfit
      rw [if_pos hul, if_neg hu]
      refine ⟨b, hb, ?_⟩
      rw [hbs, hcs, huv, List.take_left]

theorem childDir_spec {currentDir : Chars 64} (out : Chars 64) (arg : List UInt8)
    (habs : (str currentDir.bytes).headD 0 = ch '/') (hlen : (str currentDir.bytes).length ≤ 63) :
    ∃ b, childDir currentDir arg out = some b ∧
      str b.bytes = (endSlash (str currentDir.bytes) ++ str arg).take 63 := by
  obtain ⟨c, hc, hcs⟩ := strcpy_spec out currentDir.bytes (by omega)
  have hne : str currentDir.bytes ≠ [] := by
    intro h
    rw [h] at habs
    exact absurd habs (by decide)
  have hpos : 0 < (str currentDir.bytes).length := List.length_pos_iff.mpr hne
  have hcl : (str c.bytes).length = (str currentDir.bytes).length := by rw [hcs]
  -- the last character, read from the array
  have hlast : c.get ((str c.bytes).length - 1) = ch '/' ↔
      (str currentDir.bytes).getLast? = some (ch '/') := by
    have hget : c.get ((str c.bytes).length - 1) = (str currentDir.bytes).getLast hne := by
      rw [c.get_eq_str (by omega), List.getLast_eq_getElem]
      simp only [hcs]
    rw [hget, List.getLast?_eq_some_getLast hne, Option.some.injEq]
  have hcat : ∀ p : Chars 64, (str p.bytes).length ≤ 63 →
      ∃ b, strncat p arg (u32 (64 + 2 ^ 32 - strlen p.bytes - 1)) = some b ∧
        str b.bytes = (str p.bytes ++ str arg).take 63 := by
    intro p hp
    have hu : u32 (64 + 2 ^ 32 - strlen p.bytes - 1) = 63 - (str p.bytes).length := by
      rw [strlen_eq]
      unfold u32
      omega
    rw [hu]
    obtain ⟨b, hb, hbs⟩ := strncat_spec p arg (63 - (str p.bytes).length)
      (by rw [List.length_take]; omega)
    refine ⟨b, hb, ?_⟩
    rw [hbs, List.take_append, List.take_of_length_le hp]
  unfold childDir endSlash
  rw [hc, Option.bind_eq_bind, Option.bind_some]
  simp only [strlen_eq]
  rw [if_neg (by omega)]
  by_cases hsl : (str currentDir.bytes).getLast? = some (ch '/')
  · rw [if_neg (not_not.mpr (hlast.mpr hsl)), if_pos hsl]
    obtain ⟨b, hb, hbs⟩ := hcat c (by omega)
    rw [strlen_eq] at hb
    exact ⟨b, hb, by rw [hbs, hcs]⟩
  · rw [if_pos (fun h => hsl (hlast.mp h)), if_neg hsl]
    have hu : u32 (64 + 2 ^ 32 - (str c.bytes).length - 1) = 63 - (str c.bytes).length := by
      unfold u32
      omega
    obtain ⟨p, hp, hps⟩ := strncat_spec c (text "/") (63 - (str c.bytes).length)
      (by rw [List.length_take]; omega)
    rw [hu, hp]
    have hpl : (str p.bytes).length ≤ 63 := by
      rw [hps, List.length_append, List.length_take]
      omega
    obtain ⟨b, hb, hbs⟩ := hcat p hpl
    rw [strlen_eq] at hb
    refine ⟨b, hb, ?_⟩
    rw [hbs, hps, hcs, show str (text "/") = text "/" by decide]
    -- with 63 characters nothing is appended, and nothing shows behind them
    by_cases h63 : (str currentDir.bytes).length = 63
    · rw [h63, Nat.sub_self, List.take_zero, List.append_nil, List.append_assoc,
        List.take_append_of_le_length (by omega), List.take_append_of_le_length (by omega)]
    · rw [List.take_of_length_le (l := text "/")
        (by rw [show (text "/").length = 1 from rfl]; omega)]

/-- **Where `goto` goes.** -/
theorem gotoDir_spec {currentDir : Chars 64} (arg : List UInt8) (out : Chars 64)
    (habs : (str currentDir.bytes).headD 0 = ch '/') (hlen : (str currentDir.bytes).length ≤ 63) :
    ∃ b, gotoDir currentDir arg out = some b ∧
      str b.bytes = gotoPath (str currentDir.bytes) (str arg) := by
  have hdots : strcmp arg (text "..") = 0 ↔ str arg = text ".." := by
    rw [strcmp_eq_zero_iff]
    exact Iff.rfl
  unfold gotoDir
  by_cases h0 : arg.headD 0 = 0
  · rw [if_pos h0, (headD_eq_zero_iff arg).mp h0]
    obtain ⟨b, hb, hbs⟩ := strcpy_spec out (text "/root") (by decide)
    exact ⟨b, hb, by rw [hbs]; rfl⟩
  rw [if_neg h0]
  have ha := str_ne_nil h0
  by_cases h1 : str arg = text ".."
  · rw [if_pos (hdots.mpr h1), h1]
    exact parentDir_spec out habs hlen
  rw [if_neg (fun h => h1 (hdots.mp h))]
  unfold gotoPath
  rw [if_neg ha, if_neg h1, headD_str]
  by_cases h2 : arg.headD 0 = ch '/'
  · rw [if_pos h2, if_pos h2]
    obtain ⟨b, b', hb, hb', hs⟩ := strncpy_put_spec out 0 arg (64 - 1) (by omega) (Nat.zero_le _)
    refine ⟨b', ?_, by rw [hs]; rfl⟩
    rw [hb, Option.bind_eq_bind, Option.bind_some]
    exact hb'
  · rw [if_neg h2, if_neg h2]
    exact childDir_spec out arg habs hlen

theorem ne_nil_of_slash {dir : List UInt8} (h : dir.headD 0 = ch '/') : dir ≠ [] := by
  rintro rfl
  exact absurd h (by decide)

theorem gotoPath_headD {dir : List UInt8} (h0 : 0 ∉ dir) (h : dir.headD 0 = ch '/')
    (arg : List UInt8) : (gotoPath dir arg).headD 0 = ch '/' := by
  unfold gotoPath
  split
  · rfl
  split
  · split
    · exact h
    · exact parentPath_headD h0 h
  split
  · rename_i ha
    rw [headD_take (by decide)]
    exact ha
  · have hne := ne_nil_of_slash h
    rw [headD_take (by decide)]
    unfold endSlash
    split
    · rw [headD_append hne, h]
    · rw [List.append_assoc, headD_append hne, h]

theorem parentPath_length (path : List UInt8) : (parentPath path).length ≤ max 1 path.length := by
  unfold parentPath
  split
  · split
    · exact Nat.le_max_left 1 _
    · rw [List.length_take]
      omega
  · exact Nat.le_max_left 1 _

theorem gotoPath_length {dir : List UInt8} (hlen : dir.length ≤ 63) (arg : List UInt8) :
    (gotoPath dir arg).length ≤ 63 := by
  unfold gotoPath
  split
  · decide
  split
  · split
    · exact hlen
    · have := parentPath_length dir
      omega
  split <;> rw [List.length_take] <;> omega

/-- **`current_dir` is absolute** in every reachable state. -/
theorem shell_reach_absolute {s : Shell} (h : shellMachine.Reach s) :
    (str s.currentDir.bytes).headD 0 = ch '/' := by
  refine (h.invariant (I := fun s => ShellInv s ∧ (str s.currentDir.bytes).headD 0 = ch '/')
    ?_ ?_).2
  · rintro _ ⟨t, ht, rfl⟩
    refine ⟨shell_reach_inv (Machine.Reach.init ⟨t, ht, rfl⟩), ?_⟩
    show (str bootDir.bytes).headD 0 = ch '/'
    rw [bootDir_str]
    rfl
  · rintro s e o s' ⟨hinv, habs⟩ _ hs
    obtain ⟨r, hr, hrs⟩ := Option.map_eq_some_iff.mp hs
    cases hrs
    refine ⟨run_shellInv hr hinv, ?_⟩
    by_cases hcmd : e.cmd = .goto
    · obtain ⟨cmd, arg, keys⟩ := e
      subst hcmd
      obtain ⟨r', hr', rfl⟩ := Option.map_eq_some_iff.mp hr
      show (str r'.1.currentDir.bytes).headD 0 = ch '/'
      obtain ⟨_, hdir | ⟨newDir, hnew, _, hdir⟩⟩ := goto_cases hr'
      · rw [hdir]
        exact habs
      · obtain ⟨b, hb, hbs⟩ := gotoDir_spec arg (Chars.uninit 64) habs hinv.dir
        rw [hnew] at hb
        cases hb
        rw [hdir, hbs]
        exact gotoPath_headD (zero_not_mem_str _) habs _
    · rw [run_currentDir hr hcmd]
      exact habs

/-! ## `mkd` and `goto` -/

/-- The two joins of a directory and a relative argument. -/
theorem joins_eq_iff {dir arg : List UInt8} (hlen : dir.length ≤ 62) (hne : arg ≠ [])
    (hrel : arg.headD 0 ≠ ch '/') :
    (endSlash dir ++ arg).take 63 = (withSlash dir ++ arg).take 63 ↔
      dir = text "/" ∨ dir.getLast? ≠ some (ch '/') := by
  unfold endSlash withSlash
  by_cases hroot : dir = text "/"
  · subst hroot
    exact iff_of_true rfl (.inl rfl)
  rw [if_neg hroot]
  by_cases hsl : dir.getLast? = some (ch '/')
  · rw [if_pos hsl]
    refine iff_of_false ?_ ?_
    · intro heq
      -- behind the directory the one has the argument, the other a `/`
      have hget := congrArg (·[dir.length]?) heq
      obtain ⟨c, arg, rfl⟩ := List.exists_cons_of_ne_nil hne
      rw [List.append_assoc] at hget
      simp only [List.getElem?_take, if_pos (show dir.length < 63 by omega),
        List.getElem?_append_right (Nat.le_refl _), Nat.sub_self] at hget
      exact hrel (Option.some.inj hget)
    · rintro (h | h)
      · exact hroot h
      · exact h hsl
  · rw [if_neg hsl]
    exact iff_of_true rfl (.inr hsl)

/-- Texts that begin with different characters are told apart. -/
theorem say_append_ne {a b : List UInt8} (c d : List UInt8) (hhead : a.headD 0 ≠ b.headD 0)
    (ha : a ≠ []) (hb : b ≠ []) : say (a ++ c) ≠ say (b ++ d) := by
  intro heq
  have hab : a ++ c = b ++ d := TerminalCall.writestring.inj (List.cons.inj heq).1
  have hsame := congrArg (fun l => l.headD 0) hab
  rw [headD_append ha, headD_append hb] at hsame
  exact hhead hsame

/-- `mkd` says that it made the directory exactly if it did. -/
theorem cmdMkd_created {s s₁ : Shell} (h : TableInv s.table) {arg p : List UInt8}
    (hr : cmdMkd s arg = some (s₁, say (text "Directory created: " ++ p ++ text "\n"))) :
    p = s.path arg ∧ s₁.currentDir = s.currentDir ∧ TableInv s₁.table ∧
      fsMap s₁.table = (fsMap s.table).insert p .dir := by
  unfold cmdMkd at hr
  split at hr
  · have := congrArg Prod.snd (Option.some.inj hr)
    rw [List.append_assoc, ← List.append_nil (text "Usage: mkd [dir]\n")] at this
    exact absurd this (say_append_ne _ _ (by decide) (by decide) (by decide))
  · simp only [Option.bind_eq_bind, Option.bind_eq_some_iff] at hr
    obtain ⟨path, hp, c, hc, hr⟩ := hr
    obtain ⟨hinv, hcase⟩ := fsCreateDir_creates h hc
    rcases hcase with ⟨_, hret, hmap⟩ | ⟨_, hret, _⟩
    · rw [if_pos hret] at hr
      have hs := congrArg Prod.fst (Option.some.inj hr)
      have ho := congrArg Prod.snd (Option.some.inj hr)
      subst hs
      have hpath : str path.bytes = p := by
        have := TerminalCall.writestring.inj (List.cons.inj ho).1
        rw [List.append_assoc, List.append_assoc] at this
        exact List.append_cancel_right (List.append_cancel_left this)
      rw [← hpath]
      exact ⟨resolvePath_str hp, rfl, hinv, hmap⟩
    · rw [if_neg (by rw [hret]; decide)] at hr
      have := congrArg Prod.snd (Option.some.inj hr)
      simp only [List.append_assoc] at this
      exact absurd this (say_append_ne _ _ (by decide) (by decide) (by decide))

/-- `mkd` of a path that is resolved and can be created. -/
theorem cmdMkd_creates {s : Shell} (h : TableInv s.table) {arg : List UInt8} (hne : str arg ≠ [])
    (hfits : arg.headD 0 = ch '/' ∨ (str s.currentDir.bytes).length ≤ 62) {p : List UInt8}
    (hp : s.path arg = p) (hc : Creatable (fsMap s.table) p) :
    ∃ t, cmdMkd s arg = some ({ s with table := t },
        say (text "Directory created: " ++ p ++ text "\n")) ∧
      TableInv t ∧ fsMap t = (fsMap s.table).insert p .dir := by
  obtain ⟨path, hpath, hps⟩ := resolvePath_spec s.currentDir arg (Chars.uninit 64) (.inr hfits)
  have hps' : str path.bytes = p := by rw [hps, ← hp]; rfl
  obtain ⟨r, hr, hinv, hcase⟩ := fsCreateDir_spec h path.bytes
  rw [hps'] at hcase
  rcases hcase with ⟨_, hret, hmap⟩ | ⟨hno, _⟩
  · refine ⟨r.table, ?_, hinv, hmap⟩
    unfold cmdMkd
    rw [if_neg (fun h0 => hne ((headD_eq_zero_iff arg).mp h0)), hpath]
    simp only [hr, Option.bind_eq_bind, Option.bind_some, if_pos hret, hps']
  · exact absurd hc hno

/-- `goto` to a directory of the table. -/
theorem cmdGoto_moves {s : Shell} {arg : List UInt8}
    (habs : (str s.currentDir.bytes).headD 0 = ch '/') (hlen : (str s.currentDir.bytes).length ≤ 63)
    (hdir : (fsMap s.table).lookup (gotoPath (str s.currentDir.bytes) (str arg)) = some .dir) :
    ∃ s₂, cmdGoto s arg =
        some (s₂, say (text "Moved to: " ++ gotoPath (str s.currentDir.bytes) (str arg) ++
          text "\n")) ∧
      str s₂.currentDir.bytes = gotoPath (str s.currentDir.bytes) (str arg) := by
  obtain ⟨b, hb, hbs⟩ := gotoDir_spec arg (Chars.uninit 64) habs hlen
  have hisdir : fsIsDir s.table b.bytes = true := by
    rw [fsIsDir_iff, hbs]
    exact .inr hdir
  obtain ⟨dir, hd, hds⟩ := strcpy_spec s.currentDir b.bytes
    (by rw [hbs]; exact Nat.lt_succ_of_le (gotoPath_length hlen _))
  refine ⟨{ s with currentDir := dir }, ?_, ?_⟩
  · unfold cmdGoto
    simp only [hb, hisdir, hd, Option.bind_eq_bind, Option.bind_some, not_true_eq_false, if_false]
    rw [hds, hbs]
  · show str dir.bytes = _
    rw [hds, hbs]

/-- **`mkd` and `goto` agree** on the path of an argument, and a `goto` after a `mkd` goes to
the directory made, exactly if the argument is absolute, or `current_dir` leaves room for a
`/` and does not end in one unless it is the root. -/
theorem goto_agrees_iff {s : Shell} (h : shellMachine.Reach s) {arg : List UInt8}
    (hne : str arg ≠ []) (hdots : str arg ≠ text "..") :
    ((∃ p q, resolvePath s.currentDir arg (Chars.uninit 64) = some p ∧
          gotoDir s.currentDir arg (Chars.uninit 64) = some q ∧ str p.bytes = str q.bytes) ∧
        ∀ s₁ p, cmdMkd s arg = some (s₁, say (text "Directory created: " ++ p ++ text "\n")) →
          ∃ s₂, cmdGoto s₁ arg = some (s₂, say (text "Moved to: " ++ p ++ text "\n")) ∧
            str s₂.currentDir.bytes = p) ↔
      arg.headD 0 = ch '/' ∨ (strlen s.currentDir.bytes ≤ 62 ∧
        (str s.currentDir.bytes = text "/" ∨
          (str s.currentDir.bytes).getLast? ≠ some (ch '/'))) := by
  have hinv := shell_reach_inv h
  have habs := shell_reach_absolute h
  have hgoto : ∀ {dir : List UInt8}, arg.headD 0 ≠ ch '/' →
      gotoPath dir (str arg) = (endSlash dir ++ str arg).take 63 := fun hrel =>
    gotoPath_relative hne hdots (by rw [headD_str]; exact hrel)
  obtain ⟨q, hq, hqs⟩ := gotoDir_spec arg (Chars.uninit 64) habs hinv.dir
  rw [strlen_eq]
  constructor
  · rintro ⟨⟨p, q', hp, hq', hpq⟩, _⟩
    rw [hq] at hq'
    cases hq'
    by_cases hrel : arg.headD 0 = ch '/'
    · exact .inl hrel
    · have hlen : (str s.currentDir.bytes).length ≤ 62 := by
        rcases (resolvePath_isSome_iff s.currentDir arg (Chars.uninit 64)).mp (by rw [hp]; rfl)
          with ⟨h, _⟩ | h | h
        · exact absurd h hne
        · exact absurd h hrel
        · exact h
      rw [resolvePath_str hp, hqs, hgoto hrel, joinPath, if_neg hne, headD_str, if_neg hrel] at hpq
      exact .inr ⟨hlen, (joins_eq_iff hlen hne (by rw [headD_str]; exact hrel)).mp hpq.symm⟩
  · intro hcond
    -- one path for both
    have hpath : gotoPath (str s.currentDir.bytes) (str arg) = s.path arg := by
      unfold Shell.path joinPath
      rw [if_neg hne, headD_str]
      by_cases hrel : arg.headD 0 = ch '/'
      · unfold gotoPath
        rw [if_neg hne, if_neg hdots, headD_str, if_pos hrel, if_pos hrel]
      · rcases hcond with hc | ⟨hlen, hc⟩
        · exact absurd hc hrel
        · rw [hgoto hrel, if_neg hrel]
          exact (joins_eq_iff hlen hne (by rw [headD_str]; exact hrel)).mpr hc
    refine ⟨?_, ?_⟩
    · obtain ⟨p, hp, hps⟩ := resolvePath_spec s.currentDir arg (Chars.uninit 64)
        (by rcases hcond with hc | ⟨hlen, _⟩
            · exact .inr (.inl hc)
            · exact .inr (.inr hlen))
      exact ⟨p, q, hp, hq, by rw [hps, hqs, hpath]; rfl⟩
    · intro s₁ p hmkd
      obtain ⟨rfl, hdir, _, hmap⟩ := cmdMkd_created hinv.table hmkd
      rw [← hdir] at hpath habs
      have hlook : (fsMap s₁.table).lookup (gotoPath (str s₁.currentDir.bytes) (str arg)) =
          some .dir := by
        rw [hpath, hmap, Finmap.lookup_insert]
      have hmoves := cmdGoto_moves habs (by rw [hdir]; exact hinv.dir) hlook
      rw [hpath] at hmoves
      exact hmoves

/-- The check list: `mkd docs`, `goto docs`, and the working directory is `/root/docs`. -/
theorem goto_agrees_iff_docs : ∃ s s₁ s₂, shellMachine.Reach s ∧
    cmdMkd s (text "docs") = some (s₁, say (text "Directory created: /root/docs\n")) ∧
      cmdGoto s₁ (text "docs") = some (s₂, say (text "Moved to: /root/docs\n")) := by
  obtain ⟨s, hreach, hdir, hmap⟩ := boot_reach
  obtain ⟨_, hgo⟩ := (goto_agrees_iff hreach (show str (text "docs") ≠ [] by decide)
    (by decide)).mpr (.inr ⟨by rw [strlen_eq, hdir]; decide, .inr (by rw [hdir]; decide)⟩)
  obtain ⟨t, hmkd, _, _⟩ := cmdMkd_creates (shell_reach_inv hreach).table (p := text "/root/docs")
    (show str (text "docs") ≠ [] by decide) (.inr (by rw [hdir]; decide))
    (by unfold Shell.path; rw [hdir]; decide) (by rw [hmap]; decide)
  obtain ⟨s₂, hs₂, _⟩ := hgo _ _ hmkd
  exact ⟨s, _, s₂, hreach, hmkd, hs₂⟩

/-- In `/a/` the directory made by `mkd b` is `/a//b`, and `goto b` wants `/a/b`. -/
theorem mkd_goto_differ : ∃ s s₁, shellMachine.Reach s ∧
    cmdMkd s (text "b") = some (s₁, say (text "Directory created: /a//b\n")) ∧
      cmdGoto s₁ (text "b") =
        some (s₁, say (text "Error: Directory '/a/b' does not exist.\n")) := by
  obtain ⟨s, hreach, hdir, hmap⟩ := dir_reach (p := text "/a/") (by decide) (by decide) (by decide)
  have hinv := shell_reach_inv hreach
  obtain ⟨t, hmkd, _, hmap'⟩ := cmdMkd_creates hinv.table (p := text "/a//b")
    (show str (text "b") ≠ [] by decide) (.inr (by rw [hdir]; decide)) (by unfold Shell.path; rw [hdir]; decide)
    (by rw [hmap]; decide)
  refine ⟨s, { s with table := t }, hreach, hmkd, ?_⟩
  obtain ⟨b, hb, hbs⟩ := gotoDir_spec (text "b") (Chars.uninit 64)
    (shell_reach_absolute hreach) hinv.dir
  rw [hdir, show gotoPath (text "/a/") (str (text "b")) = text "/a/b" by decide] at hbs
  have hno : ¬ fsIsDir t b.bytes := by
    rw [fsIsDir_iff, hbs, hmap', hmap]
    decide
  unfold cmdGoto
  simp only [hb, Option.bind_eq_bind, Option.bind_some, hno, hbs]
  rfl

end MiniOS
