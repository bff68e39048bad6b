import MiniOS.Shell.Goto

/-!
# The working directory

`goto` only goes to directories that exist, and nothing but a deletion takes one
away; but `del`, `deld` and the file manager delete the directory the shell is in
like any other name.  So `fs_is_dir(current_dir)` is 1 in every run that spares it
(`SparesDir`), and the first step that does not makes it 0 (`workingDir_iff`).
-/

namespace MiniOS

open Lib

/-- The step does not delete the directory the shell is in: it is the root, or the path `del`
and `deld` get is another, and no name typed at Delete in the file manager is this one. -/
def SparesDir (s : Shell) (e : ShellCall) : Prop :=
  str s.currentDir.bytes = text "/" ∨
    match e.cmd with
    | .del | .deld => str e.arg ≠ [] → s.path e.arg ≠ str s.currentDir.bytes
    | .fm => ¬ FmDeletes s e.keys (str s.currentDir.bytes)
    | _ => True

/-- A directory that a command deletes has been given to `del`, `deld` or the file manager. -/
theorem sparesDir_deletes {s : Shell} {e : ShellCall} (h : SparesDir s e)
    (hroot : str s.currentDir.bytes ≠ text "/")
    (hdir : (fsMap s.table).lookup (str s.currentDir.bytes) = some .dir) :
    ¬ e.Deletes s (str s.currentDir.bytes) := by
  have hmakes : ∀ {k : TransferKind} {dst : List UInt8},
      ¬ k.Makes s e.arg (str s.currentDir.bytes) dst := by
    rintro k dst ⟨src, dst', _, _, _, hfree⟩
    apply hfree
    refine .inr (.inl ?_)
    intro bytes hb
    rw [hdir] at hb
    cases hb
  rcases h with h | h
  · exact absurd h hroot
  obtain ⟨cmd, arg, keys⟩ := e
  intro hd
  cases cmd with
  | del | deld =>
    obtain ⟨hne, hp, _⟩ := hd
    exact h hne hp.symm
  | mov | rename =>
    obtain ⟨dst, hm⟩ := hd
    exact hmakes hm
  | fm => exact h hd
  | new | edit | write | see | laf | notes | cpy | look | wdir | goto | mkd => exact hd

/-- Where the directory is deleted the file manager cannot make it again. -/
theorem fmDeletes_gone {s : Shell} (h : TableInv s.table) {keys : List UInt8} {r : Typed Shell}
    (hr : cmdFm s keys = some r) {p : List UInt8} (hd : FmDeletes s keys p) :
    (fsMap r.val.table).lookup p ≠ some .dir := by
  obtain ⟨c, r₁, hc, ⟨before, after, rest, line, hrounds, hb, rfl, hkeys, hline, rfl⟩, hm⟩ := hd
  obtain ⟨last, hlast, hdone, hv⟩ := cmdFm_rounds hr
  have hinv := (fmRounds_keeps hrounds).table h
  -- the round deletes the name
  have hgone : (fsMap after.val.table).lookup (str line.val.2.bytes) = none := by
    obtain ⟨c', rest', r', hkeys', hf, hv', _⟩ := fmBody_next hb
    rw [hkeys] at hkeys'
    cases hkeys'
    have hnc : ¬ (c = ch 'c' ∨ c = ch 'C') ∧ ¬ (c = ch 'r' ∨ c = ch 'R') := by
      rcases hc with rfl | rfl <;> decide
    unfold fmKey at hf
    rw [if_neg hnc.1, if_neg hnc.2, if_pos hc, fmDelete, hline] at hf
    cases hf
    rw [hv']
    rcases (fsDelete_spec hinv line.val.2.bytes).2 with ⟨_, _, hmap⟩ | ⟨hno, _⟩
    · show (fsMap (fsDelete _ _).table).lookup _ = none
      rw [hmap, Finmap.lookup_erase]
    · exact absurd hm hno
  -- the rounds after it only make files
  have hafter : TableInv after.val.table :=
    (fmRounds_keeps (hrounds.tail hb)).table h
  have hfiles : Changes (fun _ v => v = .file []) (fun _ => True) (fsMap after.val.table)
      (fsMap last.val.table) :=
    fmRounds_changes hafter (fun _ _ _ _ _ _ _ _ _ _ _ => rfl)
      (fun _ _ _ _ _ _ _ _ _ _ _ => trivial) (hrounds.through hb hlast hdone)
  rw [hv]
  intro hdir
  rcases hfiles.dir_before hdir with h' | h'
  · rw [hgone] at h'
    cases h'
  · cases h'

/-- **One step.**  The directory is there afterwards exactly if the step spares it. -/
theorem step_workingDir_iff {s : Shell} (hinv : ShellInv s)
    (hdir : fsIsDir s.table s.currentDir.bytes) {e : ShellCall} {r : Typed Shell}
    (hr : e.run s = some r) : fsIsDir r.val.table r.val.currentDir.bytes ↔ SparesDir s e := by
  by_cases hcmd : e.cmd = .goto
  · obtain ⟨cmd, arg, keys⟩ := e
    subst hcmd
    obtain ⟨r', hr', rfl⟩ := Option.map_eq_some_iff.mp hr
    refine iff_of_true ?_ (.inr trivial)
    show fsIsDir r'.1.table r'.1.currentDir.bytes
    obtain ⟨htab, hmove⟩ := goto_cases hr'
    rw [htab]
    rcases hmove with hstay | ⟨newDir, _, hnew, hs⟩
    · rw [hstay]
      exact hdir
    · rw [fsIsDir_iff] at hnew ⊢
      rw [hs]
      exact hnew
  rw [run_currentDir hr hcmd, fsIsDir_iff]
  rw [fsIsDir_iff] at hdir
  by_cases hroot : str s.currentDir.bytes = text "/"
  · exact iff_of_true (.inl hroot) (.inl hroot)
  have hlook : (fsMap s.table).lookup (str s.currentDir.bytes) = some .dir := by
    rcases hdir with h | h
    · exact absurd h hroot
    · exact h
  constructor
  · intro hafter
    have hafter' : (fsMap r.val.table).lookup (str s.currentDir.bytes) = some .dir := by
      rcases hafter with h | h
      · exact absurd h hroot
      · exact h
    refine .inr ?_
    have hdel : e.cmd = .del ∨ e.cmd = .deld → str e.arg ≠ [] →
        s.path e.arg ≠ str s.currentDir.bytes := by
      intro hcmd hne hp
      rw [run_deletes hinv.table hr hcmd hne, hp, Finmap.lookup_erase] at hafter'
      cases hafter'
    obtain ⟨cmd, arg, keys⟩ := e
    cases cmd with
    | del => exact hdel (.inl rfl)
    | deld => exact hdel (.inr rfl)
    | fm =>
      intro hd
      exact fmDeletes_gone hinv.table hr hd hafter'
    | new | edit | write | see | laf | notes | cpy | mov | rename | look | wdir | goto | mkd =>
      exact trivial
  · intro hs
    exact .inr ((run_changes hinv.table hr).dir_of_dir (sparesDir_deletes hs hroot hlook) hlook)

/-- **The working directory exists** as long as no step deletes it, and the first step that does
leaves the shell in a directory that is none. -/
theorem workingDir_iff {s : Shell} (h : (shellMachine.restrict SparesDir).Reach s) :
    fsIsDir s.table s.currentDir.bytes ∧
      ∀ e o s', shellMachine.legal s e → shellMachine.step s e = some (o, s') →
        (fsIsDir s'.table s'.currentDir.bytes ↔ SparesDir s e) := by
  have hdir : fsIsDir s.table s.currentDir.bytes := by
    refine (h.invariant (I := fun s => ShellInv s ∧ fsIsDir s.table s.currentDir.bytes) ?_ ?_).2
    · rintro _ ⟨t, ht, rfl⟩
      refine ⟨shell_reach_inv (Machine.Reach.init ⟨t, ht, rfl⟩), ?_⟩
      obtain ⟨t₀, h0, _, hmap⟩ := fsInit_spec
      rw [ht] at h0
      cases h0
      show fsIsDir t bootDir.bytes
      rw [fsIsDir_iff, bootDir_str, hmap]
      exact .inr (by decide)
    · rintro s e o s' ⟨hinv, hdir⟩ ⟨_, hspares⟩ hs
      obtain ⟨r, hr, hrs⟩ := Option.map_eq_some_iff.mp hs
      cases hrs
      exact ⟨run_shellInv hr hinv, (step_workingDir_iff hinv hdir hr).mpr hspares⟩
  refine ⟨hdir, ?_⟩
  intro e o s' _ hs
  obtain ⟨r, hr, hrs⟩ := Option.map_eq_some_iff.mp hs
  cases hrs
  exact step_workingDir_iff (shell_reach_inv h.of_restrict) hdir hr

/-- From boot: `deld /root` is not spared, and indeed `/root` is no directory afterwards. -/
theorem workingDir_iff_boot : ∃ s, (shellMachine.restrict SparesDir).Reach s ∧
    fsIsDir s.table s.currentDir.bytes ∧
      ∀ o s', shellMachine.step s ⟨.deld, text "/root", []⟩ = some (o, s') →
        ¬ fsIsDir s'.table s'.currentDir.bytes := by
  obtain ⟨t, ht, _, _⟩ := fsInit_spec
  have hreach : (shellMachine.restrict SparesDir).Reach (bootShell t) :=
    Machine.Reach.init ⟨t, ht, rfl⟩
  obtain ⟨hdir, hstep⟩ := workingDir_iff hreach
  refine ⟨bootShell t, hreach, hdir, ?_⟩
  intro o s' hs hdir'
  have hspares := (hstep ⟨.deld, text "/root", []⟩ o s' (by show _ ≤ 255; decide) hs).mp hdir'
  have hcur : str (bootShell t).currentDir.bytes = text "/root" := bootDir_str
  rcases hspares with h | h
  · rw [hcur] at h
    exact absurd h (by decide)
  · refine h (by decide) ?_
    unfold Shell.path
    rw [hcur]
    decide

/-- After `deld /root` the shell is in a directory that does not exist. -/
theorem workingDir_deleted :
    ∃ s, shellMachine.Reach s ∧ ¬ fsIsDir s.table s.currentDir.bytes := by
  obtain ⟨s, hreach, hcur, _⟩ := boot_reach
  obtain ⟨path, hp, _⟩ := resolvePath_spec s.currentDir (text "/root") (Chars.uninit 64)
    (.inr (.inl rfl))
  obtain ⟨r, hr⟩ : ∃ r, cmdDeld s (text "/root") = some r := by
    unfold cmdDeld
    rw [if_neg (by decide), hp, Option.bind_eq_bind, Option.bind_some]
    show ∃ r, (if (fsDelete _ path.bytes).ret = 0 then _ else _) = some r
    split
    · exact ⟨_, rfl⟩
    · exact ⟨_, rfl⟩
  have hrun : (⟨.deld, text "/root", []⟩ : ShellCall).run s = some (Shown.typed [] r) := by
    show (cmdDeld _ _).map _ = _
    rw [hr]
    rfl
  refine ⟨r.1, shell_reach_run hreach (show (str (text "/root")).length ≤ 255 by decide) hrun, ?_⟩
  have hmap := run_deletes (shell_reach_inv hreach).table hrun (.inr rfl) (by decide)
  have hpath : s.path (text "/root") = text "/root" := by
    unfold Shell.path
    rw [hcur]
    decide
  have hdir : str r.1.currentDir.bytes = text "/root" := by
    rw [← hcur]
    exact congrArg (fun c : Chars 64 => str c.bytes) (run_currentDir hrun (by decide))
  rw [fsIsDir_iff, hdir, show fsMap r.1.table = _ from hmap, hpath, Finmap.lookup_erase]
  decide

end MiniOS
