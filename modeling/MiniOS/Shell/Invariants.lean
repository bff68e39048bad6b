import MiniOS.Filesystem.Refinement
import MiniOS.Shell.Commands

/-!
# What every command keeps

The file table keeps its invariant and `current_dir` stays a string of at most
63 characters over every run of the shell (`shell_reach_inv`).  Only `goto`
changes `current_dir`; each other command is shown to keep it and the table
invariant (`Keeps`), from the spec lemmas of the calls it makes.
-/

namespace MiniOS

open Lib

/-- The invariant of the shell. -/
structure ShellInv (s : Shell) : Prop where
  table : TableInv s.table
  dir : (str s.currentDir.bytes).length ≤ 63

/-- `s'` has the same `current_dir`, and a table in order if `s` has. -/
structure Keeps (s s' : Shell) : Prop where
  dir : s'.currentDir = s.currentDir
  table : TableInv s.table → TableInv s'.table

theorem Keeps.refl (s : Shell) : Keeps s s := ⟨rfl, fun h => h⟩

theorem Keeps.trans {s s' s'' : Shell} (h : Keeps s s') (h' : Keeps s' s'') : Keeps s s'' :=
  ⟨by rw [h'.dir, h.dir], fun ht => h'.table (h.table ht)⟩

theorem Keeps.inv {s s' : Shell} (h : Keeps s s') (hi : ShellInv s) : ShellInv s' :=
  ⟨h.table hi.table, by rw [h.dir]; exact hi.dir⟩

/-! ## The calls on the table -/

theorem fsCreate_keeps {t : FsTable} {name : List UInt8} {r : FsResult}
    (hr : fsCreate t name = some r) (h : TableInv t) : TableInv r.table :=
  (fsCreate_creates h hr).1

theorem fsCreateDir_keeps {t : FsTable} {name : List UInt8} {r : FsResult}
    (hr : fsCreateDir t name = some r) (h : TableInv t) : TableInv r.table :=
  (fsCreateDir_creates h hr).1

/-- The shell writes from arrays of at least 256 bytes. -/
theorem fsWrite_keeps {t : FsTable} {name : List UInt8} {n len : Nat} {data : Chars n}
    {r : FsResult} (hr : fsWrite t name data.bytes len = some r) (hn : fsMaxFilesize ≤ n)
    (h : TableInv t) : TableInv r.table :=
  (fsWrite_writes h hr (by rw [data.length_eq]; omega)).1

theorem fsDelete_keeps {t : FsTable} (name : List UInt8) (h : TableInv t) :
    TableInv (fsDelete t name).table := (fsDelete_spec h name).1

/-! ## MiniEdit -/

theorem loadFileOrCreate_keeps {t t' : FsTable} {e e' : Editor} {filename printed : List UInt8}
    {ret : Int} (hr : loadFileOrCreate t e filename = some (ret, e', printed, t'))
    (h : TableInv t) : TableInv t' := by
  unfold loadFileOrCreate at hr
  simp only [Option.bind_eq_bind, Option.bind_eq_some_iff, Prod.exists] at hr
  obtain ⟨n, buffer, _, hr⟩ := hr
  split at hr
  · obtain ⟨b, _, hr⟩ := Option.bind_eq_some_iff.mp hr
    cases hr
    exact h
  · obtain ⟨c, hc, hr⟩ := Option.bind_eq_some_iff.mp hr
    split at hr
    · cases hr
      exact fsCreate_keeps hc h
    · obtain ⟨b, _, hr⟩ := Option.bind_eq_some_iff.mp hr
      cases hr
      exact fsCreate_keeps hc h

theorem runEditorInputLoop_keeps {t : FsTable} {e : Editor} {filename keys : List UInt8}
    {out : List TerminalCall} {r : Typed (FsTable × Editor)}
    (hr : runEditorInputLoop t e filename out keys = some r) (h : TableInv t) :
    TableInv r.val.1 := by
  induction keys generalizing e out with
  | nil => cases hr
  | cons key keys ih =>
    rw [runEditorInputLoop] at hr
    split at hr
    · simp only [Option.bind_eq_bind, Option.bind_eq_some_iff, Prod.exists] at hr
      obtain ⟨t', shown, hs, hr⟩ := hr
      cases hr
      simp only [saveAndShowResult, Option.bind_eq_bind, Option.bind_eq_some_iff] at hs
      obtain ⟨w, hw, hs⟩ := hs
      cases hs
      exact fsWrite_keeps hw (by decide) h
    · simp only [Option.bind_eq_bind, Option.bind_eq_some_iff, Prod.exists] at hr
      obtain ⟨e', echo, _, hr⟩ := hr
      exact ih hr

theorem editorOpen_keeps {t : FsTable} {e : Editor} {filename keys : List UInt8}
    {r : Typed (FsTable × Editor)} (hr : editorOpen t e filename keys = some r) (h : TableInv t) :
    TableInv r.val.1 := by
  unfold editorOpen at hr
  split at hr
  · cases hr
    exact h
  · simp only [Option.bind_eq_bind, Option.bind_eq_some_iff, Prod.exists] at hr
    obtain ⟨ret, e', printed, t', hl, hr⟩ := hr
    have ht' := loadFileOrCreate_keeps hl h
    split at hr
    · cases hr
      exact ht'
    · exact runEditorInputLoop_keeps hr ht'

/-! ## The commands -/

theorem cmdNew_keeps {s : Shell} {arg : List UInt8} {r : Shown} (hr : cmdNew s arg = some r) :
    Keeps s r.1 := by
  unfold cmdNew at hr
  split at hr
  · cases hr
    exact Keeps.refl s
  · split at hr
    · cases hr
      exact Keeps.refl s
    · simp only [Option.bind_eq_bind, Option.bind_eq_some_iff] at hr
      obtain ⟨path, _, c, hc, hr⟩ := hr
      cases hr
      exact ⟨rfl, fsCreate_keeps hc⟩

theorem cmdEdit_keeps {s : Shell} {filename keys : List UInt8} {r : Typed Shell}
    (hr : cmdEdit s filename keys = some r) : Keeps s r.val := by
  unfold cmdEdit at hr
  split at hr
  · cases hr
    exact Keeps.refl s
  · simp only [Option.bind_eq_bind, Option.bind_eq_some_iff] at hr
    obtain ⟨path, _, e, he, hr⟩ := hr
    cases hr
    exact ⟨rfl, editorOpen_keeps he⟩

theorem cmdWrite_keeps {s : Shell} {arg keys : List UInt8} {r : Typed Shell}
    (hr : cmdWrite s arg keys = some r) : Keeps s r.val := by
  unfold cmdWrite at hr
  split at hr
  · cases hr
    exact Keeps.refl s
  · simp only [Option.bind_eq_bind, Option.bind_eq_some_iff] at hr
    obtain ⟨path, _, line, _, w, hw, hr⟩ := hr
    cases hr
    exact ⟨rfl, fsWrite_keeps hw (Nat.le_refl _)⟩

theorem cmdSee_keeps {s : Shell} {arg : List UInt8} {r : Shown} (hr : cmdSee s arg = some r) :
    Keeps s r.1 := by
  unfold cmdSee at hr
  split at hr
  · cases hr
    exact Keeps.refl s
  · simp only [Option.bind_eq_bind, Option.bind_eq_some_iff, Prod.exists] at hr
    obtain ⟨path, _, n, buf, _, hr⟩ := hr
    split at hr <;> cases hr <;> exact Keeps.refl s

theorem cmdLook_keeps {s : Shell} {arg : List UInt8} {r : Shown} (hr : cmdLook s arg = some r) :
    Keeps s r.1 := by
  unfold cmdLook at hr
  split at hr
  · cases hr
    exact Keeps.refl s
  · simp only [Option.bind_eq_bind, Option.bind_eq_some_iff, Prod.exists] at hr
    obtain ⟨path, _, n, buf, _, hr⟩ := hr
    split at hr <;> cases hr <;> exact Keeps.refl s

theorem cmdDel_keeps {s : Shell} {arg : List UInt8} {r : Shown} (hr : cmdDel s arg = some r) :
    Keeps s r.1 := by
  unfold cmdDel at hr
  split at hr
  · cases hr
    exact Keeps.refl s
  · simp only [Option.bind_eq_bind, Option.bind_eq_some_iff] at hr
    obtain ⟨path, _, hr⟩ := hr
    split at hr <;> cases hr <;> exact ⟨rfl, fsDelete_keeps _⟩

theorem cmdDeld_keeps {s : Shell} {arg : List UInt8} {r : Shown} (hr : cmdDeld s arg = some r) :
    Keeps s r.1 := by
  unfold cmdDeld at hr
  split at hr
  · cases hr
    exact Keeps.refl s
  · simp only [Option.bind_eq_bind, Option.bind_eq_some_iff] at hr
    obtain ⟨path, _, hr⟩ := hr
    split at hr <;> cases hr <;> exact ⟨rfl, fsDelete_keeps _⟩

theorem cmdMkd_keeps {s : Shell} {arg : List UInt8} {r : Shown} (hr : cmdMkd s arg = some r) :
    Keeps s r.1 := by
  unfold cmdMkd at hr
  split at hr
  · cases hr
    exact Keeps.refl s
  · simp only [Option.bind_eq_bind, Option.bind_eq_some_iff] at hr
    obtain ⟨path, _, c, hc, hr⟩ := hr
    split at hr <;> cases hr <;> exact ⟨rfl, fsCreateDir_keeps hc⟩

theorem notesNew_keeps {s : Shell} {keys : List UInt8} {r : Typed Shell}
    (hr : notesNew s keys = some r) : Keeps s r.val := by
  simp only [notesNew, Option.bind_eq_bind, Option.bind_eq_some_iff] at hr
  obtain ⟨title, _, body, _, _, _, _, _, _, _, path, _, c, hc, w, hw, hr⟩ := hr
  cases hr
  exact ⟨rfl, fun h => fsWrite_keeps hw (Nat.le_refl _) (fsCreate_keeps hc h)⟩

theorem cmdNotes_keeps {s : Shell} {arg keys : List UInt8} {r : Typed Shell}
    (hr : cmdNotes s arg keys = some r) : Keeps s r.val := by
  simp only [cmdNotes, Option.bind_eq_bind] at hr
  split at hr
  · obtain ⟨r', hr', hr⟩ := Option.bind_eq_some_iff.mp hr
    cases hr
    have hk : Keeps s r'.val := notesNew_keeps hr'
    exact hk
  · split at hr
    · cases hr
      exact Keeps.refl s
    · split at hr
      · obtain ⟨out, _, hr⟩ := Option.bind_eq_some_iff.mp hr
        cases hr
        exact Keeps.refl s
      · cases hr
        exact Keeps.refl s

theorem fmKey_keeps {s : Shell} {c : UInt8} {keys : List UInt8} {r : Typed Shell}
    (hr : fmKey s c keys = some r) : Keeps s r.val := by
  unfold fmKey at hr
  split at hr
  · simp only [fmCreate, Option.bind_eq_bind, Option.bind_eq_some_iff] at hr
    obtain ⟨name, _, cr, hc, hr⟩ := hr
    split at hr
    · simp only [Option.bind_eq_some_iff] at hr
      obtain ⟨body, _, w, hw, hr⟩ := hr
      cases hr
      exact ⟨rfl, fun h => fsWrite_keeps hw (Nat.le_refl _) (fsCreate_keeps hc h)⟩
    · cases hr
      exact ⟨rfl, fsCreate_keeps hc⟩
  · split at hr
    · simp only [fmRead, Option.bind_eq_bind, Option.bind_eq_some_iff, Prod.exists] at hr
      obtain ⟨name, _, n, buf, _, hr⟩ := hr
      split at hr
      · simp only [Option.bind_eq_some_iff, Prod.exists] at hr
        obtain ⟨c', keys', _, hr⟩ := hr
        cases hr
        exact Keeps.refl s
      · cases hr
        exact Keeps.refl s
    · split at hr
      · simp only [fmDelete, Option.bind_eq_bind, Option.bind_eq_some_iff] at hr
        obtain ⟨name, _, hr⟩ := hr
        cases hr
        exact ⟨rfl, fsDelete_keeps _⟩
      · cases hr
        exact Keeps.refl s

/-- One more round of `cmd_fm`: a key was read and done. -/
theorem fmBody_next {r r' : Typed Shell} (h : fmBody r = .inl r') :
    ∃ c keys r₁, r.keys = c :: keys ∧ fmKey r.val c keys = some r₁ ∧ r'.val = r₁.val ∧
      r'.keys = r₁.keys := by
  unfold fmBody at h
  cases hg : r.keys with
  | nil =>
    simp only [hg, keyboardGetchar] at h
    cases h
  | cons c keys =>
    simp only [hg, keyboardGetchar] at h
    split at h
    · cases h
    · cases hf : fmKey r.val c keys with
      | none =>
        simp only [hf] at h
        cases h
      | some r₁ =>
        simp only [hf] at h
        cases h
        exact ⟨c, keys, r₁, rfl, hf, rfl, rfl⟩

theorem fmBody_done {r r' : Typed Shell} (h : fmBody r = .inr (some r')) : r'.val = r.val := by
  unfold fmBody at h
  cases hg : keyboardGetchar r.keys with
  | none =>
    simp only [hg] at h
    cases h
  | some ck =>
    simp only [hg] at h
    split at h
    · cases h
      rfl
    · split at h <;> cases h

theorem fmKey_keys {s : Shell} {c : UInt8} {keys : List UInt8} {r : Typed Shell}
    (hr : fmKey s c keys = some r) : r.keys.length ≤ keys.length := by
  unfold fmKey at hr
  split at hr
  · simp only [fmCreate, Option.bind_eq_bind, Option.bind_eq_some_iff] at hr
    obtain ⟨name, hname, cr, _, hr⟩ := hr
    have hn := keyboardReadline_keys hname
    split at hr
    · simp only [Option.bind_eq_some_iff] at hr
      obtain ⟨body, hbody, w, _, hr⟩ := hr
      cases hr
      exact Nat.le_trans (keyboardReadline_keys hbody) hn
    · cases hr
      exact hn
  · split at hr
    · simp only [fmRead, Option.bind_eq_bind, Option.bind_eq_some_iff, Prod.exists] at hr
      obtain ⟨name, hname, n, buf, _, hr⟩ := hr
      have hn := keyboardReadline_keys hname
      split at hr
      · simp only [Option.bind_eq_some_iff, Prod.exists] at hr
        obtain ⟨c', keys', hg, hr⟩ := hr
        cases hr
        cases hk : name.keys with
        | nil => rw [hk] at hg; cases hg
        | cons d ks =>
          rw [hk] at hg hn
          cases hg
          exact Nat.le_trans (Nat.le_succ _) hn
      · cases hr
        exact hn
    · split at hr
      · simp only [fmDelete, Option.bind_eq_bind, Option.bind_eq_some_iff] at hr
        obtain ⟨name, hname, hr⟩ := hr
        cases hr
        exact keyboardReadline_keys hname
      · cases hr
        exact Nat.le_refl _

/-- The rounds `cmd_fm` is given are enough: each one reads a key. -/
theorem fmLoop_total (s : Shell) (keys : List UInt8) :
    ∃ r, loop fmBody (keys.length + 1) ⟨s, [], keys⟩ = some r := by
  have hnext : ∀ r r', True → fmBody r = .inl r' → True ∧ r'.keys.length < r.keys.length := by
    intro r r' _ hb
    obtain ⟨c, ks, r₁, hk, hf, _, hk'⟩ := fmBody_next hb
    have := fmKey_keys hf
    refine ⟨trivial, ?_⟩
    rw [hk', hk, List.length_cons]
    omega
  obtain ⟨r, hr, _⟩ := loop_total (fun _ => True) (fun r : Typed Shell => r.keys.length)
    (fun _ => True) hnext (fun _ _ _ _ => trivial) (keys.length + 1) ⟨s, [], keys⟩ trivial
    (Nat.lt_succ_self _)
  exact ⟨r, hr⟩

theorem fmLoop_keeps {n : Nat} {s : Shell} {r r' : Typed Shell} (hk : Keeps s r.val)
    (hr : loop fmBody n r = some (some r')) : Keeps s r'.val := by
  induction n generalizing r with
  | zero => cases hr
  | succ n ih =>
    cases hb : fmBody r with
    | inl r₁ =>
      rw [loop_next hb] at hr
      obtain ⟨c, keys, r₂, _, hf, hv, _⟩ := fmBody_next hb
      refine ih ?_ hr
      rw [hv]
      exact hk.trans (fmKey_keeps hf)
    | inr r₁ =>
      rw [loop_done hb] at hr
      cases hr
      rw [fmBody_done hb]
      exact hk

theorem cmdFm_keeps {s : Shell} {keys : List UInt8} {r : Typed Shell}
    (hr : cmdFm s keys = some r) : Keeps s r.val := by
  unfold cmdFm at hr
  rw [Option.join_eq_some_iff] at hr
  exact fmLoop_keeps (Keeps.refl s) hr

theorem transferFile_keeps {t : FsTable} {src dst : Chars 64} {move : Bool} {verb : List UInt8}
    {r : Transfer} (hr : transferFile t src dst move verb = some r) (h : TableInv t) :
    TableInv r.table := by
  simp only [transferFile, Option.bind_eq_bind, Option.bind_eq_some_iff, Prod.exists] at hr
  obtain ⟨n, buf, _, hr⟩ := hr
  split at hr
  · cases hr
    exact h
  · simp only [Option.bind_eq_some_iff] at hr
    obtain ⟨c, hc, hr⟩ := hr
    have hct := fsCreate_keeps hc h
    split at hr
    · cases hr
      exact hct
    · simp only [Option.bind_eq_some_iff] at hr
      obtain ⟨w, hw, hr⟩ := hr
      cases hr
      have hwt := fsWrite_keeps hw (by decide) hct
      cases move with
      | false => exact hwt
      | true => exact fsDelete_keeps _ hwt

theorem transferCmd_keeps {s : Shell} {arg usage verb : List UInt8} {move : Bool} {r : Transfer}
    (hr : transferCmd s arg usage move verb = some r) (h : TableInv s.table) :
    TableInv r.table := by
  simp only [transferCmd, Option.bind_eq_bind, Option.bind_eq_some_iff] at hr
  obtain ⟨args, _, hr⟩ := hr
  cases args with
  | none =>
    cases hr
    exact h
  | some sd =>
    simp only [Option.bind_eq_some_iff] at hr
    obtain ⟨pathSrc, _, pathDst, _, hr⟩ := hr
    exact transferFile_keeps hr h

theorem cmdMov_keeps {s : Shell} {arg : List UInt8} {r : Transfer} (hr : cmdMov s arg = some r)
    (h : TableInv s.table) : TableInv r.table := by
  simp only [cmdMov, Option.bind_eq_bind, Option.bind_eq_some_iff] at hr
  obtain ⟨args, _, hr⟩ := hr
  cases args with
  | none =>
    cases hr
    exact h
  | some sd =>
    simp only [Option.bind_eq_some_iff] at hr
    obtain ⟨pathSrc, _, pathDst, _, hr⟩ := hr
    split at hr
    · simp only [Option.bind_eq_some_iff] at hr
      obtain ⟨joined, _, hr⟩ := hr
      exact transferFile_keeps hr h
    · cases hr
      exact h

/-- `goto` leaves the table, and a `current_dir` that fits its array. -/
theorem cmdGoto_inv {s : Shell} {arg : List UInt8} {r : Shown} (hr : cmdGoto s arg = some r)
    (h : ShellInv s) : ShellInv r.1 := by
  simp only [cmdGoto, Option.bind_eq_bind, Option.bind_eq_some_iff] at hr
  obtain ⟨newDir, _, hr⟩ := hr
  split at hr
  · cases hr
    exact h
  · simp only [Option.bind_eq_some_iff] at hr
    obtain ⟨dir, hd, hr⟩ := hr
    cases hr
    obtain ⟨hlen, hs⟩ := strcpy_fits hd
    refine ⟨h.table, ?_⟩
    show (str dir.bytes).length ≤ 63
    rw [hs]
    omega

/-! ## Runs -/

/-- Every command keeps the invariant. -/
theorem run_shellInv {s : Shell} {e : ShellCall} {r : Typed Shell} (hr : e.run s = some r)
    (h : ShellInv s) : ShellInv r.val := by
  have hshown : ∀ {f : Option Shown}, (∀ r, f = some r → Keeps s r.1) →
      f.map (Shown.typed e.keys) = some r → ShellInv r.val := by
    intro f hf hr
    obtain ⟨r', hr', rfl⟩ := Option.map_eq_some_iff.mp hr
    exact (hf r' hr').inv h
  have htransfer : ∀ {f : Option Transfer}, (∀ r, f = some r → TableInv r.table) →
      f.map (Transfer.typed s e.keys) = some r → ShellInv r.val := by
    intro f hf hr
    obtain ⟨r', hr', rfl⟩ := Option.map_eq_some_iff.mp hr
    exact ⟨hf r' hr', h.dir⟩
  unfold ShellCall.run at hr
  cases hc : e.cmd with
  | new => rw [hc] at hr; exact hshown (fun _ => cmdNew_keeps) hr
  | edit => rw [hc] at hr; exact (cmdEdit_keeps hr).inv h
  | write => rw [hc] at hr; exact (cmdWrite_keeps hr).inv h
  | see => rw [hc] at hr; exact hshown (fun _ => cmdSee_keeps) hr
  | laf => rw [hc] at hr; cases hr; exact h
  | notes => rw [hc] at hr; exact (cmdNotes_keeps hr).inv h
  | fm => rw [hc] at hr; exact (cmdFm_keeps hr).inv h
  | del => rw [hc] at hr; exact hshown (fun _ => cmdDel_keeps) hr
  | cpy => rw [hc] at hr; exact htransfer (fun _ hr => transferCmd_keeps hr h.table) hr
  | mov => rw [hc] at hr; exact htransfer (fun _ hr => cmdMov_keeps hr h.table) hr
  | rename => rw [hc] at hr; exact htransfer (fun _ hr => transferCmd_keeps hr h.table) hr
  | look => rw [hc] at hr; exact hshown (fun _ => cmdLook_keeps) hr
  | wdir => rw [hc] at hr; cases hr; exact h
  | goto =>
    rw [hc] at hr
    obtain ⟨r', hr', rfl⟩ := Option.map_eq_some_iff.mp hr
    exact cmdGoto_inv hr' h
  | mkd => rw [hc] at hr; exact hshown (fun _ => cmdMkd_keeps) hr
  | deld => rw [hc] at hr; exact hshown (fun _ => cmdDeld_keeps) hr

theorem bootDir_str : str bootDir.bytes = text "/root" := by decide

/-- **The shell's invariant.**  It holds in every state reachable from boot. -/
theorem shell_reach_inv {s : Shell} (h : shellMachine.Reach s) : ShellInv s := by
  refine h.invariant (I := ShellInv) ?_ ?_
  · rintro _ ⟨t, ht, rfl⟩
    obtain ⟨t₀, h0, hinv, _⟩ := fsInit_spec
    rw [ht] at h0
    cases h0
    refine ⟨hinv, ?_⟩
    show (str bootDir.bytes).length ≤ 63
    rw [bootDir_str]
    decide
  · intro s e o s' hi _ hs
    obtain ⟨r, hr, hrs⟩ := Option.map_eq_some_iff.mp hs
    cases hrs
    exact run_shellInv hr hi

/-- A command that comes back leads on from a reachable state. -/
theorem shell_reach_run {s : Shell} {e : ShellCall} {r : Typed Shell} (h : shellMachine.Reach s)
    (hlen : (str e.arg).length ≤ 255) (hr : e.run s = some r) : shellMachine.Reach r.val := by
  have hstep : shellMachine.step s e = some ((r.out, r.keys), r.val) := by
    show (e.run s).map _ = _
    rw [hr]
    rfl
  exact h.step hlen hstep

/-- The shell as it boots. -/
theorem boot_reach : ∃ s, shellMachine.Reach s ∧ str s.currentDir.bytes = text "/root" ∧
    fsMap s.table = rootMap := by
  obtain ⟨t, ht, _, hmap⟩ := fsInit_spec
  exact ⟨bootShell t, Machine.Reach.init ⟨t, ht, rfl⟩, bootDir_str, hmap⟩

end MiniOS
