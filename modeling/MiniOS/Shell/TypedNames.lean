import MiniOS.Keyboard.WholeLine
import MiniOS.Shell.Goto
import MiniOS.Shell.LineRefinement

/-!
# The names of typed commands

`shell_readline` takes the characters 32 to 126 only, so an argument is made of
these (`TypedArg`).  `keyboard_readline` takes more, a tab for one, but keeps no
backspace.  So whatever is typed, directories have printable paths and no name
holds a backspace (`TypedNames`, `run_typedNames`), and where the tabs of a name
are printed depends on the column it starts in only.
-/

namespace MiniOS

open Lib

variable {s : Shell} {e : ShellCall}

/-- The argument is one that `shell_readline` can read. -/
def TypedArg (e : ShellCall) : Prop := ∀ c ∈ str e.arg, IsPrintable c

/-- What holds of the names as long as arguments are typed. -/
structure TypedNames (s : Shell) : Prop where
  dir : ∀ c ∈ str s.currentDir.bytes, IsPrintable c
  names : ∀ p ∈ fsMap s.table, 8 ∉ p
  dirs : ∀ p, (fsMap s.table).lookup p = some .dir → ∀ c ∈ p, IsPrintable c

/-! ## Paths -/

section

variable {P : UInt8 → Prop} (hslash : P (ch '/'))

include hslash

theorem parentPath_forall {path : List UInt8} (h : ∀ c ∈ path, P c) : ∀ c ∈ parentPath path, P c := by
  have hroot : ∀ c ∈ text "/", P c := List.forall_mem_singleton.mpr hslash
  unfold parentPath
  split
  · split
    · exact hroot
    · exact fun c hc => h c (List.mem_of_mem_take hc)
  · exact hroot

theorem withSlash_forall {dir : List UInt8} (h : ∀ c ∈ dir, P c) : ∀ c ∈ withSlash dir, P c := by
  unfold withSlash
  split
  · exact h
  · exact List.forall_mem_append.mpr ⟨h, List.forall_mem_singleton.mpr hslash⟩

theorem path_forall (hdir : ∀ c ∈ str s.currentDir.bytes, P c) {arg : List UInt8}
    (harg : ∀ c ∈ str arg, P c) : ∀ c ∈ s.path arg, P c := by
  have hjoin : ∀ c ∈ joinPath (str s.currentDir.bytes) (str arg), P c := by
    unfold joinPath
    split
    · exact hdir
    split
    · exact harg
    · exact List.forall_mem_append.mpr ⟨withSlash_forall hslash hdir, harg⟩
  exact fun c hc => hjoin c (List.mem_of_mem_take hc)

end

theorem slash_printable : IsPrintable (ch '/') := by decide

theorem gotoPath_printable {dir arg : List UInt8} (hdir : ∀ c ∈ dir, IsPrintable c)
    (harg : ∀ c ∈ arg, IsPrintable c) : ∀ c ∈ gotoPath dir arg, IsPrintable c := by
  have hend : ∀ c ∈ endSlash dir, IsPrintable c := by
    unfold endSlash
    split
    · exact hdir
    · exact List.forall_mem_append.mpr ⟨hdir, List.forall_mem_singleton.mpr slash_printable⟩
  unfold gotoPath
  split
  · exact forall_of_all (by decide)
  split
  · split
    · exact hdir
    · exact parentPath_forall slash_printable hdir
  split
  · exact fun c hc => harg c (List.mem_of_mem_take hc)
  · intro c hc
    exact List.forall_mem_append.mpr ⟨hend, harg⟩ c (List.mem_of_mem_take hc)

/-! ## Arguments -/

theorem str_drop_subset {a : List UInt8} {k : Nat} (hk : k ≤ (str a).length) :
    str (a.drop k) ⊆ str a := by
  rw [str_drop hk]
  exact List.drop_subset k _

theorem skipSpaces_subset (a : List UInt8) : str (skipSpaces a) ⊆ str a := by
  induction a with
  | nil => exact List.Subset.refl _
  | cons c a ih =>
    rw [skipSpaces]
    split
    · rename_i hc
      have h0 : c ≠ 0 := by
        rcases hc with rfl | rfl
        · decide
        · decide
      rw [str_cons h0]
      exact fun x hx => List.mem_cons_of_mem c (ih hx)
    · exact List.Subset.refl _

/-- The second of two arguments is a part of the line. -/
theorem twoArgs_subset {arg : List UInt8} {src dst : Chars 32}
    (h : twoArgs arg = some (some (src, dst))) : str dst.bytes ⊆ str arg := by
  unfold twoArgs at h
  dsimp only at h
  obtain ⟨hno, _⟩ | ⟨u, v, huv, _, hat⟩ := strchr_spec (skipSpaces arg) (c := ch ' ') (by decide)
  · rw [hno] at h
    cases h
  rw [hat] at h
  simp only [Option.bind_eq_bind, Option.bind_eq_some_iff] at h
  obtain ⟨_, _, _, _, d₁, hcopy, d₂, hput, h⟩ := h
  split at h
  · cases h
  cases h
  obtain ⟨b, b', hb, hb', hs⟩ := strncpy_put_spec (Chars.uninit 32) 0
    (skipSpaces ((skipSpaces arg).drop u.length)) (32 - 1) (by decide) (Nat.zero_le _)
  rw [hcopy] at hb
  cases hb
  rw [Nat.zero_add, hput] at hb'
  cases hb'
  rw [hs, List.take_zero, List.nil_append]
  have hu : u.length ≤ (str (skipSpaces arg)).length := by
    rw [huv, List.length_append]
    exact Nat.le_add_right _ _
  exact fun c hc => skipSpaces_subset arg
    (str_drop_subset hu (skipSpaces_subset _ (List.mem_of_mem_take hc)))

/-! ## What is made -/

theorem IsPrintable.ne_backspace {c : UInt8} (h : IsPrintable c) : c ≠ 8 := h.ne_of_lt (by decide)

/-- No entry made has a backspace in its name. -/
theorem creates_noBackspace (h : TypedNames s) (harg : TypedArg e) {p : List UInt8} {v : Node}
    (hC : e.Creates s p v) : 8 ∉ p := by
  have hslash : ch '/' ≠ 8 := by decide
  have hdir : ∀ c ∈ str s.currentDir.bytes, c ≠ 8 := fun c hc => (h.dir c hc).ne_backspace
  have hpath : ∀ {arg : List UInt8}, (∀ c ∈ str arg, c ≠ 8) → ∀ c ∈ s.path arg, c ≠ 8 :=
    fun ha => path_forall hslash hdir ha
  have htyped : ∀ c ∈ str e.arg, c ≠ 8 := fun c hc => (harg c hc).ne_backspace
  have hmakes : ∀ {k : TransferKind}, (∃ src, k.Makes s e.arg src p) → ∀ c ∈ p, c ≠ 8 := by
    rintro k ⟨_, src, dst, hargs, rfl, rfl, hfree⟩ c hc
    have hdst := hpath fun c hc => htyped c (twoArgs_subset hargs hc)
    have hc := List.mem_of_mem_take hc
    unfold TransferKind.target at hc
    split at hc
    · rcases List.mem_append.mp hc with hc | hc
      · exact withSlash_forall hslash hdst c hc
      · -- the source is a file of the table
        have hsrc : s.path src.bytes ∈ fsMap s.table := by
          by_contra hno
          refine hfree (.inr (.inl fun bytes hbytes => hno ?_))
          exact Finmap.mem_of_lookup_eq_some hbytes
        have hbase := List.takeWhile_subset _ (List.mem_reverse.mp hc)
        rintro rfl
        exact h.names _ hsrc (List.mem_reverse.mp hbase)
    · exact hdst c hc
  refine fun h8 => (?_ : ∀ c ∈ p, c ≠ 8) 8 h8 rfl
  obtain ⟨cmd, arg, keys⟩ := e
  cases cmd with
  | new =>
    obtain ⟨_, _, rfl, _⟩ := hC
    exact hpath htyped
  | edit | mkd =>
    obtain ⟨_, rfl, _⟩ := hC
    exact hpath htyped
  | notes =>
    obtain ⟨_, _, _, title, htitle, rfl⟩ := hC
    have hkept := keyboardReadline_noBackspace htitle
    refine hpath fun c hc => ?_
    have hfile : ∀ c ∈ noteFile (str title.val.2.bytes), c ≠ 8 := by
      rw [noteFile, List.forall_mem_append]
      refine ⟨forall_of_all (by decide), ?_⟩
      rintro c hc rfl
      exact hkept (List.mem_of_mem_take hc)
    exact hfile c (List.takeWhile_subset _ hc)
  | cpy | mov | rename => exact hmakes hC.2
  | fm =>
    obtain ⟨_, _, _, _, ⟨_, _, _, line, _, _, _, _, hline, rfl⟩, _⟩ := hC
    rintro c hc rfl
    exact keyboardReadline_noBackspace hline hc
  | write | see | laf | del | look | wdir | goto | deld => cases hC

/-- Directories are made of the argument. -/
theorem creates_dir_printable (h : TypedNames s) (harg : TypedArg e) {p : List UInt8}
    (hC : e.Creates s p .dir) : ∀ c ∈ p, IsPrintable c := by
  obtain ⟨cmd, arg, keys⟩ := e
  cases cmd with
  | mkd =>
    obtain ⟨_, rfl, _⟩ := hC
    exact path_forall slash_printable h.dir harg
  | new => cases hC.2.2.2.1
  | edit => cases hC.2.2.1
  | notes => cases hC.2.1
  | cpy | mov | rename | fm => cases hC.1
  | write | see | laf | del | look | wdir | goto | deld => cases hC

/-! ## Runs -/

/-- `goto` stays in directories whose path can be printed. -/
theorem run_dir_printable (hinv : ShellInv s) (habs : (str s.currentDir.bytes).headD 0 = ch '/')
    (hdir : ∀ c ∈ str s.currentDir.bytes, IsPrintable c) (harg : TypedArg e) {r : Typed Shell}
    (hr : e.run s = some r) : ∀ c ∈ str r.val.currentDir.bytes, IsPrintable c := by
  by_cases hcmd : e.cmd = .goto
  · obtain ⟨cmd, arg, keys⟩ := e
    subst hcmd
    obtain ⟨r', hr', rfl⟩ := Option.map_eq_some_iff.mp hr
    show ∀ c ∈ str r'.1.currentDir.bytes, IsPrintable c
    obtain ⟨_, hsame | ⟨newDir, hnew, _, hmoved⟩⟩ := goto_cases hr'
    · rw [hsame]
      exact hdir
    · obtain ⟨b, hb, hbs⟩ := gotoDir_spec arg (Chars.uninit 64) habs hinv.dir
      rw [hnew] at hb
      cases hb
      rw [hmoved, hbs]
      exact gotoPath_printable hdir harg
  · rw [run_currentDir hr hcmd]
    exact hdir

/-- **A typed command** keeps the names. -/
theorem run_typedNames (hinv : ShellInv s) (habs : (str s.currentDir.bytes).headD 0 = ch '/')
    (h : TypedNames s) (harg : TypedArg e) {r : Typed Shell} (hr : e.run s = some r) :
    TypedNames r.val where
  dir := run_dir_printable hinv habs h.dir harg hr
  names := by
    intro p hp
    rcases (run_changes hinv.table hr).mem_before hp with hp | ⟨v, hC⟩
    · exact h.names p hp
    · exact creates_noBackspace h harg hC
  dirs := by
    intro p hp
    rcases (run_changes hinv.table hr).dir_before hp with hp | hC
    · exact h.dirs p hp
    · exact creates_dir_printable h harg hC

theorem boot_typedNames {t : FsTable} (ht : fsInit = some t) : TypedNames (bootShell t) := by
  obtain ⟨t₀, h0, -, hmap⟩ := fsInit_spec
  rw [ht] at h0
  cases h0
  have hroot : ∀ c ∈ text "/root", IsPrintable c := forall_of_all (by decide)
  have hmem : ∀ p, p ∈ fsMap t → p = text "/root" := by
    intro p hp
    rw [hmap, rootMap, Finmap.mem_singleton] at hp
    exact hp
  refine ⟨?_, ?_, ?_⟩
  · show ∀ c ∈ str bootDir.bytes, IsPrintable c
    rw [bootDir_str]
    exact hroot
  · intro p hp
    rw [hmem p hp]
    decide
  · intro p hp
    rw [hmem p (Finmap.mem_of_lookup_eq_some hp)]
    exact hroot

end MiniOS
