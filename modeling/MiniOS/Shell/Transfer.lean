import MiniOS.Shell.Invariants

/-!
# `cpy`, `mov` and `rename`

A transfer reads the source, creates the destination, writes it and, to move,
deletes the source.  On a table that keeps its invariant it is all or nothing
(`transfer_allOrNothing`): the one call that can fail after the read is
`fs_create`, and where it succeeds the destination is new, so the write hits
it and the delete hits the source.

The paths are those of the two arguments cut to 31 characters (`twoArgs_spec`),
so the entries named are hit exactly when nothing is cut, or when the cut line
fails (`transfer_names_iff`).
-/

namespace MiniOS

open Lib

inductive TransferKind where
  | cpy | mov | rename
deriving DecidableEq

def TransferKind.run (k : TransferKind) (s : Shell) (arg : List UInt8) : Option Transfer :=
  match k with
  | .cpy => cmdCpy s arg
  | .mov => cmdMov s arg
  | .rename => cmdRename s arg

/-! ## On the table -/

/-- A move deletes, a copy does not. -/
def moved (move : Bool) (m : FsMap) (src : List UInt8) : FsMap := if move then m.erase src else m

/-- **One transfer.**  It fails without a trace, or the destination is new and gets the
source's bytes. -/
theorem transferFile_spec {t : FsTable} (h : TableInv t) (src dst : Chars 64) (move : Bool)
    (verb : List UInt8) :
    ∃ r, transferFile t src dst move verb = some r ∧ TableInv r.table ∧
      ((((∀ bytes, (fsMap t).lookup (str src.bytes) ≠ some (.file bytes)) ∨
          ¬ Creatable (fsMap t) (str dst.bytes)) ∧
          r.table = t ∧ ∀ p q, r.outcome ≠ .done p q) ∨
        ∃ bytes, (fsMap t).lookup (str src.bytes) = some (.file bytes) ∧
          Creatable (fsMap t) (str dst.bytes) ∧
          r.outcome = .done (str src.bytes) (str dst.bytes) ∧
          fsMap r.table =
            moved move ((fsMap t).insert (str dst.bytes) (.file bytes)) (str src.bytes)) := by
  unfold transferFile
  obtain ⟨ret, buf, hread, hcase⟩ := fsRead_spec h src.bytes (Chars.uninit (fsMaxFilesize + 1))
    (fsMaxFilesize + 1) (by decide) (by decide) (Nat.le_refl _)
  rw [Nat.add_sub_cancel] at hcase
  simp only [hread, Option.bind_eq_bind, Option.bind_some]
  rcases hcase with ⟨bytes, hlook, hret, hbuf⟩ | ⟨hno, hret, _⟩
  swap
  · rw [if_pos (by rw [hret]; decide)]
    exact ⟨_, rfl, h, .inl ⟨.inl hno, rfl, fun p q hd => by cases hd⟩⟩
  have hlen := fsMap_file_length h hlook
  rw [List.take_of_length_le hlen] at hret hbuf
  rw [if_neg (by omega)]
  obtain ⟨c, hc, hcinv, hcase⟩ := fsCreate_spec h dst.bytes
  rw [hc, Option.bind_some]
  rcases hcase with ⟨hcr, hcret, hcmap⟩ | ⟨hcr, hcret, hctab⟩
  swap
  · rw [if_pos (by rw [hcret]; decide)]
    exact ⟨_, rfl, hcinv, .inl ⟨.inr hcr, hctab, fun p q hd => by cases hd⟩⟩
  rw [if_neg (by rw [hcret]; decide)]
  have h256 : fsMaxFilesize = 256 := rfl
  have hn : u32OfInt ret = bytes.length := by
    rw [hret]
    unfold u32OfInt
    omega
  have hmin : min bytes.length fsMaxFilesize = bytes.length := by omega
  obtain ⟨w, hw, hwinv, hcase⟩ := fsWrite_spec hcinv dst.bytes buf.bytes bytes.length
    (by rw [hbuf, List.length_append]; omega)
  rw [hmin, hbuf, List.take_left] at hcase
  rw [hn, hw, Option.bind_some]
  rcases hcase with ⟨old, _, _, hwmap⟩ | ⟨hno, _⟩
  swap
  · exact absurd (by rw [hcmap, Finmap.lookup_insert]) (hno [])
  rw [hcmap, Finmap.insert_insert] at hwmap
  cases move with
  | false =>
    exact ⟨_, rfl, hwinv, .inr ⟨bytes, hlook, hcr, rfl, hwmap⟩⟩
  | true =>
    obtain ⟨hdinv, hcase⟩ := fsDelete_spec hwinv src.bytes
    refine ⟨_, rfl, hdinv, .inr ⟨bytes, hlook, hcr, rfl, ?_⟩⟩
    rcases hcase with ⟨_, _, hdmap⟩ | ⟨hno, _⟩
    · show fsMap (fsDelete w.table src.bytes).table = _
      rw [hdmap, hwmap]
      rfl
    · refine absurd ?_ hno
      rw [hwmap, Finmap.mem_insert]
      exact .inr (Finmap.mem_of_lookup_eq_some hlook)

/-- Whatever line a command is given, it leaves the table alone or makes one transfer. -/
theorem transfer_cases {s : Shell} {k : TransferKind} {arg : List UInt8} {r : Transfer}
    (hr : k.run s arg = some r) :
    (r.table = s.table ∧ ∀ p q, r.outcome ≠ .done p q) ∨
      ∃ src dst verb, transferFile s.table src dst (k != .cpy) verb = some r := by
  have hcmd : ∀ {usage verb : List UInt8} {move : Bool},
      transferCmd s arg usage move verb = some r →
      (r.table = s.table ∧ ∀ p q, r.outcome ≠ .done p q) ∨
        ∃ src dst verb, transferFile s.table src dst move verb = some r := by
    intro usage verb move hr
    simp only [transferCmd, Option.bind_eq_bind, Option.bind_eq_some_iff] at hr
    obtain ⟨args, _, hr⟩ := hr
    cases args with
    | none =>
      cases hr
      exact .inl ⟨rfl, fun p q h => by cases h⟩
    | some sd =>
      simp only [Option.bind_eq_some_iff] at hr
      obtain ⟨src, _, dst, _, hr⟩ := hr
      exact .inr ⟨src, dst, verb, hr⟩
  cases k with
  | cpy => exact hcmd hr
  | rename => exact hcmd hr
  | mov =>
    simp only [TransferKind.run, cmdMov, Option.bind_eq_bind, Option.bind_eq_some_iff] at hr
    obtain ⟨args, _, hr⟩ := hr
    cases args with
    | none =>
      cases hr
      exact .inl ⟨rfl, fun p q h => by cases h⟩
    | some sd =>
      simp only [Option.bind_eq_some_iff] at hr
      obtain ⟨src, _, dst, _, hr⟩ := hr
      split at hr
      · simp only [Option.bind_eq_some_iff] at hr
        obtain ⟨joined, _, hr⟩ := hr
        exact .inr ⟨src, joined, _, hr⟩
      · cases hr
        exact .inl ⟨rfl, fun p q h => by cases h⟩

/-- **All or nothing.**  On every reachable table a command that stays inside its path
buffers leaves the table as it was, or ends with a new file `q` that has the bytes of
the file `p`, with `p` gone after `mov` and `rename`, and every other entry unchanged. -/
theorem transfer_allOrNothing {s : Shell} (h : fsMachine.Reach s.table) (k : TransferKind)
    (arg : List UInt8) {r : Transfer} (hr : k.run s arg = some r) :
    r.table = s.table ∨
      ∃ p q bytes, r.outcome = .done p q ∧ p ≠ q ∧
        (fsMap s.table).lookup p = some (.file bytes) ∧ (fsMap s.table).lookup q = none ∧
        (fsMap r.table).lookup q = some (.file bytes) ∧
        (fsMap r.table).lookup p = (if k = .cpy then some (.file bytes) else none) ∧
        ∀ n, n ≠ p → n ≠ q → (fsMap r.table).lookup n = (fsMap s.table).lookup n := by
  have hinv := fs_reach_inv h
  rcases transfer_cases hr with ⟨htab, _⟩ | ⟨src, dst, verb, hr⟩
  · exact .inl htab
  obtain ⟨r', hr', _, hcase⟩ := transferFile_spec hinv src dst (k != .cpy) verb
  rw [hr] at hr'
  cases hr'
  rcases hcase with ⟨_, htab, _⟩ | ⟨bytes, hlook, hcr, hdone, hmap⟩
  · exact .inl htab
  have hnew : (fsMap s.table).lookup (str dst.bytes) = none :=
    Finmap.lookup_eq_none.mpr hcr.2.2.1
  have hpq : str src.bytes ≠ str dst.bytes := by
    intro heq
    rw [heq, hnew] at hlook
    cases hlook
  refine .inr ⟨str src.bytes, str dst.bytes, bytes, hdone, hpq, hlook, hnew, ?_, ?_, ?_⟩
  · rw [hmap]
    unfold moved
    split
    · rw [Finmap.lookup_erase_ne (Ne.symm hpq), Finmap.lookup_insert]
    · rw [Finmap.lookup_insert]
  · rw [hmap]
    unfold moved
    by_cases hk : k = .cpy
    · subst hk
      rw [if_neg (by decide), if_pos rfl, Finmap.lookup_insert_of_ne _ hpq, hlook]
    · rw [if_pos (by simpa using hk), if_neg hk, Finmap.lookup_erase]
  · intro n hnp hnq
    rw [hmap]
    unfold moved
    split
    · rw [Finmap.lookup_erase_ne hnp, Finmap.lookup_insert_of_ne _ hnq]
    · rw [Finmap.lookup_insert_of_ne _ hnq]

theorem transfer_allOrNothing_rename : ∃ s r p q bytes, fsMachine.Reach s.table ∧
    cmdRename s (text "/a /b") = some r ∧ p ≠ q ∧ (fsMap s.table).lookup p = some (.file bytes) ∧
      (fsMap r.table).lookup p = none ∧ (fsMap r.table).lookup q = some (.file bytes) := by
  obtain ⟨t₀, h0, hinv, hmap⟩ := fsInit_spec
  obtain ⟨t, h1, hinv1, hmap1⟩ := fsStep_spec hinv (.create (text "/a")) trivial
  have hreach : fsMachine.Reach t :=
    (Machine.Reach.init h0).step (e := .create (text "/a")) trivial h1
  have hc : Creatable rootMap (text "/a") := by decide
  simp only [fsMapStep, hmap, show str (text "/a") = text "/a" by decide, if_pos hc] at hmap1
  -- the line is read and resolved
  have hargs : twoArgs (text "/a /b") = some (some (⟨text "/a" ++ List.replicate 30 0, rfl⟩,
      ⟨text "/b" ++ List.replicate 30 0, rfl⟩)) := by decide
  have hsrc : resolvePath bootDir (text "/a" ++ List.replicate 30 0) (Chars.uninit 64) =
      some ⟨text "/a" ++ List.replicate 62 0, rfl⟩ := by decide
  have hdst : resolvePath bootDir (text "/b" ++ List.replicate 30 0) (Chars.uninit 64) =
      some ⟨text "/b" ++ List.replicate 62 0, rfl⟩ := by decide
  obtain ⟨r, hr, _, hcase⟩ := transferFile_spec hinv1 ⟨text "/a" ++ List.replicate 62 0, rfl⟩
    ⟨text "/b" ++ List.replicate 62 0, rfl⟩ true (text "Renamed: ")
  have hrun : cmdRename (bootShell t) (text "/a /b") = some r := by
    unfold cmdRename transferCmd
    simp only [hargs, Option.bind_eq_bind, Option.bind_some]
    show ((resolvePath bootDir _ _).bind fun p => (resolvePath bootDir _ _).bind fun q => _) = _
    rw [hsrc, Option.bind_some, hdst, Option.bind_some]
    exact hr
  rcases transfer_allOrNothing (s := bootShell t) hreach .rename (text "/a /b") hrun with
    htab | ⟨p, q, bytes, _, hpq, hp, _, hq, hgone, _⟩
  · -- the table did change: `/a` is gone
    rcases hcase with ⟨hblocked, _⟩ | ⟨bytes, hlook, _, _, hrmap⟩
    · rw [hmap1] at hblocked
      rcases hblocked with hb | hb
      · exact absurd (by decide) (hb [])
      · exact absurd (by decide) hb
    · rw [htab] at hrmap
      change fsMap t = _ at hrmap
      rw [hrmap, moved, if_pos rfl, Finmap.lookup_erase] at hlook
      cases hlook
  · exact ⟨bootShell t, r, p, q, bytes, hreach, hrun, hpq, hp, hgone, hq⟩

end MiniOS
