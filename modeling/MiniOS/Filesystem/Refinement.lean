import MiniOS.Filesystem.FileMap

/-!
# Runs of the file table

The map answers every run of calls after `fs_init` as the table does
(`fs_refines_map`): the spec lemmas of the operations make one step
(`fsStep_spec`), the simulation rule makes the run.
-/

namespace MiniOS

open Lib

theorem zeroTable_inv : TableInv fun _ => zeroEntry :=
  ⟨fun _ _ h => Bool.noConfusion h, fun _ h => Bool.noConfusion h⟩

theorem zeroTable_map : fsMap (fun _ => zeroEntry) = ∅ := by
  refine Finmap.ext_lookup fun k => ?_
  rw [Finmap.lookup_empty, fsMap, SlotTable.lookup_toMap, SlotTable.lookup_eq_none_iff,
    SlotTable.find_eq_none_iff]
  intro i v h
  cases h

theorem fsInit_spec : ∃ t, fsInit = some t ∧ TableInv t ∧ fsMap t = rootMap := by
  obtain ⟨r, hr, hinv, h⟩ := fsCreateDir_spec zeroTable_inv (text "/root")
  rw [zeroTable_map, show str (text "/root") = text "/root" by decide] at h
  refine ⟨r.table, ?_, hinv, ?_⟩
  · unfold fsInit
    rw [hr]
    rfl
  · rcases h with ⟨_, _, hmap⟩ | ⟨hno, _⟩
    · rw [hmap]
      rfl
    · exact absurd (by decide) hno

/-- A create is the one of the map. -/
theorem Creates.map_step {t : FsTable} {name : List UInt8} {v : Node} {r : FsResult}
    (h : Creates t name v r) :
    (if Creatable (fsMap t) (str name) then ((0, []), (fsMap t).insert (str name) v)
      else ((-1, []), fsMap t)) = ((r.ret, ([] : List UInt8)), fsMap r.table) := by
  rcases h.2 with ⟨hc, hret, hmap⟩ | ⟨hc, hret, htab⟩
  · rw [if_pos hc, hret, hmap]
  · rw [if_neg hc, hret, htab]

theorem Writes.map_step {t : FsTable} {name data : List UInt8} {len : Nat} {r : FsResult}
    (h : Writes t name data len r) :
    fsMapStep (fsMap t) (.write name data len) = ((r.ret, []), fsMap r.table) := by
  simp only [fsMapStep]
  rcases h.2 with ⟨old, hlook, hret, hmap⟩ | ⟨hno, hret, htab⟩
  · rw [hlook, hret, hmap]
  · split
    · next old hlook => exact absurd hlook (hno old)
    · rw [hret, htab]

/-- One call: the table comes back, keeps its invariant, and does what the map does. -/
theorem fsStep_spec {t : FsTable} (h : TableInv t) (e : FsCall) (hl : e.legal) :
    ∃ t', fsStep t e = some ((fsMapStep (fsMap t) e).1, t') ∧ TableInv t' ∧
      fsMap t' = (fsMapStep (fsMap t) e).2 := by
  cases e with
  | create name =>
    obtain ⟨r, hr, hc⟩ := fsCreate_spec h name
    have hstep : fsMapStep (fsMap t) (.create name) = ((r.ret, []), fsMap r.table) := hc.map_step
    rw [hstep]
    exact ⟨r.table, by simp only [fsStep, hr, Option.map_some], hc.1, rfl⟩
  | createDir name =>
    obtain ⟨r, hr, hc⟩ := fsCreateDir_spec h name
    have hstep : fsMapStep (fsMap t) (.createDir name) = ((r.ret, []), fsMap r.table) :=
      hc.map_step
    rw [hstep]
    exact ⟨r.table, by simp only [fsStep, hr, Option.map_some], hc.1, rfl⟩
  | isDir name =>
    refine ⟨t, ?_, h, rfl⟩
    simp only [fsStep, fsMapStep, fsIsDir_iff]
  | write name data len =>
    obtain ⟨r, hr, hw⟩ := fsWrite_spec h name data len hl.2
    rw [hw.map_step]
    exact ⟨r.table, by simp only [fsStep, hr, Option.map_some], hw.1, rfl⟩
  | read name buf bufSize =>
    obtain ⟨ret, buf', hr, hcase⟩ := fsRead_spec h name buf bufSize hl.1 hl.2.1 hl.2.2
    refine ⟨t, ?_, h, ?_⟩
    · simp only [fsStep, fsMapStep, hr, Option.map_some]
      rcases hcase with ⟨bytes, hlook, hret, hbuf⟩ | ⟨hno, hret, hbuf⟩
      · rw [hlook, hret, hbuf]
      · split
        · rename_i bytes hlook
          exact absurd hlook (hno bytes)
        · rw [hret, hbuf]
    · simp only [fsMapStep]
      split <;> rfl
  | delete name =>
    obtain ⟨hinv, hd⟩ := fsDelete_spec h name
    refine ⟨(fsDelete t name).table, ?_, hinv, ?_⟩
    · simp only [fsStep, fsMapStep]
      rcases hd with ⟨hm, hret, _⟩ | ⟨hm, hret, _⟩
      · rw [if_pos hm, hret]
      · rw [if_neg hm, hret]
    · simp only [fsMapStep]
      rcases hd with ⟨hm, _, hmap⟩ | ⟨hm, _, htab⟩
      · rw [if_pos hm, hmap]
      · rw [if_neg hm, htab]

/-- `fs_init` establishes the invariant and every call keeps it. -/
theorem fs_reach_inv {t : FsTable} (h : fsMachine.Reach t) : TableInv t := by
  refine h.invariant (I := TableInv) ?_ ?_
  · intro t ht
    obtain ⟨t₀, h0, hinv, _⟩ := fsInit_spec
    rw [show fsInit = some t from ht] at h0
    cases h0
    exact hinv
  · intro t e o t' ht hl hs
    obtain ⟨t₁, h1, hinv, _⟩ := fsStep_spec ht e hl
    rw [show fsStep t e = some (o, t') from hs] at h1
    cases h1
    exact hinv

/-- **The file table refines the map.**  After `fs_init` every run of calls
answers what the map answers and ends in the map's state; every further call
comes back, does the same to table and map, changes nothing when it fails and
nothing about other names; and used slots keep distinct NUL-terminated names
and sizes 0 to 256. -/
theorem fs_refines_map {t₀ t : FsTable} {es : List FsCall} {os : List (Int × List UInt8)}
    (h0 : fsInit = some t₀) (hr : fsMachine.Run t₀ es os t) :
    fsMapMachine.Run rootMap es os (fsMap t) ∧
      (∀ e, e.legal → ∃ ret out t', fsStep t e = some ((ret, out), t') ∧
        fsMapStep (fsMap t) e = ((ret, out), fsMap t') ∧ (ret < 0 → fsMap t' = fsMap t) ∧
        ∀ k, k ≠ e.name → (fsMap t').lookup k = (fsMap t).lookup k) ∧
      ∀ i, (t i).used → 0 ∈ (t i).name.bytes ∧ 0 ≤ (t i).size ∧ (t i).size ≤ 256 ∧
        ∀ j, (t j).used → str (t i).name.bytes = str (t j).name.bytes → i = j := by
  obtain ⟨t₁, h1, hinv0, hmap0⟩ := fsInit_spec
  rw [h0] at h1
  cases h1
  have hinv : TableInv t := fs_reach_inv ⟨t₀, es, os, h0, hr⟩
  refine ⟨?_, ?_, ?_⟩
  · have hsim : ∃ m, fsMapMachine.Run rootMap es os m ∧ TableInv t ∧ fsMap t = m := by
      refine hr.simulate (N := fsMapMachine) (R := fun t m => TableInv t ∧ fsMap t = m) ?_
        ⟨hinv0, hmap0⟩
      rintro t m e o t' ⟨ht, rfl⟩ hl hs
      obtain ⟨t₁, h1, hinv1, hmap1⟩ := fsStep_spec ht e hl
      rw [show fsStep t e = some (o, t') from hs] at h1
      cases h1
      exact ⟨hl, _, rfl, hinv1, hmap1⟩
    obtain ⟨m, hm, _, rfl⟩ := hsim
    exact hm
  · intro e hl
    obtain ⟨t', hs, _, hmap⟩ := fsStep_spec hinv e hl
    obtain ⟨hfail, hother⟩ := fsMapStep_frame (fsMap t) e
    rw [← hmap] at hfail hother
    exact ⟨_, _, t', hs, by rw [hmap], hfail, hother⟩
  · intro i hu
    obtain ⟨hterm, _, hpos, hle⟩ := hinv.entry i hu
    refine ⟨?_, hpos, hle, fun j => hinv.distinct i j hu⟩
    obtain ⟨s, hs⟩ := eq_str_append (t i).name.bytes (by rw [(t i).name.length_eq]; exact hterm)
    rw [hs]
    simp

/-- A run of two calls after `fs_init`. -/
theorem fs_refines_map_create : ∃ t₀ t os,
    fsMachine.Run t₀ [.create (text "a.txt"), .delete (text "a.txt")] os t ∧
      fsMapMachine.Run rootMap [.create (text "a.txt"), .delete (text "a.txt")] os (fsMap t) := by
  obtain ⟨t₀, h0, hinv, _⟩ := fsInit_spec
  obtain ⟨t₁, h1, hinv1, _⟩ := fsStep_spec hinv (.create (text "a.txt")) trivial
  obtain ⟨t₂, h2, _, _⟩ := fsStep_spec hinv1 (.delete (text "a.txt")) trivial
  have hr : fsMachine.Run t₀ [.create (text "a.txt"), .delete (text "a.txt")] [_, _] t₂ :=
    Machine.Run.cons trivial h1 (Machine.Run.cons trivial h2 (Machine.Run.nil t₂))
  exact ⟨t₀, t₂, _, hr, (fs_refines_map h0 hr).1⟩

/-- `fs_is_dir("/")` is 1 also where the map says that "/" is a file. -/
theorem isDir_root_file : ∃ t₀ t, fsInit = some t₀ ∧
    fsMachine.Run t₀ [.create (text "/"), .isDir (text "/")] [(0, []), (1, [])] t ∧
      (fsMap t).lookup (text "/") = some (.file []) := by
  obtain ⟨t₀, h0, hinv, hmap⟩ := fsInit_spec
  obtain ⟨t, h1, hinv1, hmap1⟩ := fsStep_spec hinv (.create (text "/")) trivial
  have hstr : str (text "/") = text "/" := by decide
  have hc : Creatable rootMap (text "/") := by decide
  simp only [fsMapStep, hmap, hstr, if_pos hc] at h1 hmap1
  refine ⟨t₀, t, h0, ?_, ?_⟩
  · refine Machine.Run.cons trivial h1 (Machine.Run.cons trivial ?_ (Machine.Run.nil t))
    show some _ = _
    rw [if_pos ((fsIsDir_iff t (text "/")).mpr (.inl hstr))]
  · rw [hmap1, Finmap.lookup_insert]

end MiniOS
