import MiniOS.Lib.SlotTable
import MiniOS.Filesystem.FileTable

/-!
# The file table as a finite map

What the table is for: a map from at most 32 names to directories and files
(`FsMap`).  `fsMapMachine` is the map with the same calls; `fsMap t` is the map
a table holds.  Each operation has one spec lemma (`fsCreate_spec`, …): on a
table that keeps `TableInv` it comes back, keeps `TableInv`, and does to
`fsMap t` what the map does.

One call answers without looking: `fs_is_dir("/")` is 1 whatever the table holds.
-/

namespace MiniOS

open Lib

/-- What a name stands for. -/
inductive Node where
  | dir
  | file (bytes : List UInt8)
deriving DecidableEq

abbrev FsMap := Finmap fun _ : List UInt8 => Node

/-! ## The map -/

/-- `create` succeeds on a new name of 1 to 63 characters while there is room. -/
def Creatable (m : FsMap) (name : List UInt8) : Prop :=
  0 < name.length ∧ name.length < fsMaxFilename ∧ name ∉ m ∧ m.keys.card < fsMaxFiles

instance (m : FsMap) (name : List UInt8) : Decidable (Creatable m name) := by
  unfold Creatable
  infer_instance

/-- One call on the map. -/
def fsMapStep (m : FsMap) : FsCall → (Int × List UInt8) × FsMap
  | .create name =>
    if Creatable m (str name) then ((0, []), m.insert (str name) (.file [])) else ((-1, []), m)
  | .createDir name =>
    if Creatable m (str name) then ((0, []), m.insert (str name) .dir) else ((-1, []), m)
  | .isDir name =>
    ((if str name = text "/" ∨ m.lookup (str name) = some .dir then 1 else 0, []), m)
  | .write name data len =>
    match m.lookup (str name) with
    | some (.file _) =>
      let bytes := data.take (min len fsMaxFilesize)
      ((bytes.length, []), m.insert (str name) (.file bytes))
    | _ => ((-1, []), m)
  | .read name buf bufSize =>
    match m.lookup (str name) with
    | some (.file bytes) =>
      let out := bytes.take (bufSize - 1)
      ((out.length, out ++ 0 :: buf.bytes.drop (out.length + 1)), m)
    | _ => ((-1, buf.bytes), m)
  | .delete name =>
    if str name ∈ m then ((0, []), m.erase (str name)) else ((-1, []), m)

/-- The map `fs_init` leaves. -/
def rootMap : FsMap := Finmap.singleton (text "/root") .dir

def fsMapMachine : Machine FsMap FsCall (Int × List UInt8) where
  init m := m = rootMap
  legal _ := FsCall.legal
  step m e := some (fsMapStep m e)

/-- A call of the map changes no name but its own, and nothing when it fails. -/
theorem fsMapStep_frame (m : FsMap) (e : FsCall) :
    ((fsMapStep m e).1.1 < 0 → (fsMapStep m e).2 = m) ∧
      ∀ k, k ≠ e.name → (fsMapStep m e).2.lookup k = m.lookup k := by
  have hins : ∀ (name : List UInt8) (v : Node) (k : List UInt8), k ≠ str name →
      (m.insert (str name) v).lookup k = m.lookup k := by
    intro name v k hk
    exact Finmap.lookup_insert_of_ne m hk
  cases e with
  | create name | createDir name =>
    simp only [fsMapStep]
    by_cases hc : Creatable m (str name)
    · rw [if_pos hc]
      exact ⟨fun h => absurd h (Int.lt_irrefl 0), hins name _⟩
    · rw [if_neg hc]
      exact ⟨fun _ => rfl, fun _ _ => rfl⟩
  | isDir name => exact ⟨fun _ => rfl, fun _ _ => rfl⟩
  | write name data len =>
    simp only [fsMapStep]
    split
    · refine ⟨fun h => absurd h ?_, hins name _⟩
      show ¬ ((_ : Nat) : Int) < 0
      omega
    · exact ⟨fun _ => rfl, fun _ _ => rfl⟩
  | read name buf bufSize =>
    simp only [fsMapStep]
    split
    · exact ⟨fun _ => rfl, fun _ _ => rfl⟩
    · exact ⟨fun _ => rfl, fun _ _ => rfl⟩
  | delete name =>
    simp only [fsMapStep]
    by_cases hm : str name ∈ m
    · rw [if_pos hm]
      exact ⟨fun h => absurd h (Int.lt_irrefl 0), fun k hk => Finmap.lookup_erase_ne hk⟩
    · rw [if_neg hm]
      exact ⟨fun _ => rfl, fun _ _ => rfl⟩

/-! ## The map a table holds -/

/-- What an entry says. -/
def entryView (e : FileEntry) : Option (List UInt8 × Node) :=
  if e.used then
    some (str e.name.bytes, if e.isDir then .dir else .file (e.data.bytes.take (u32OfInt e.size)))
  else none

def fsView (t : FsTable) : Fin fsMaxFiles → Option (List UInt8 × Node) := fun i => entryView (t i)

def fsMap (t : FsTable) : FsMap := SlotTable.toMap (fsView t)

/-- A used entry: its name is a string of 1 to 63 bytes, its size fits its data. -/
structure EntryOk (e : FileEntry) : Prop where
  terminated : (str e.name.bytes).length < fsMaxFilename
  nonempty : str e.name.bytes ≠ []
  size_nonneg : 0 ≤ e.size
  size_le : e.size ≤ fsMaxFilesize

/-- The invariant of the table. -/
structure TableInv (t : FsTable) : Prop where
  distinct : ∀ i j, (t i).used → (t j).used → str (t i).name.bytes = str (t j).name.bytes → i = j
  entry : ∀ i, (t i).used → EntryOk (t i)

theorem entryView_of_used {e : FileEntry} (h : e.used) :
    entryView e =
      some (str e.name.bytes,
        if e.isDir then .dir else .file (e.data.bytes.take (u32OfInt e.size))) := by
  unfold entryView
  rw [if_pos h]

theorem used_of_entryView {e : FileEntry} {k : List UInt8} {v : Node}
    (h : entryView e = some (k, v)) : e.used ∧ str e.name.bytes = k := by
  unfold entryView at h
  split at h
  · cases h
    exact ⟨by assumption, rfl⟩
  · cases h

theorem TableInv.slots {t : FsTable} (h : TableInv t) : SlotTable.Distinct (fsView t) := by
  intro i j k v w hi hj
  obtain ⟨ui, ni⟩ := used_of_entryView hi
  obtain ⟨uj, nj⟩ := used_of_entryView hj
  exact h.distinct i j ui uj (by rw [ni, nj])

theorem fsView_update (t : FsTable) (i : Fin fsMaxFiles) (e : FileEntry) :
    fsView (Function.update t i e) = Function.update (fsView t) i (entryView e) := by
  funext j
  unfold fsView
  rw [Function.update_apply, Function.update_apply]
  split <;> rfl

theorem fsFind_eq (t : FsTable) (name : List UInt8) :
    fsFind t name = SlotTable.find (fsView t) (str name) := by
  unfold fsFind SlotTable.find
  congr 1
  funext i
  show _ = (entryView (t i)).any _
  unfold entryView
  cases hu : (t i).used with
  | false => simp
  | true =>
    by_cases hn : str (t i).name.bytes = str name
    · simp [(strcmp_eq_zero_iff _ _).mpr hn, hn]
    · have : strcmp (t i).name.bytes name ≠ 0 := fun h => hn ((strcmp_eq_zero_iff _ _).mp h)
      simp [this, hn]

theorem fsFreeSlot_eq (t : FsTable) : fsFreeSlot t = SlotTable.freeSlot (fsView t) := by
  unfold fsFreeSlot SlotTable.freeSlot
  congr 1
  funext i
  show _ = (entryView (t i)).isNone
  unfold entryView
  cases (t i).used <;> rfl

theorem fsFind_none {t : FsTable} {name : List UInt8} (h : fsFind t name = none) :
    (fsMap t).lookup (str name) = none := by
  rw [fsMap, SlotTable.lookup_toMap, SlotTable.lookup_eq_none_iff, ← fsFind_eq, h]

/-- The entry found is used, has the name, and is what the map says. -/
theorem fsFind_some {t : FsTable} {name : List UInt8} {i : Fin fsMaxFiles}
    (h : fsFind t name = some i) :
    (t i).used ∧ str (t i).name.bytes = str name ∧
      (fsMap t).lookup (str name) =
        some (if (t i).isDir then .dir
          else .file ((t i).data.bytes.take (u32OfInt (t i).size))) := by
  rw [fsFind_eq] at h
  obtain ⟨v, hv⟩ := SlotTable.find_spec h
  obtain ⟨hu, hn⟩ := used_of_entryView hv
  refine ⟨hu, hn, ?_⟩
  rw [fsMap, SlotTable.lookup_toMap, SlotTable.lookup, h, Option.bind_some]
  show (entryView (t i)).map _ = _
  rw [entryView_of_used hu]
  rfl

theorem fsFind_isSome_iff (t : FsTable) (name : List UInt8) :
    (fsFind t name).isSome ↔ str name ∈ fsMap t := by
  rw [← Finmap.lookup_isSome]
  cases h : fsFind t name with
  | none => rw [fsFind_none h]; exact Iff.rfl
  | some i => rw [(fsFind_some h).2.2]; exact iff_of_true rfl rfl

theorem fsFreeSlot_isSome_iff {t : FsTable} (h : TableInv t) :
    (fsFreeSlot t).isSome ↔ (fsMap t).keys.card < fsMaxFiles := by
  rw [fsFreeSlot_eq]
  exact SlotTable.freeSlot_isSome_iff h.slots

/-- The names of the map are those of the used entries. -/
theorem mem_fsMap_iff {t : FsTable} (h : TableInv t) {p : List UInt8} :
    p ∈ fsMap t ↔ ∃ i, (t i).used ∧ str (t i).name.bytes = p := by
  rw [← Finmap.lookup_isSome]
  constructor
  · intro hl
    obtain ⟨v, hv⟩ := Option.isSome_iff_exists.mp hl
    rw [fsMap, SlotTable.lookup_toMap, h.slots.lookup_eq_some_iff] at hv
    obtain ⟨i, hi⟩ := hv
    exact ⟨i, used_of_entryView hi⟩
  · rintro ⟨i, hu, rfl⟩
    have hl : (fsMap t).lookup (str (t i).name.bytes) = some
        (if (t i).isDir then .dir else .file ((t i).data.bytes.take (u32OfInt (t i).size))) := by
      rw [fsMap, SlotTable.lookup_toMap, h.slots.lookup_eq_some_iff]
      exact ⟨i, entryView_of_used hu⟩
    rw [hl]
    rfl

/-- The directories of the map are those of the table. -/
theorem lookup_dir_iff {t : FsTable} (h : TableInv t) {p : List UInt8} :
    (fsMap t).lookup p = some .dir ↔ ∃ i, (t i).used ∧ (t i).isDir ∧ str (t i).name.bytes = p := by
  rw [fsMap, SlotTable.lookup_toMap, h.slots.lookup_eq_some_iff]
  constructor
  · rintro ⟨i, hi⟩
    obtain ⟨hu, hn⟩ := used_of_entryView hi
    have hv := entryView_of_used hu
    rw [show entryView (t i) = some (p, .dir) from hi] at hv
    have hnode := congrArg Prod.snd (Option.some.inj hv)
    refine ⟨i, hu, ?_, hn⟩
    by_contra hfile
    rw [if_neg hfile] at hnode
    cases hnode
  · rintro ⟨i, hu, hdir, rfl⟩
    refine ⟨i, (entryView_of_used hu).trans ?_⟩
    rw [if_pos hdir]

theorem fsMap_file_length {t : FsTable} (h : TableInv t) {name bytes : List UInt8}
    (hl : (fsMap t).lookup name = some (.file bytes)) : bytes.length ≤ fsMaxFilesize := by
  rw [fsMap, SlotTable.lookup_toMap, h.slots.lookup_eq_some_iff] at hl
  obtain ⟨i, hi⟩ := hl
  obtain ⟨hu, _⟩ := used_of_entryView hi
  have hv := entryView_of_used hu
  rw [show entryView (t i) = some (name, .file bytes) from hi] at hv
  have hb := congrArg Prod.snd (Option.some.inj hv)
  dsimp only at hb
  split at hb
  · cases hb
  · rw [Node.file.inj hb, List.length_take, (t i).data.length_eq]
    exact Nat.min_le_right _ _

/-! ## The operations -/

/-- A table whose entries are those of `t` but for slot `i`. -/
theorem TableInv.update {t : FsTable} (h : TableInv t) {i : Fin fsMaxFiles} {e : FileEntry}
    (hok : e.used → EntryOk e) (hd : SlotTable.Distinct (fsView (Function.update t i e))) :
    TableInv (Function.update t i e) := by
  constructor
  · intro a b ha hb hn
    have va := entryView_of_used ha
    have vb := entryView_of_used hb
    rw [← hn] at vb
    exact hd a b _ _ _ va vb
  · intro a ha
    by_cases hai : a = i
    · subst hai
      rw [Function.update_self] at ha ⊢
      exact hok ha
    · rw [Function.update_of_ne hai] at ha ⊢
      exact h.entry a ha

theorem takeSlot_spec {t : FsTable} (h : TableInv t) {slot : Fin fsMaxFiles} {name : List UInt8}
    (isDir : Bool) (hlen : (str name).length < fsMaxFilename) (hne : str name ≠ [])
    (hfind : fsFind t name = none) (hslot : fsFreeSlot t = some slot) :
    ∃ t', takeSlot t slot name isDir = some t' ∧ TableInv t' ∧
      fsMap t' = (fsMap t).insert (str name) (if isDir then .dir else .file []) := by
  have h63 : fsMaxFilename - 1 = 63 := rfl
  have h64 : fsMaxFilename = 64 := rfl
  obtain ⟨b, b', hb, hb', hstr⟩ :=
    strncpy_put_spec (t slot).name 0 name (fsMaxFilename - 1) (by omega) (Nat.zero_le _)
  rw [Nat.zero_add] at hb'
  rw [List.take_zero, List.nil_append, List.take_of_length_le (by omega)] at hstr
  let e : FileEntry := { t slot with name := b', size := 0, used := true, isDir := isDir }
  have hview : entryView e = some (str name, if isDir then .dir else .file []) := by
    rw [entryView_of_used rfl]
    show some (str b'.bytes, _) = _
    rw [hstr]
    rfl
  have hins := SlotTable.toMap_insert h.slots (by rw [← fsFreeSlot_eq, hslot])
    (by rw [← fsFind_eq, hfind]) (if isDir then Node.dir else Node.file [])
  refine ⟨Function.update t slot e, ?_, ?_, ?_⟩
  · unfold takeSlot
    simp only [hb, hb', Option.bind_eq_bind, Option.bind_some]
    rfl
  · refine h.update ?_ ?_
    · intro _
      refine ⟨?_, ?_, Int.le_refl 0, Int.natCast_nonneg _⟩
      · show (str b'.bytes).length < _
        rw [hstr]
        exact hlen
      · show str b'.bytes ≠ []
        rw [hstr]
        exact hne
    · rw [fsView_update, hview]
      exact hins.1
  · unfold fsMap
    rw [fsView_update, hview]
    exact hins.2

/-- What a create does: an insert, or nothing. -/
def Creates (t : FsTable) (name : List UInt8) (v : Node) (r : FsResult) : Prop :=
  TableInv r.table ∧
    ((Creatable (fsMap t) (str name) ∧ r.ret = 0 ∧ fsMap r.table = (fsMap t).insert (str name) v) ∨
      (¬ Creatable (fsMap t) (str name) ∧ r.ret = -1 ∧ r.table = t))

theorem createEntry_spec {t : FsTable} (h : TableInv t) (name : List UInt8) (isDir : Bool)
    (msg : CreateError → List UInt8) :
    ∃ r, createEntry t name isDir msg = some r ∧
      Creates t name (if isDir then .dir else .file []) r := by
  have hfail : ∀ e, ¬ Creatable (fsMap t) (str name) →
      ∃ r, some (⟨-1, msg e, t⟩ : FsResult) = some r ∧
        Creates t name (if isDir then .dir else .file []) r :=
    fun e hc => ⟨_, rfl, h, .inr ⟨hc, rfl, rfl⟩⟩
  unfold createEntry
  rw [strlen_eq]
  by_cases h0 : (str name).length = 0
  · rw [if_pos h0]
    exact hfail _ fun hc => by have := hc.1; omega
  by_cases h1 : (str name).length ≥ fsMaxFilename
  · rw [if_neg h0, if_pos h1]
    exact hfail _ fun hc => by have := hc.2.1; omega
  by_cases h2 : (fsFind t name).isSome
  · rw [if_neg h0, if_neg h1, if_pos h2]
    exact hfail _ fun hc => hc.2.2.1 ((fsFind_isSome_iff t name).mp h2)
  rw [if_neg h0, if_neg h1, if_neg h2]
  have hcard := fsFreeSlot_isSome_iff h
  cases hs : fsFreeSlot t with
  | none =>
    rw [hs] at hcard
    exact hfail _ fun hc => Bool.false_ne_true (hcard.mpr hc.2.2.2)
  | some slot =>
    rw [hs] at hcard
    have hne : str name ≠ [] := fun hn => h0 (by rw [hn]; rfl)
    obtain ⟨t', ht', hinv, hmap⟩ :=
      takeSlot_spec h isDir (by omega) hne (Option.not_isSome_iff_eq_none.mp h2) hs
    refine ⟨⟨0, [], t'⟩, ?_, hinv, .inl ⟨⟨by omega, by omega, ?_, hcard.mp rfl⟩, rfl, hmap⟩⟩
    · show (takeSlot t slot name isDir).bind _ = _
      rw [ht']
      rfl
    · rw [← fsFind_isSome_iff]
      exact h2

theorem fsCreate_spec {t : FsTable} (h : TableInv t) (name : List UInt8) :
    ∃ r, fsCreate t name = some r ∧ Creates t name (.file []) r :=
  createEntry_spec h name false _

theorem fsCreateDir_spec {t : FsTable} (h : TableInv t) (name : List UInt8) :
    ∃ r, fsCreateDir t name = some r ∧ Creates t name .dir r :=
  createEntry_spec h name true _

theorem fsCreate_creates {t : FsTable} (h : TableInv t) {name : List UInt8} {r : FsResult}
    (hr : fsCreate t name = some r) : Creates t name (.file []) r := by
  obtain ⟨r', hr', hcr⟩ := fsCreate_spec h name
  rw [hr] at hr'
  cases hr'
  exact hcr

theorem fsCreateDir_creates {t : FsTable} (h : TableInv t) {name : List UInt8} {r : FsResult}
    (hr : fsCreateDir t name = some r) : Creates t name .dir r := by
  obtain ⟨r', hr', hcr⟩ := fsCreateDir_spec h name
  rw [hr] at hr'
  cases hr'
  exact hcr

theorem fsIsDir_iff (t : FsTable) (name : List UInt8) :
    fsIsDir t name ↔ str name = text "/" ∨ (fsMap t).lookup (str name) = some .dir := by
  have hroot : strcmp name (text "/") = 0 ↔ str name = text "/" := by
    rw [strcmp_eq_zero_iff]
    exact Iff.rfl
  unfold fsIsDir
  by_cases h : strcmp name (text "/") = 0
  · rw [if_pos h]
    exact iff_of_true rfl (.inl (hroot.mp h))
  · rw [if_neg h]
    have hn : str name ≠ text "/" := fun hn => h (hroot.mpr hn)
    cases hf : fsFind t name with
    | none =>
      rw [fsFind_none hf]
      simp [hn]
    | some i =>
      rw [(fsFind_some hf).2.2]
      cases h : (t i).isDir <;> simp [hn, h]

/-- What a write does: the first `min(len, 256)` bytes replace a file's, or nothing. -/
def Writes (t : FsTable) (name data : List UInt8) (len : Nat) (r : FsResult) : Prop :=
  TableInv r.table ∧
    ((∃ old, (fsMap t).lookup (str name) = some (.file old) ∧
        r.ret = (data.take (min len fsMaxFilesize)).length ∧
        fsMap r.table =
          (fsMap t).insert (str name) (.file (data.take (min len fsMaxFilesize)))) ∨
      ((∀ old, (fsMap t).lookup (str name) ≠ some (.file old)) ∧ r.ret = -1 ∧ r.table = t))

theorem fsWrite_spec {t : FsTable} (h : TableInv t) (name data : List UInt8) (len : Nat)
    (hdata : min len fsMaxFilesize ≤ data.length) :
    ∃ r, fsWrite t name data len = some r ∧ Writes t name data len r := by
  unfold fsWrite
  cases hf : fsFind t name with
  | none =>
    refine ⟨_, rfl, h, .inr ⟨?_, rfl, rfl⟩⟩
    rw [fsFind_none hf]
    intro old ho
    cases ho
  | some i =>
    obtain ⟨hu, hn, hlook⟩ := fsFind_some hf
    by_cases hd : (t i).isDir
    · simp only [if_pos hd]
      refine ⟨_, rfl, h, .inr ⟨?_, rfl, rfl⟩⟩
      rw [hlook, if_pos hd]
      intro old ho
      cases ho
    · simp only [if_neg hd]
      have hmin : (if len > fsMaxFilesize then fsMaxFilesize else len) = min len fsMaxFilesize := by
        split <;> omega
      rw [hmin, memcpy, memcpyLoop_eq _ _ _ _ hdata]
      have hlen : (data.take (min len fsMaxFilesize)).length = min len fsMaxFilesize := by
        rw [List.length_take]; omega
      obtain ⟨b, hb, hbytes⟩ :=
        (t i).data.write_eq 0 (data.take (min len fsMaxFilesize)) (by rw [hlen]; omega)
      have hsmall : min len fsMaxFilesize ≤ 256 := Nat.min_le_right _ _
      let e : FileEntry := { t i with data := b, size := (min len fsMaxFilesize : Nat) }
      have hsize : u32OfInt (min len fsMaxFilesize : Nat) = min len fsMaxFilesize := by
        unfold u32OfInt; omega
      have hview : entryView e =
          some (str name, .file (data.take (min len fsMaxFilesize))) := by
        rw [entryView_of_used (e := e) hu]
        show some (str (t i).name.bytes, if (t i).isDir then _ else
          Node.file (b.bytes.take (u32OfInt (min len fsMaxFilesize : Nat)))) = _
        rw [hn, if_neg hd, hsize, hbytes, List.take_zero, List.nil_append,
          List.take_append_of_le_length (by rw [hlen]), List.take_of_length_le (by rw [hlen])]
      have hrep := SlotTable.toMap_replace h.slots (by rw [← fsFind_eq, hf])
        (Node.file (data.take (min len fsMaxFilesize)))
      refine ⟨⟨_, [], Function.update t i e⟩, by rw [hb]; rfl, ?_,
        .inl ⟨(t i).data.bytes.take (u32OfInt (t i).size), ?_, ?_, ?_⟩⟩
      · refine h.update ?_ ?_
        · intro hue
          obtain ⟨h1, h2, _, _⟩ := h.entry i hu
          exact ⟨h1, h2, Int.natCast_nonneg _, Int.ofNat_le.mpr (Nat.min_le_right _ _)⟩
        · rw [fsView_update, hview]
          exact hrep.1
      · rw [hlook, if_neg hd]
      · rw [hlen]
      · unfold fsMap
        rw [fsView_update, hview]
        exact hrep.2

theorem fsWrite_writes {t : FsTable} (h : TableInv t) {name data : List UInt8} {len : Nat}
    {r : FsResult} (hr : fsWrite t name data len = some r)
    (hdata : min len fsMaxFilesize ≤ data.length) : Writes t name data len r := by
  obtain ⟨r', hr', hw⟩ := fsWrite_spec h name data len hdata
  rw [hr] at hr'
  cases hr'
  exact hw

/-- `fs_read` gives the first `min(size, buf_size - 1)` bytes and a NUL. -/
theorem fsRead_spec {t : FsTable} (h : TableInv t) (name : List UInt8) {n : Nat} (buf : Chars n)
    (bufSize : Nat) (h1 : 1 ≤ bufSize) (h32 : bufSize < 2 ^ 32) (hn : bufSize ≤ n) :
    ∃ ret buf', fsRead t name buf bufSize = some (ret, buf') ∧
      ((∃ bytes, (fsMap t).lookup (str name) = some (.file bytes) ∧
          ret = (bytes.take (bufSize - 1)).length ∧
          buf'.bytes = bytes.take (bufSize - 1) ++
            0 :: buf.bytes.drop ((bytes.take (bufSize - 1)).length + 1)) ∨
        ((∀ bytes, (fsMap t).lookup (str name) ≠ some (.file bytes)) ∧ ret = -1 ∧ buf' = buf)) := by
  unfold fsRead
  cases hf : fsFind t name with
  | none =>
    refine ⟨_, _, rfl, .inr ⟨?_, rfl, rfl⟩⟩
    rw [fsFind_none hf]
    intro old ho
    cases ho
  | some i =>
    obtain ⟨hu, hname, hlook⟩ := fsFind_some hf
    by_cases hd : (t i).isDir
    · simp only [if_pos hd]
      refine ⟨_, _, rfl, .inr ⟨?_, rfl, rfl⟩⟩
      rw [hlook, if_pos hd]
      intro old ho
      cases ho
    · simp only [if_neg hd]
      obtain ⟨_, _, hpos, hle⟩ := h.entry i hu
      have h256 : fsMaxFilesize = 256 := rfl
      have hdata := (t i).data.length_eq
      have hsize : u32OfInt (t i).size ≤ 256 := by unfold u32OfInt; omega
      have hroom : u32 (bufSize + 2 ^ 32 - 1) = bufSize - 1 := by unfold u32; omega
      have hk : (if u32OfInt (t i).size > u32 (bufSize + 2 ^ 32 - 1)
          then u32 (bufSize + 2 ^ 32 - 1) else u32OfInt (t i).size) =
          min (bufSize - 1) (u32OfInt (t i).size) := by
        rw [hroom]; split <;> omega
      have htake : (t i).data.bytes.take (min (bufSize - 1) (u32OfInt (t i).size)) =
          ((t i).data.bytes.take (u32OfInt (t i).size)).take (bufSize - 1) :=
        List.take_take.symm
      have hlen : (((t i).data.bytes.take (u32OfInt (t i).size)).take (bufSize - 1)).length =
          min (bufSize - 1) (u32OfInt (t i).size) := by
        rw [List.length_take, List.length_take]; omega
      rw [hk, memcpy, memcpyLoop_eq _ _ _ _ (by omega), htake]
      -- the copy and the NUL are one write
      obtain ⟨b, hb, hbytes⟩ := buf.write_eq 0
        (((t i).data.bytes.take (u32OfInt (t i).size)).take (bufSize - 1) ++ [0])
        (by rw [List.length_append, hlen, List.length_singleton]; omega)
      rw [Chars.write_append, hlen, Nat.zero_add] at hb
      simp only [Chars.write_singleton] at hb
      refine ⟨(min (bufSize - 1) (u32OfInt (t i).size) : Nat), b, ?_,
        .inl ⟨(t i).data.bytes.take (u32OfInt (t i).size), ?_, ?_, ?_⟩⟩
      · rw [Option.bind_eq_some_iff] at hb
        obtain ⟨b₁, hb1, hb2⟩ := hb
        simp only [hb1, hb2, Option.bind_eq_bind, Option.bind_some]
      · rw [hlook, if_neg hd]
      · rw [hlen]
      · rw [hbytes, List.length_append, List.length_singleton]
        simp

theorem fsDelete_spec {t : FsTable} (h : TableInv t) (name : List UInt8) :
    TableInv (fsDelete t name).table ∧
      ((str name ∈ fsMap t ∧ (fsDelete t name).ret = 0 ∧
          fsMap (fsDelete t name).table = (fsMap t).erase (str name)) ∨
        (str name ∉ fsMap t ∧ (fsDelete t name).ret = -1 ∧ (fsDelete t name).table = t)) := by
  have hmem := fsFind_isSome_iff t name
  unfold fsDelete
  cases hf : fsFind t name with
  | none =>
    rw [hf] at hmem
    exact ⟨h, .inr ⟨fun hm => Bool.false_ne_true (hmem.mpr hm), rfl, rfl⟩⟩
  | some i =>
    rw [hf] at hmem
    have her := SlotTable.toMap_erase h.slots (by rw [← fsFind_eq, hf])
    have hview : entryView zeroEntry = none := rfl
    refine ⟨?_, .inl ⟨hmem.mp rfl, rfl, ?_⟩⟩
    · refine h.update (fun hu => by cases hu) ?_
      rw [fsView_update, hview]
      exact her.1
    · show fsMap (Function.update t i zeroEntry) = _
      unfold fsMap
      rw [fsView_update, hview]
      exact her.2

end MiniOS
