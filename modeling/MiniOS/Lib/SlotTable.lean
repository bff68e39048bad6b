import Mathlib.Data.Finmap
import Mathlib.Data.Fintype.Card
import Mathlib.Data.Fin.Basic

/-!
# Maps kept in a table of slots

A table of `n` slots, each free or holding a key and a value.  A key is looked
up by the first slot that holds it (`find`), a new entry goes to the first free
slot (`freeSlot`).  `toMap` is the finite map such a table stands for.

Where no two slots hold one key (`Distinct`), filling a free slot, overwriting
the slot of a key and clearing it are `insert`, `insert` and `erase` on the
map, each keeps the keys distinct, and there is a free slot exactly when the
map has fewer than `n` keys.
-/

namespace Lib

namespace SlotTable

variable {n : Nat} {K V : Type*} [DecidableEq K]

/-- The first slot that holds `k`. -/
def find (t : Fin n → Option (K × V)) (k : K) : Option (Fin n) :=
  Fin.find? fun i => (t i).any (·.1 == k)

/-- The first free slot. -/
def freeSlot (t : Fin n → Option (K × V)) : Option (Fin n) :=
  Fin.find? fun i => (t i).isNone

/-- The value in the first slot that holds `k`. -/
def lookup (t : Fin n → Option (K × V)) (k : K) : Option V :=
  (find t k).bind fun i => (t i).map (·.2)

/-- The map the table stands for. -/
def toMap (t : Fin n → Option (K × V)) : Finmap fun _ : K => V :=
  ((List.finRange n).filterMap fun i => (t i).map fun e => (⟨e.1, e.2⟩ : Sigma fun _ => V)).toFinmap

/-- No two slots hold one key. -/
def Distinct (t : Fin n → Option (K × V)) : Prop :=
  ∀ i j k v w, t i = some (k, v) → t j = some (k, w) → i = j

variable {t : Fin n → Option (K × V)} {k : K} {v : V} {i : Fin n}

theorem find_eq_none_iff : find t k = none ↔ ∀ i v, t i ≠ some (k, v) := by
  unfold find
  rw [Fin.find?_eq_none_iff]
  constructor
  · intro h i v hi
    have := h i
    rw [hi] at this
    simp at this
  · intro h i
    cases hi : t i with
    | none => rfl
    | some e =>
      have : e.1 ≠ k := by
        rintro rfl
        exact h i e.2 hi
      simp [this]

theorem find_spec (h : find t k = some i) : ∃ v, t i = some (k, v) := by
  unfold find at h
  rw [Fin.find?_eq_some_iff] at h
  cases hi : t i with
  | none => rw [hi] at h; simp at h
  | some e =>
    rw [hi] at h
    have he : e.1 = k := by simpa using h.1
    exact ⟨e.2, by rw [← he]⟩

theorem find_isSome_of_mem (h : t i = some (k, v)) : ∃ j, find t k = some j := by
  cases hf : find t k with
  | none => exact absurd h (find_eq_none_iff.mp hf i v)
  | some j => exact ⟨j, rfl⟩

theorem Distinct.find (hd : Distinct t) (h : t i = some (k, v)) : find t k = some i := by
  obtain ⟨j, hj⟩ := find_isSome_of_mem h
  obtain ⟨w, hw⟩ := find_spec hj
  rw [hj, hd i j k v w h hw]

theorem lookup_eq_none_iff : lookup t k = none ↔ find t k = none := by
  unfold lookup
  cases hf : find t k with
  | none => simp
  | some i =>
    obtain ⟨v, hv⟩ := find_spec hf
    simp [hv]

theorem Distinct.lookup_eq_some_iff (hd : Distinct t) :
    lookup t k = some v ↔ ∃ i, t i = some (k, v) := by
  unfold lookup
  constructor
  · intro h
    cases hf : SlotTable.find t k with
    | none => rw [hf] at h; cases h
    | some i =>
      obtain ⟨w, hw⟩ := find_spec hf
      rw [hf, Option.bind_some, hw] at h
      cases h
      exact ⟨i, hw⟩
  · rintro ⟨i, hi⟩
    rw [hd.find hi, Option.bind_some, hi]
    rfl

theorem Distinct.lookup_eq_none_iff (_ : Distinct t) :
    lookup t k = none ↔ ∀ i v, t i ≠ some (k, v) := by
  rw [SlotTable.lookup_eq_none_iff, find_eq_none_iff]

theorem lookup_toMap (t : Fin n → Option (K × V)) (k : K) : (toMap t).lookup k = lookup t k := by
  unfold toMap lookup find
  rw [Finmap.dlookup_list_toFinmap, Fin.find?_eq_find?_finRange]
  induction List.finRange n with
  | nil => rfl
  | cons i l ih =>
    rw [List.find?_cons]
    cases hi : t i with
    | none => simpa [hi] using ih
    | some e =>
      by_cases he : e.1 = k
      · subst he
        simp [hi]
      · have hne : k ≠ e.1 := Ne.symm he
        have hb : (e.1 == k) = false := by simpa using he
        simp [hi, hne, hb, ih]

theorem mem_toMap_iff : k ∈ toMap t ↔ ∃ i v, t i = some (k, v) := by
  rw [← Finmap.lookup_isSome, lookup_toMap, ← Option.ne_none_iff_isSome, Ne, lookup_eq_none_iff,
    find_eq_none_iff]
  push Not
  rfl

/-! ## Changing one slot -/

omit [DecidableEq K] in
/-- Keys stay distinct if no other slot holds the key put in. -/
theorem Distinct.update (hd : Distinct t) {e : Option (K × V)}
    (he : ∀ k v, e = some (k, v) → ∀ j w, t j = some (k, w) → j = i) :
    Distinct (Function.update t i e) := by
  intro a b k v w ha hb
  rw [Function.update_apply] at ha hb
  by_cases h1 : a = i
  · by_cases h2 : b = i
    · rw [h1, h2]
    · rw [if_pos h1] at ha
      rw [if_neg h2] at hb
      rw [h1, he k v ha b w hb]
  · by_cases h2 : b = i
    · rw [if_neg h1] at ha
      rw [if_pos h2] at hb
      rw [h2, he k w hb a v ha]
    · rw [if_neg h1] at ha
      rw [if_neg h2] at hb
      exact hd a b k v w ha hb

/-- Filling a free slot with a new key, or overwriting the slot of the key. -/
theorem toMap_put (hd : Distinct t) (hi : ∀ k' v', t i = some (k', v') → k' = k)
    (hk : ∀ j w, t j = some (k, w) → j = i) (v : V) :
    Distinct (Function.update t i (some (k, v))) ∧
      toMap (Function.update t i (some (k, v))) = (toMap t).insert k v := by
  have hd' : Distinct (Function.update t i (some (k, v))) := by
    refine hd.update ?_
    rintro k' v' h j w hj
    cases h
    exact hk j w hj
  refine ⟨hd', Finmap.ext_lookup fun k' => ?_⟩
  by_cases hkk : k' = k
  · subst hkk
    rw [Finmap.lookup_insert, lookup_toMap, hd'.lookup_eq_some_iff]
    exact ⟨i, Function.update_self ..⟩
  · rw [Finmap.lookup_insert_of_ne _ hkk, lookup_toMap, lookup_toMap]
    ext w
    rw [hd'.lookup_eq_some_iff, hd.lookup_eq_some_iff]
    constructor
    · rintro ⟨j, hj⟩
      rw [Function.update_apply] at hj
      by_cases hji : j = i
      · rw [if_pos hji] at hj
        cases hj
        exact absurd rfl hkk
      · rw [if_neg hji] at hj
        exact ⟨j, hj⟩
    · rintro ⟨j, hj⟩
      have hji : j ≠ i := by
        rintro rfl
        exact hkk (hi k' w hj)
      exact ⟨j, by rw [Function.update_of_ne hji, hj]⟩

theorem toMap_insert (hd : Distinct t) (hi : freeSlot t = some i) (hk : find t k = none) (v : V) :
    Distinct (Function.update t i (some (k, v))) ∧
      toMap (Function.update t i (some (k, v))) = (toMap t).insert k v := by
  have hfree : t i = none := by
    unfold freeSlot at hi
    rw [Fin.find?_eq_some_iff] at hi
    simpa using hi.1
  refine toMap_put hd ?_ ?_ v
  · intro k' v' h
    rw [hfree] at h
    cases h
  · intro j w hj
    exact absurd hj (find_eq_none_iff.mp hk j w)

theorem toMap_replace (hd : Distinct t) (hi : find t k = some i) (v : V) :
    Distinct (Function.update t i (some (k, v))) ∧
      toMap (Function.update t i (some (k, v))) = (toMap t).insert k v := by
  obtain ⟨w, hw⟩ := find_spec hi
  refine toMap_put hd ?_ ?_ v
  · intro k' v' h
    rw [hw] at h
    cases h
    rfl
  · intro j w' hj
    exact hd j i k w' w hj hw

theorem toMap_erase (hd : Distinct t) (hi : find t k = some i) :
    Distinct (Function.update t i none) ∧
      toMap (Function.update t i none) = (toMap t).erase k := by
  obtain ⟨w, hw⟩ := find_spec hi
  have hd' : Distinct (Function.update t i none) := by
    refine hd.update ?_
    intro k v h
    cases h
  refine ⟨hd', Finmap.ext_lookup fun k' => ?_⟩
  by_cases hkk : k' = k
  · subst hkk
    rw [Finmap.lookup_erase, lookup_toMap, hd'.lookup_eq_none_iff]
    intro j v hj
    rw [Function.update_apply] at hj
    split at hj
    · cases hj
    · rename_i hji
      exact hji (hd j i _ v w hj hw)
  · rw [Finmap.lookup_erase_ne hkk, lookup_toMap, lookup_toMap]
    ext v
    rw [hd'.lookup_eq_some_iff, hd.lookup_eq_some_iff]
    constructor
    · rintro ⟨j, hj⟩
      rw [Function.update_apply] at hj
      split at hj
      · cases hj
      · exact ⟨j, hj⟩
    · rintro ⟨j, hj⟩
      have hji : j ≠ i := by
        rintro rfl
        rw [hw] at hj
        cases hj
        exact hkk rfl
      exact ⟨j, by rw [Function.update_of_ne hji, hj]⟩

/-! ## Capacity -/

theorem card_toMap (hd : Distinct t) :
    (toMap t).keys.card = (Finset.univ.filter fun i => (t i).isSome).card := by
  symm
  refine Finset.card_bij (fun i hi => ((t i).get (Finset.mem_filter.mp hi).2).1) ?_ ?_ ?_
  · intro i hi
    rw [Finmap.mem_keys, mem_toMap_iff]
    exact ⟨i, ((t i).get (Finset.mem_filter.mp hi).2).2, (Option.some_get _).symm⟩
  · intro i hi j hj hij
    obtain ⟨⟨k, v⟩, hki⟩ := Option.isSome_iff_exists.mp (Finset.mem_filter.mp hi).2
    obtain ⟨⟨k', w⟩, hkj⟩ := Option.isSome_iff_exists.mp (Finset.mem_filter.mp hj).2
    simp only [hki, hkj, Option.get_some] at hij
    subst hij
    exact hd i j k v w hki hkj
  · intro k hk
    rw [Finmap.mem_keys, mem_toMap_iff] at hk
    obtain ⟨i, v, hi⟩ := hk
    exact ⟨i, by simp [hi], by simp [hi]⟩

/-- There is a free slot exactly when the map is not full. -/
theorem freeSlot_isSome_iff (hd : Distinct t) :
    (freeSlot t).isSome ↔ (toMap t).keys.card < n := by
  unfold freeSlot
  rw [card_toMap hd, Fin.isSome_find?_iff]
  have hn : (Finset.univ : Finset (Fin n)).card = n := by simp
  constructor
  · rintro ⟨i, hi⟩
    conv => rhs; rw [← hn]
    refine Finset.card_lt_card ?_
    rw [Finset.filter_ssubset]
    exact ⟨i, Finset.mem_univ i, by simpa using hi⟩
  · intro h
    by_contra hall
    push Not at hall
    have : (Finset.univ.filter fun i => (t i).isSome) = Finset.univ := by
      rw [Finset.filter_eq_self]
      intro i _
      have := hall i
      simpa [Option.isSome_iff_ne_none] using this
    rw [this, hn] at h
    omega

end SlotTable

end Lib
