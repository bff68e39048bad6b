import Mathlib.Data.List.Chain
import Mathlib.Data.List.Nodup

/-!
# Block lists: first fit, release and coalescing

A region laid out as blocks end to end, each a header of `H` bytes followed by
its payload.  The position of a block is not stored: it is the end of the one
before (`located`).  `live a bs` lists the payloads in use, as (address, size),
when the first header stands at `a`.

* `alloc` takes the first free block that is large enough and splits it when
  the rest can hold a header and `A` more bytes;
* `release` marks the block of a payload address free;
* `coalesce` merges every run of free neighbours.

Each is described by what it does to `extent`, `used`, `live` and
`NoAdjacentFree`; nothing else of a block list is observable.
-/

namespace Lib

structure Block where
  size : Nat
  free : Bool
deriving DecidableEq, Repr

namespace BlockList

variable (H A : Nat)

/-- Bytes the blocks span, headers included. -/
def extent : List Block → Nat
  | [] => 0
  | b :: bs => H + b.size + extent bs

/-- Bytes of the blocks in use, headers included. -/
def used : List Block → Nat
  | [] => 0
  | b :: bs => (if b.free then 0 else b.size + H) + used bs

/-- The blocks with the addresses of their headers. -/
def located : Nat → List Block → List (Nat × Block)
  | _, [] => []
  | a, b :: bs => (a, b) :: located (a + H + b.size) bs

/-- The payloads in use: address and size. -/
def live : Nat → List Block → List (Nat × Nat)
  | _, [] => []
  | a, b :: bs =>
    if b.free then live (a + H + b.size) bs else (a + H, b.size) :: live (a + H + b.size) bs

/-- No two consecutive blocks are both free. -/
def NoAdjacentFree (bs : List Block) : Prop :=
  bs.IsChain fun b c => ¬ (b.free = true ∧ c.free = true)

/-- First fit for `n` bytes: the payload address and the blocks afterwards. -/
def alloc (n : Nat) : Nat → List Block → Option (Nat × List Block)
  | _, [] => none
  | a, b :: bs =>
    if b.free = true ∧ n ≤ b.size then
      if H + A ≤ b.size - n then some (a + H, ⟨n, false⟩ :: ⟨b.size - n - H, true⟩ :: bs)
      else some (a + H, ⟨b.size, false⟩ :: bs)
    else (alloc n (a + H + b.size) bs).map fun r => (r.1, b :: r.2)

/-- Mark the block with payload address `p` free. -/
def release (p : Nat) : Nat → List Block → List Block
  | _, [] => []
  | a, b :: bs => if a + H = p then ⟨b.size, true⟩ :: bs else b :: release p (a + H + b.size) bs

/-- Merge free neighbours, `c` being the block before `bs`. -/
def coalesceFrom : Block → List Block → List Block
  | c, [] => [c]
  | c, b :: bs =>
    if c.free = true ∧ b.free = true then coalesceFrom ⟨c.size + (H + b.size), true⟩ bs
    else c :: coalesceFrom b bs

def coalesce : List Block → List Block
  | [] => []
  | b :: bs => coalesceFrom H b bs

variable {H A}

/-! ## Where the payloads in use lie -/

/-- A payload in use lies between its header and the end of the region. -/
theorem live_bounds {a : Nat} {bs : List Block} {p s : Nat} (h : (p, s) ∈ live H a bs) :
    a + H ≤ p ∧ p + s ≤ a + extent H bs := by
  induction bs generalizing a with
  | nil => simp [live] at h
  | cons b bs ih =>
    simp only [live] at h
    simp only [extent]
    split at h
    · have := ih h
      omega
    · rcases List.mem_cons.mp h with h | h
      · cases h
        omega
      · have := ih h
        omega

theorem located_bounds {a x : Nat} {bs : List Block} {b : Block} (h : (x, b) ∈ located H a bs) :
    a ≤ x ∧ x + H + b.size ≤ a + extent H bs := by
  induction bs generalizing a with
  | nil => simp [located] at h
  | cons c bs ih =>
    simp only [located] at h
    simp only [extent]
    rcases List.mem_cons.mp h with h | h
    · cases h
      omega
    · have := ih h
      omega

theorem mem_of_located {a : Nat} {bs : List Block} {x : Nat × Block} (h : x ∈ located H a bs) :
    x.2 ∈ bs := by
  induction bs generalizing a with
  | nil => simp [located] at h
  | cons c bs ih =>
    rcases List.mem_cons.mp h with h | h
    · rw [h]
      exact List.mem_cons_self
    · exact List.mem_cons_of_mem _ (ih h)

theorem located_of_mem {a : Nat} {bs : List Block} {b : Block} (h : b ∈ bs) :
    ∃ x, (x, b) ∈ located H a bs := by
  induction bs generalizing a with
  | nil => simp at h
  | cons c bs ih =>
    rcases List.mem_cons.mp h with rfl | h
    · exact ⟨a, List.mem_cons_self⟩
    · obtain ⟨x, hx⟩ := ih (a := a + H + c.size) h
      exact ⟨x, List.mem_cons_of_mem _ hx⟩

/-- No payload in use meets the header of any block. -/
theorem live_header_disjoint {a x p s : Nat} {bs : List Block} {b : Block}
    (hx : (x, b) ∈ located H a bs) (hp : (p, s) ∈ live H a bs) : x + H ≤ p ∨ p + s ≤ x := by
  induction bs generalizing a with
  | nil => simp [live] at hp
  | cons c bs ih =>
    simp only [located, List.mem_cons] at hx
    simp only [live] at hp
    rcases hx with hx | hx
    · cases hx
      left
      split at hp
      · have := live_bounds hp
        omega
      · rcases List.mem_cons.mp hp with hp | hp
        · cases hp
          omega
        · have := live_bounds hp
          omega
    · split at hp
      · exact ih hx hp
      · rcases List.mem_cons.mp hp with hp | hp
        · cases hp
          have := located_bounds hx
          right
          omega
        · exact ih hx hp

/-- A payload in use meets no byte of a free block. -/
theorem live_free_disjoint {a x p s : Nat} {bs : List Block} {b : Block}
    (hx : (x, b) ∈ located H a bs) (hb : b.free = true) (hp : (p, s) ∈ live H a bs) :
    x + H + b.size ≤ p ∨ p + s ≤ x := by
  induction bs generalizing a with
  | nil => simp [live] at hp
  | cons c bs ih =>
    simp only [located, List.mem_cons] at hx
    simp only [live] at hp
    rcases hx with hx | hx
    · cases hx
      rw [if_pos hb] at hp
      have := live_bounds hp
      left
      omega
    · split at hp
      · exact ih hx hp
      · rcases List.mem_cons.mp hp with hp | hp
        · cases hp
          have := located_bounds hx
          right
          omega
        · exact ih hx hp

theorem located_of_mem_live {a p s : Nat} {bs : List Block} (hp : (p, s) ∈ live H a bs) :
    H ≤ p ∧ (p - H, ⟨s, false⟩) ∈ located H a bs := by
  induction bs generalizing a with
  | nil => simp [live] at hp
  | cons c bs ih =>
    simp only [live] at hp
    simp only [located]
    split at hp
    · exact ⟨(ih hp).1, List.mem_cons_of_mem _ (ih hp).2⟩
    · rename_i hc
      rcases List.mem_cons.mp hp with hp | hp
      · cases hp
        refine ⟨by omega, ?_⟩
        have : c.free = false := by simpa using hc
        simp [← this]
      · exact ⟨(ih hp).1, List.mem_cons_of_mem _ (ih hp).2⟩

/-- With a header between any two, a payload address determines the size. -/
theorem live_unique (hH : 0 < H) {a p s s' : Nat} {bs : List Block} (h : (p, s) ∈ live H a bs)
    (h' : (p, s') ∈ live H a bs) : s = s' := by
  induction bs generalizing a with
  | nil => simp [live] at h
  | cons b bs ih =>
    simp only [live] at h h'
    split at h
    · rename_i hb
      rw [if_pos hb] at h'
      exact ih h h'
    · rename_i hb
      rw [if_neg hb] at h'
      rcases List.mem_cons.mp h with h | h <;> rcases List.mem_cons.mp h' with h' | h'
      · cases h
        cases h'
        rfl
      · cases h
        have := live_bounds h'
        omega
      · cases h'
        have := live_bounds h
        omega
      · exact ih h h'

/-- Payloads in use at different addresses do not meet. -/
theorem live_disjoint {a p s q t : Nat} {bs : List Block} (hp : (p, s) ∈ live H a bs)
    (hq : (q, t) ∈ live H a bs) (hne : p ≠ q) : p + s ≤ q ∨ q + t ≤ p := by
  induction bs generalizing a with
  | nil => simp [live] at hp
  | cons b bs ih =>
    simp only [live] at hp hq
    split at hp
    · rename_i hb
      rw [if_pos hb] at hq
      exact ih hp hq
    · rename_i hb
      rw [if_neg hb] at hq
      rcases List.mem_cons.mp hp with hp | hp <;> rcases List.mem_cons.mp hq with hq | hq
      · cases hp
        cases hq
        exact absurd rfl hne
      · cases hp
        have := live_bounds hq
        left
        omega
      · cases hq
        have := live_bounds hp
        right
        omega
      · exact ih hp hq

theorem length_le_extent (bs : List Block) : H * bs.length ≤ extent H bs := by
  induction bs with
  | nil => exact Nat.le_refl _
  | cons b bs ih =>
    simp only [extent, List.length_cons, Nat.mul_succ]
    omega

theorem used_le_extent (bs : List Block) : used H bs ≤ extent H bs := by
  induction bs with
  | nil => exact Nat.le_refl _
  | cons b bs ih =>
    simp only [used, extent]
    split <;> omega

/-- A block in use is part of what is in use. -/
theorem le_used_of_mem_live {a p s : Nat} {bs : List Block} (h : (p, s) ∈ live H a bs) :
    s + H ≤ used H bs := by
  induction bs generalizing a with
  | nil => simp [live] at h
  | cons b bs ih =>
    simp only [live] at h
    simp only [used]
    split at h
    · have := ih h
      omega
    · rename_i hb
      rw [if_neg hb]
      rcases List.mem_cons.mp h with h | h
      · cases h
        omega
      · have := ih h
        omega

/-! ## Allocation -/

variable (H) in
/-- What `alloc` does: the new payload has `s ≥ n` bytes, and nothing else changes. -/
structure Allocated (n a : Nat) (bs : List Block) (p : Nat) (bs' : List Block) (s : Nat) : Prop where
  enough : n ≤ s
  extent_eq : extent H bs' = extent H bs
  used_eq : used H bs' = used H bs + (s + H)
  mem_live : ∀ x, x ∈ live H a bs' ↔ x = (p, s) ∨ x ∈ live H a bs
  fresh : ∀ t, (p, t) ∉ live H a bs

theorem alloc_spec (hH : 0 < H) {n a p : Nat} {bs bs' : List Block}
    (h : alloc H A n a bs = some (p, bs')) : ∃ s, Allocated H n a bs p bs' s := by
  induction bs generalizing a p bs' with
  | nil => simp [alloc] at h
  | cons b bs ih =>
    simp only [alloc] at h
    split at h
    · rename_i hfit
      -- the block at `a` is taken: nothing in use stands at its payload address
      have hfresh : ∀ t, (a + H, t) ∉ live H a (b :: bs) := by
        intro t ht
        simp only [live, if_pos hfit.1] at ht
        have := live_bounds ht
        omega
      split at h
      · cases h
        refine ⟨n, Nat.le_refl _, ?_, ?_, ?_, hfresh⟩
        · simp only [extent]
          omega
        · simp only [used, hfit.1]
          simp
          omega
        · intro x
          have e : a + H + n + H + (b.size - n - H) = a + H + b.size := by omega
          simp [live, hfit.1, e]
      · cases h
        refine ⟨b.size, hfit.2, rfl, ?_, ?_, hfresh⟩
        · simp only [used, hfit.1]
          simp
          omega
        · intro x
          simp [live, hfit.1]
    · cases hr : alloc H A n (a + H + b.size) bs with
      | none => rw [hr] at h; cases h
      | some r =>
        rw [hr] at h
        cases h
        obtain ⟨s, hs⟩ := ih hr
        have hp : a + H + b.size + H ≤ r.1 :=
          (live_bounds ((hs.mem_live (r.1, s)).mpr (Or.inl rfl))).1
        refine ⟨s, hs.enough, ?_, ?_, fun x => ?_, fun t ht => ?_⟩
        · simp only [extent, hs.extent_eq]
        · simp only [used, hs.used_eq]
          omega
        · simp only [live]
          split
          · exact hs.mem_live x
          · rw [List.mem_cons, List.mem_cons, hs.mem_live x]
            tauto
        · simp only [live] at ht
          split at ht
          · exact hs.fresh t ht
          · rcases List.mem_cons.mp ht with ht | ht
            · have := congrArg Prod.fst ht
              simp only at this
              omega
            · exact hs.fresh t ht

/-- Splitting or taking a free block puts a block in use next to its neighbours. -/
theorem alloc_noAdjacentFree {n a p : Nat} {bs bs' : List Block}
    (h : alloc H A n a bs = some (p, bs')) (hn : NoAdjacentFree bs) : NoAdjacentFree bs' := by
  -- the head of the new list is free only where the head of the old one was
  have key : ∀ (bs : List Block) (a p : Nat) (bs' : List Block), alloc H A n a bs = some (p, bs') →
      NoAdjacentFree bs →
      NoAdjacentFree bs' ∧ ∀ c ∈ bs'.head?, c.free = true → ∃ b ∈ bs.head?, b.free = true := by
    intro bs
    induction bs with
    | nil => intro a p bs' h; simp [alloc] at h
    | cons b bs ih =>
      intro a p bs' h hn
      simp only [alloc] at h
      split at h
      · rename_i hfit
        have hrest : ∀ c ∈ bs.head?, ¬ (b.free = true ∧ c.free = true) :=
          (List.isChain_cons.mp hn).1
        have hbs := (List.isChain_cons.mp hn).2
        split at h
        · cases h
          refine ⟨?_, by simp⟩
          refine List.isChain_cons_cons.mpr ⟨by simp, List.isChain_cons.mpr ⟨?_, hbs⟩⟩
          intro c hc h2
          exact hrest c hc ⟨hfit.1, h2.2⟩
        · cases h
          exact ⟨List.isChain_cons.mpr ⟨by simp, hbs⟩, by simp⟩
      · cases hr : alloc H A n (a + H + b.size) bs with
        | none => rw [hr] at h; cases h
        | some r =>
          rw [hr] at h
          cases h
          obtain ⟨h1, h2⟩ := ih _ _ _ hr (List.isChain_cons.mp hn).2
          refine ⟨List.isChain_cons.mpr ⟨fun c hc hbc => ?_, h1⟩, by simp⟩
          obtain ⟨d, hd, hdf⟩ := h2 c hc hbc.2
          exact (List.isChain_cons.mp hn).1 d hd ⟨hbc.1, hdf⟩
  exact (key bs a p bs' h hn).1

/-- `alloc` fails exactly when no free block is large enough. -/
theorem alloc_eq_none {n a : Nat} {bs : List Block} :
    alloc H A n a bs = none ↔ ∀ b ∈ bs, ¬ (b.free = true ∧ n ≤ b.size) := by
  induction bs generalizing a with
  | nil => simp [alloc]
  | cons b bs ih =>
    simp only [alloc]
    split
    · rename_i hfit
      constructor
      · intro h
        split at h <;> cases h
      · intro h
        exact absurd hfit (h b List.mem_cons_self)
    · rename_i hfit
      rw [Option.map_eq_none_iff, ih]
      exact ⟨fun h c hc => (List.mem_cons.mp hc).elim (fun e => e ▸ hfit) (h c),
        fun h c hc => h c (List.mem_cons_of_mem _ hc)⟩

/-! ## Release -/

variable (H) in
/-- What `release` does to the block of `p`. -/
structure Released (a : Nat) (bs : List Block) (p s : Nat) (bs' : List Block) : Prop where
  extent_eq : extent H bs' = extent H bs
  used_eq : used H bs' + (s + H) = used H bs
  mem_live : ∀ x, x ∈ live H a bs' ↔ x ∈ live H a bs ∧ x.1 ≠ p

theorem release_spec (hH : 0 < H) {a p s : Nat} {bs : List Block} (h : (p, s) ∈ live H a bs) :
    Released H a bs p s (release H p a bs) := by
  induction bs generalizing a with
  | nil => simp [live] at h
  | cons b bs ih =>
    simp only [release]
    split
    · rename_i hp
      subst hp
      have hb : b.free = false := by
        cases hb : b.free with
        | false => rfl
        | true =>
          simp only [live, hb, if_true] at h
          have := live_bounds h
          omega
      have hs : b.size = s := live_unique hH (by simp [live, hb]) h
      refine ⟨rfl, ?_, fun x => ?_⟩
      · simp only [used, hb, hs]
        simp
        omega
      · simp only [live, hb]
        simp only [if_true, Bool.false_eq_true, if_false, List.mem_cons]
        constructor
        · intro hx
          have := (live_bounds (p := x.1) (s := x.2) hx).1
          exact ⟨Or.inr hx, by omega⟩
        · rintro ⟨rfl | hx, hne⟩
          · exact absurd rfl hne
          · exact hx
    · rename_i hp
      have h' : (p, s) ∈ live H (a + H + b.size) bs := by
        simp only [live] at h
        split at h
        · exact h
        · rcases List.mem_cons.mp h with h | h
          · cases h
            omega
          · exact h
      obtain ⟨h1, h2, h3⟩ := ih h'
      refine ⟨by simp only [extent, h1], by simp only [used]; omega, fun x => ?_⟩
      simp only [live]
      split
      · exact h3 x
      · rw [List.mem_cons, List.mem_cons, h3 x]
        constructor
        · rintro (rfl | hx)
          · exact ⟨Or.inl rfl, hp⟩
          · exact ⟨Or.inr hx.1, hx.2⟩
        · rintro ⟨rfl | hx, hne⟩
          · exact Or.inl rfl
          · exact Or.inr ⟨hx, hne⟩

/-- The released block stays where it is, free. -/
theorem located_release (hH : 0 < H) {a p s : Nat} {bs : List Block} (h : (p, s) ∈ live H a bs) :
    (p - H, ⟨s, true⟩) ∈ located H a (release H p a bs) := by
  induction bs generalizing a with
  | nil => simp [live] at h
  | cons b bs ih =>
    simp only [release]
    simp only [live] at h
    split
    · rename_i hp
      have hs : b.size = s := by
        split at h
        · have := live_bounds h
          omega
        · rcases List.mem_cons.mp h with h | h
          · cases h
            rfl
          · have := live_bounds h
            omega
      subst hp
      simp [located, hs]
    · rename_i hp
      refine List.mem_cons_of_mem _ (ih ?_)
      split at h
      · exact h
      · rcases List.mem_cons.mp h with h | h
        · exact absurd (congrArg Prod.fst h).symm hp
        · exact h

/-! ## Coalescing -/

theorem coalesceFrom_extent (c : Block) (bs : List Block) :
    extent H (coalesceFrom H c bs) = extent H (c :: bs) := by
  induction bs generalizing c with
  | nil => rfl
  | cons b bs ih =>
    simp only [coalesceFrom]
    split
    · rw [ih]
      simp only [extent]
      omega
    · simp only [extent, ih]

theorem coalesceFrom_used (c : Block) (bs : List Block) :
    used H (coalesceFrom H c bs) = used H (c :: bs) := by
  induction bs generalizing c with
  | nil => rfl
  | cons b bs ih =>
    simp only [coalesceFrom]
    split
    · rename_i hf
      rw [ih]
      simp [used, hf.1, hf.2]
    · simp only [used, ih]

theorem coalesceFrom_live (a : Nat) (c : Block) (bs : List Block) :
    live H a (coalesceFrom H c bs) = live H a (c :: bs) := by
  induction bs generalizing a c with
  | nil => rfl
  | cons b bs ih =>
    simp only [coalesceFrom]
    split
    · rename_i hf
      rw [ih]
      have e : a + H + (c.size + (H + b.size)) = a + H + c.size + H + b.size := by omega
      simp [live, hf.1, hf.2, e]
    · simp only [live, ih]

/-- The merged block stays free, so the first block is free only if `c` is. -/
theorem coalesceFrom_noAdjacentFree (c : Block) (bs : List Block) :
    NoAdjacentFree (coalesceFrom H c bs) ∧
      ∀ d ∈ (coalesceFrom H c bs).head?, d.free = c.free := by
  induction bs generalizing c with
  | nil => exact ⟨List.isChain_singleton c, by simp [coalesceFrom]⟩
  | cons b bs ih =>
    simp only [coalesceFrom]
    split
    · rename_i hf
      obtain ⟨h1, h2⟩ := ih ⟨c.size + (H + b.size), true⟩
      exact ⟨h1, fun d hd => by rw [h2 d hd, hf.1]⟩
    · rename_i hf
      obtain ⟨h1, h2⟩ := ih b
      refine ⟨List.isChain_cons.mpr ⟨fun d hd h => ?_, h1⟩, by simp⟩
      rw [h2 d hd] at h
      exact hf h

theorem coalesce_extent (bs : List Block) : extent H (coalesce H bs) = extent H bs := by
  cases bs with
  | nil => rfl
  | cons b bs => exact coalesceFrom_extent b bs

theorem coalesce_used (bs : List Block) : used H (coalesce H bs) = used H bs := by
  cases bs with
  | nil => rfl
  | cons b bs => exact coalesceFrom_used b bs

theorem coalesce_live (a : Nat) (bs : List Block) : live H a (coalesce H bs) = live H a bs := by
  cases bs with
  | nil => rfl
  | cons b bs => exact coalesceFrom_live a b bs

theorem coalesce_noAdjacentFree (bs : List Block) : NoAdjacentFree (coalesce H bs) := by
  cases bs with
  | nil => exact List.isChain_nil
  | cons b bs => exact (coalesceFrom_noAdjacentFree b bs).1

end BlockList

end Lib
