import MiniOS.Lib.BlockList

/-!
# The gaps between the payloads in use

A block list with no two free neighbours holds nothing but its payloads in use:
the free blocks are the gaps between these, and `rebuild` puts them back
(`rebuild_live`).  So whatever leaves the same payloads in use leaves the same
blocks: releases in any order, and a release right after an allocation.
-/

namespace Lib

namespace BlockList

variable {H A : Nat}

/-! ## The payloads in use as a list -/

/-- A payload in use starts a header or more behind the region's start. -/
theorem live_ge {a : Nat} {bs : List Block} {x : Nat × Nat} (h : x ∈ live H a bs) :
    a + H ≤ x.1 := (live_bounds (p := x.1) (s := x.2) h).1

theorem live_cons_free {a : Nat} {b : Block} (hb : b.free = true) (bs : List Block) :
    live H a (b :: bs) = live H (a + H + b.size) bs := if_pos hb

theorem live_cons_used {a : Nat} {b : Block} (hb : b.free = false) (bs : List Block) :
    live H a (b :: bs) = (a + H, b.size) :: live H (a + H + b.size) bs :=
  if_neg (by rw [hb]; decide)

/-- No payload behind `p` has its address. -/
theorem filter_live_of_lt {p a : Nat} (h : p < a + H) (bs : List Block) :
    (live H a bs).filter (·.1 ≠ p) = live H a bs := by
  apply List.filter_eq_self.mpr
  intro x hx
  have := live_ge hx
  exact decide_eq_true (by omega)

theorem live_release (hH : 0 < H) (p a : Nat) (bs : List Block) :
    live H a (release H p a bs) = (live H a bs).filter (·.1 ≠ p) := by
  induction bs generalizing a with
  | nil => rfl
  | cons b bs ih =>
    simp only [release]
    by_cases hp : a + H = p
    · have hkeep := filter_live_of_lt (H := H) (p := p) (a := a + H + b.size) (by omega) bs
      rw [if_pos hp, live_cons_free rfl]
      cases hb : b.free with
      | true => rw [live_cons_free hb, hkeep]
      | false => rw [live_cons_used hb, List.filter_cons, if_neg (by simp [hp]), hkeep]
    · rw [if_neg hp]
      cases hb : b.free with
      | true => rw [live_cons_free hb, live_cons_free hb, ih]
      | false => rw [live_cons_used hb, live_cons_used hb, ih, List.filter_cons, if_pos (by simpa using hp)]

theorem live_alloc (hH : 0 < H) {n a p : Nat} {bs bs' : List Block}
    (h : alloc H A n a bs = some (p, bs')) : (live H a bs').filter (·.1 ≠ p) = live H a bs := by
  induction bs generalizing a p bs' with
  | nil => simp [alloc] at h
  | cons b bs ih =>
    simp only [alloc] at h
    split at h
    · rename_i hfit
      rw [live_cons_free hfit.1]
      split at h
      · cases h
        have e : a + H + n + H + (b.size - n - H) = a + H + b.size := by omega
        rw [live_cons_used rfl, live_cons_free rfl, List.filter_cons, if_neg (by simp), e]
        exact filter_live_of_lt (by omega) bs
      · cases h
        rw [live_cons_used rfl, List.filter_cons, if_neg (by simp)]
        exact filter_live_of_lt (by omega) bs
    · cases hr : alloc H A n (a + H + b.size) bs with
      | none => rw [hr] at h; cases h
      | some r =>
        rw [hr] at h
        cases h
        obtain ⟨s, hs⟩ := alloc_spec hH hr
        have hp : a + H + b.size + H ≤ r.1 := live_ge ((hs.mem_live (r.1, s)).mpr (.inl rfl))
        cases hb : b.free with
        | true => rw [live_cons_free hb, live_cons_free hb, ih hr]
        | false =>
          rw [live_cons_used hb, live_cons_used hb, List.filter_cons,
            if_pos (decide_eq_true (show a + H ≠ r.1 by omega)), ih hr]

/-! ## The normal form -/

variable (H) in
/-- The blocks from `a` to `e` with these payloads in use and every gap one free block. -/
def rebuild : Nat → Nat → List (Nat × Nat) → List Block
  | a, e, [] => if a = e then [] else [⟨e - a - H, true⟩]
  | a, e, x :: l =>
    (if a + H = x.1 then [] else [⟨x.1 - H - a - H, true⟩]) ++ ⟨x.2, false⟩ :: rebuild (x.1 + x.2) e l

/-- **Normal form.**  Merged blocks are given by what is in use and the size of the region. -/
theorem rebuild_live (hH : 0 < H) {a : Nat} {bs : List Block} (h : NoAdjacentFree bs) :
    rebuild H a (a + extent H bs) (live H a bs) = bs := by
  induction bs generalizing a with
  | nil => exact if_pos rfl
  | cons b bs ih =>
    obtain ⟨size, free⟩ := b
    have hrest := ih (a := a + H + size) h.of_cons
    have hend : a + extent H (⟨size, free⟩ :: bs) = a + H + size + extent H bs := by
      simp only [extent]
      omega
    rw [hend]
    cases free with
    | false =>
      simp only [live, Bool.false_eq_true, if_false, rebuild, if_true, List.nil_append]
      rw [hrest]
    | true =>
      simp only [live, if_true]
      cases bs with
      | nil =>
        simp only [live, rebuild, extent]
        rw [if_neg (by omega)]
        congr 2
        omega
      | cons c cs =>
        -- the block behind a free one is in use, and closes the gap
        have hc : c.free = false := by
          have := (List.isChain_cons_cons.mp h).1
          simpa using this
        simp only [live, hc, Bool.false_eq_true, if_false, rebuild, if_true, List.nil_append]
          at hrest ⊢
        rw [if_neg (by omega), hrest]
        have hsize : a + H + size + H - H - a - H = size := by omega
        rw [hsize]
        rfl

theorem eq_of_live (hH : 0 < H) {a : Nat} {bs bs' : List Block} (h : NoAdjacentFree bs)
    (h' : NoAdjacentFree bs') (hext : extent H bs = extent H bs')
    (hlive : live H a bs = live H a bs') : bs = bs' := by
  rw [← rebuild_live hH h, ← rebuild_live hH h', hext, hlive]

/-- A region with nothing in use is one free block. -/
theorem eq_single_of_live_nil (hH : 0 < H) {a : Nat} {bs : List Block} (h : NoAdjacentFree bs)
    (hlive : live H a bs = []) (hpos : 0 < extent H bs) : bs = [⟨extent H bs - H, true⟩] := by
  rw [← rebuild_live hH h (a := a), hlive]
  have hext : extent H (rebuild H a (a + extent H bs) (live H a bs)) = extent H bs := by
    rw [rebuild_live hH h]
  rw [hlive] at hext
  rw [hext]
  unfold rebuild
  rw [if_neg (by omega), Nat.add_sub_cancel_left]

/-! ## The bytes -/

theorem located_disjoint {a x y : Nat} {bs : List Block} {b c : Block}
    (hx : (x, b) ∈ located H a bs) (hy : (y, c) ∈ located H a bs) :
    (x = y ∧ b = c) ∨ x + H + b.size ≤ y ∨ y + H + c.size ≤ x := by
  induction bs generalizing a with
  | nil => simp [located] at hx
  | cons d ds ih =>
    rcases List.mem_cons.mp hx with hx | hx
    · cases hx
      rcases List.mem_cons.mp hy with hy | hy
      · cases hy
        exact .inl ⟨rfl, rfl⟩
      · exact .inr (.inl (located_bounds hy).1)
    · rcases List.mem_cons.mp hy with hy | hy
      · cases hy
        exact .inr (.inr (located_bounds hx).1)
      · exact ih hx hy

/-- Every byte of the region is in a block. -/
theorem located_cover {a y : Nat} {bs : List Block} (h : a ≤ y) (h' : y < a + extent H bs) :
    ∃ x b, (x, b) ∈ located H a bs ∧ x ≤ y ∧ y < x + H + b.size := by
  induction bs generalizing a with
  | nil =>
    simp only [extent] at h'
    omega
  | cons b bs ih =>
    by_cases hb : y < a + H + b.size
    · exact ⟨a, b, List.mem_cons_self, h, hb⟩
    · simp only [extent] at h'
      obtain ⟨x, c, hx, hc⟩ := ih (a := a + H + b.size) (by omega) (by omega)
      exact ⟨x, c, List.mem_cons_of_mem _ hx, hc⟩

theorem next_located (hH : 0 < H) {a x : Nat} {bs : List Block} {b : Block}
    (hx : (x, b) ∈ located H a bs) (h : x + H + b.size < a + extent H bs) :
    ∃ c, (x + H + b.size, c) ∈ located H a bs := by
  have hle := (located_bounds hx).1
  obtain ⟨y, c, hy, h1, h2⟩ := located_cover (show a ≤ x + H + b.size by omega) h
  rcases located_disjoint hx hy with ⟨rfl, rfl⟩ | hd | hd
  · omega
  · exact ⟨c, by rwa [show x + H + b.size = y by omega]⟩
  · omega

theorem prev_located (hH : 0 < H) {a x : Nat} {bs : List Block} {b : Block}
    (hx : (x, b) ∈ located H a bs) (h : x ≠ a) :
    ∃ y c, (y, c) ∈ located H a bs ∧ x = y + H + c.size := by
  obtain ⟨hle, hend⟩ := located_bounds hx
  obtain ⟨y, c, hy, h1, h2⟩ := located_cover (H := H) (show a ≤ x - 1 by omega)
    (show x - 1 < a + extent H bs by omega)
  refine ⟨y, c, hy, ?_⟩
  rcases located_disjoint hx hy with ⟨rfl, rfl⟩ | hd | hd
  · omega
  · omega
  · omega

theorem live_of_located {a x : Nat} {bs : List Block} {b : Block} (h : (x, b) ∈ located H a bs)
    (hb : b.free = false) : (x + H, b.size) ∈ live H a bs := by
  induction bs generalizing a with
  | nil => simp [located] at h
  | cons c cs ih =>
    rcases List.mem_cons.mp h with h | h
    · cases h
      rw [live_cons_used hb]
      exact List.mem_cons_self
    · cases hc : c.free with
      | true =>
        rw [live_cons_free hc]
        exact ih h
      | false =>
        rw [live_cons_used hc]
        exact List.mem_cons_of_mem _ (ih h)

variable (H) in
/-- The byte `y` is in the header or the payload of a block in use. -/
def Occupied (a : Nat) (bs : List Block) (y : Nat) : Prop :=
  ∃ q ∈ live H a bs, q.1 ≤ y + H ∧ y < q.1 + q.2

/-- The bytes of a block are all occupied or all not. -/
theorem occupied_iff {a x y : Nat} {bs : List Block} {b : Block} (hx : (x, b) ∈ located H a bs)
    (h : x ≤ y) (h' : y < x + H + b.size) : Occupied H a bs y ↔ b.free = false := by
  constructor
  · rintro ⟨⟨p, s⟩, hp, h1, h2⟩
    obtain ⟨hle, hloc⟩ := located_of_mem_live hp
    simp only at h1 h2
    rcases located_disjoint hx hloc with ⟨_, rfl⟩ | hd | hd
    · rfl
    · omega
    · simp only at hd
      omega
  · intro hb
    exact ⟨_, live_of_located hx hb, by simp only; omega, by simp only; omega⟩

theorem free_next (hH : 0 < H) {a x : Nat} {bs : List Block} {b c : Block}
    (h : NoAdjacentFree bs) (hx : (x, b) ∈ located H a bs)
    (hy : (x + H + b.size, c) ∈ located H a bs) : ¬ (b.free = true ∧ c.free = true) := by
  induction bs generalizing a with
  | nil => simp [located] at hx
  | cons d ds ih =>
    rcases List.mem_cons.mp hx with hx | hx
    · cases hx
      rcases List.mem_cons.mp hy with hy | hy
      · have := congrArg Prod.fst hy
        simp only at this
        omega
      · -- the block right behind the first one is the second one
        cases ds with
        | nil => simp [located] at hy
        | cons e es =>
          rcases List.mem_cons.mp hy with hy | hy
          · cases hy
            exact (List.isChain_cons_cons.mp h).1
          · have := (located_bounds hy).1
            omega
    · rcases List.mem_cons.mp hy with hy | hy
      · have := (located_bounds hx).1
        have := congrArg Prod.fst hy
        simp only at this
        omega
      · exact ih h.of_cons hx hy

/-! ## The gaps as runs of bytes -/

end BlockList

/-- A run of numbers in `lo .. hi` that have `P`, from `r` to before `e`, that cannot be extended. -/
structure MaximalRun (P : Nat → Prop) (lo hi r e : Nat) : Prop where
  nonempty : r < e
  lo_le : lo ≤ r
  le_hi : e ≤ hi
  all : ∀ y, r ≤ y → y < e → P y
  left : r = lo ∨ ¬ P (r - 1)
  right : e = hi ∨ ¬ P e

namespace BlockList

variable {H A : Nat}

/-- **The gaps.**  The maximal runs of bytes that are not occupied are the free blocks. -/
theorem maximalRun_iff (hH : 0 < H) {a r e : Nat} {bs : List Block} (h : NoAdjacentFree bs) :
    MaximalRun (fun y => ¬ Occupied H a bs y) a (a + extent H bs) r e ↔
      ∃ b, (r, b) ∈ located H a bs ∧ b.free = true ∧ e = r + H + b.size := by
  constructor
  · intro hrun
    have hlt := hrun.nonempty
    have hle := hrun.le_hi
    obtain ⟨x, b, hx, h1, h2⟩ := located_cover hrun.lo_le (show r < a + extent H bs by omega)
    have hb : b.free = true := by
      have := hrun.all r (Nat.le_refl r) hlt
      rw [occupied_iff hx h1 h2] at this
      simpa using this
    have hxb := located_bounds hx
    have hxr : x = r := by
      rcases hrun.left with hl | hl
      · omega
      · by_contra hne
        rw [occupied_iff hx (by omega) (by omega)] at hl
        simp [hb] at hl
    subst hxr
    refine ⟨b, hx, hb, ?_⟩
    rcases Nat.lt_trichotomy e (x + H + b.size) with hlt' | heq | hgt
    · -- the run would end inside of the block
      rcases hrun.right with hr | hr
      · omega
      · rw [occupied_iff hx (by omega) hlt'] at hr
        simp [hb] at hr
    · exact heq
    · -- the run would go on into the next block
      obtain ⟨c, hy⟩ := next_located hH hx (by omega)
      have hc := hrun.all _ (by omega) hgt
      rw [occupied_iff hy (Nat.le_refl _) (by omega)] at hc
      exact absurd ⟨hb, by simpa using hc⟩ (free_next hH h hx hy)
  · rintro ⟨b, hx, hb, rfl⟩
    have hxb := located_bounds hx
    refine ⟨by omega, hxb.1, hxb.2, ?_, ?_, ?_⟩
    · intro y h1 h2
      rw [occupied_iff hx h1 h2, hb]
      decide
    · by_cases hr : r = a
      · exact .inl hr
      · right
        obtain ⟨y, c, hy, rfl⟩ := prev_located hH hx hr
        rw [not_not, occupied_iff hy (by omega) (by omega)]
        have := free_next hH h hy hx
        simpa [hb] using this
    · by_cases hr : r + H + b.size = a + extent H bs
      · exact .inl hr
      · right
        obtain ⟨c, hy⟩ := next_located hH hx (by omega)
        rw [not_not, occupied_iff hy (Nat.le_refl _) (by omega)]
        have := free_next hH h hx hy
        simpa [hb] using this

/-! ## First fit -/

theorem map_snd_located (a : Nat) (bs : List Block) : (located H a bs).map Prod.snd = bs := by
  induction bs generalizing a with
  | nil => rfl
  | cons b bs ih => rw [located, List.map_cons, ih]

/-- `alloc` takes the first free block that is large enough. -/
theorem alloc_iff {n a p : Nat} {bs : List Block} :
    (∃ bs', alloc H A n a bs = some (p, bs')) ↔
      ∃ front x back, located H a bs = front ++ x :: back ∧ p = x.1 + H ∧
        (x.2.free = true ∧ n ≤ x.2.size) ∧ ∀ y ∈ front, ¬ (y.2.free = true ∧ n ≤ y.2.size) := by
  induction bs generalizing a with
  | nil =>
    constructor
    · rintro ⟨bs', h⟩
      cases h
    · rintro ⟨front, x, back, h, -⟩
      cases front with
      | nil => cases h
      | cons y front => cases h
  | cons d ds ih =>
    rw [located]
    by_cases hd : d.free = true ∧ n ≤ d.size
    · have hhead : (∃ bs', alloc H A n a (d :: ds) = some (p, bs')) ↔ p = a + H := by
        simp only [alloc, if_pos hd]
        split
        · simp [eq_comm]
        · simp [eq_comm]
      rw [hhead]
      constructor
      · intro hp
        exact ⟨[], (a, d), _, rfl, hp, hd, fun y hy => absurd hy List.not_mem_nil⟩
      · rintro ⟨front, x, back, h, hp, -, hfront⟩
        cases front with
        | nil =>
          cases h
          exact hp
        | cons y front =>
          obtain ⟨rfl, -⟩ := List.cons.inj h
          exact absurd hd (hfront (a, d) List.mem_cons_self)
    · have htail : (∃ bs', alloc H A n a (d :: ds) = some (p, bs')) ↔
          ∃ bs', alloc H A n (a + H + d.size) ds = some (p, bs') := by
        simp only [alloc, if_neg hd, Option.map_eq_some_iff]
        constructor
        · rintro ⟨bs', r, hr, heq⟩
          cases heq
          exact ⟨r.2, hr⟩
        · rintro ⟨bs', h⟩
          exact ⟨d :: bs', (p, bs'), h, rfl⟩
      rw [htail, ih]
      constructor
      · rintro ⟨front, x, back, h, hp, hx, hfront⟩
        exact ⟨(a, d) :: front, x, back, by rw [h]; rfl, hp, hx,
          List.forall_mem_cons.mpr ⟨hd, hfront⟩⟩
      · rintro ⟨front, x, back, h, hp, hx, hfront⟩
        cases front with
        | nil =>
          cases h
          exact absurd hx hd
        | cons y front =>
          obtain ⟨rfl, htl⟩ := List.cons.inj h
          exact ⟨front, x, back, htl, hp, hx, (List.forall_mem_cons.mp hfront).2⟩

/-- A block starts behind the blocks before it. -/
theorem located_split {a : Nat} {bs : List Block} {front back : List (Nat × Block)}
    {x : Nat × Block} (h : located H a bs = front ++ x :: back) :
    bs = front.map Prod.snd ++ x.2 :: back.map Prod.snd ∧
      x.1 = a + extent H (front.map Prod.snd) := by
  induction front generalizing a bs with
  | nil =>
    cases bs with
    | nil => cases h
    | cons b bs =>
      rw [located] at h
      obtain ⟨rfl, hback⟩ := List.cons.inj h
      rw [← hback, map_snd_located]
      exact ⟨rfl, rfl⟩
  | cons y front ih =>
    cases bs with
    | nil => cases h
    | cons b bs =>
      rw [located] at h
      obtain ⟨rfl, htail⟩ := List.cons.inj h
      obtain ⟨hbs, hx⟩ := ih htail
      refine ⟨by rw [hbs]; rfl, ?_⟩
      rw [hx, List.map_cons]
      simp only [extent]
      omega

theorem located_sorted (a : Nat) (bs : List Block) :
    (located H a bs).Pairwise fun x y => x.1 ≤ y.1 := by
  induction bs generalizing a with
  | nil => exact List.Pairwise.nil
  | cons b bs ih =>
    rw [located]
    apply List.pairwise_cons.mpr
    refine ⟨?_, ih _⟩
    intro y hy
    have := (located_bounds hy).1
    omega

/-- No large enough free block stands before the one that `alloc` takes. -/
theorem alloc_first {n a p : Nat} {bs bs' : List Block} (h : alloc H A n a bs = some (p, bs')) :
    ∃ x b, p = x + H ∧ (x, b) ∈ located H a bs ∧ b.free = true ∧ n ≤ b.size ∧
      ∀ y c, (y, c) ∈ located H a bs → c.free = true → n ≤ c.size → x ≤ y := by
  obtain ⟨front, x, back, hloc, hp, hx, hfront⟩ := alloc_iff.mp ⟨bs', h⟩
  have hsorted := located_sorted (H := H) a bs
  rw [hloc] at hsorted ⊢
  refine ⟨x.1, x.2, hp, List.mem_append_right _ List.mem_cons_self, hx.1, hx.2, ?_⟩
  intro y c hy hc hn
  rcases List.mem_append.mp hy with hy | hy
  · exact absurd ⟨hc, hn⟩ (hfront (y, c) hy)
  · rcases List.mem_cons.mp hy with heq | hy
    · rw [← heq]
    · exact (List.pairwise_cons.mp (List.pairwise_append.mp hsorted).2.1).1 (y, c) hy

/-! ## Sizes with a common divisor -/

/-- Every size is a multiple of `d`. -/
def SizesDvd (d : Nat) (bs : List Block) : Prop := ∀ b ∈ bs, d ∣ b.size

theorem SizesDvd.alloc {d n : Nat} (hH : d ∣ H) (hn : d ∣ n) {a p : Nat} {bs bs' : List Block}
    (hd : SizesDvd d bs) (h : alloc H A n a bs = some (p, bs')) : SizesDvd d bs' := by
  induction bs generalizing a p bs' with
  | nil => simp [BlockList.alloc] at h
  | cons c cs ih =>
    obtain ⟨hc, hcs⟩ := List.forall_mem_cons.mp hd
    simp only [BlockList.alloc] at h
    split at h
    · split at h
      · cases h
        exact List.forall_mem_cons.mpr ⟨hn, List.forall_mem_cons.mpr
          ⟨Nat.dvd_sub (Nat.dvd_sub hc hn) hH, hcs⟩⟩
      · cases h
        exact List.forall_mem_cons.mpr ⟨hc, hcs⟩
    · obtain ⟨r, hr, heq⟩ := Option.map_eq_some_iff.mp h
      cases heq
      exact List.forall_mem_cons.mpr ⟨hc, ih hcs hr⟩

theorem SizesDvd.release {d : Nat} {bs : List Block} (hd : SizesDvd d bs) (p a : Nat) :
    SizesDvd d (release H p a bs) := by
  induction bs generalizing a with
  | nil => exact hd
  | cons c cs ih =>
    obtain ⟨hc, hcs⟩ := List.forall_mem_cons.mp hd
    simp only [BlockList.release]
    split
    · exact List.forall_mem_cons.mpr ⟨hc, hcs⟩
    · exact List.forall_mem_cons.mpr ⟨hc, ih hcs _⟩

theorem SizesDvd.coalesceFrom {d : Nat} (hH : d ∣ H) {c : Block} {bs : List Block}
    (hc : d ∣ c.size) (hd : SizesDvd d bs) : SizesDvd d (coalesceFrom H c bs) := by
  induction bs generalizing c with
  | nil => exact List.forall_mem_singleton.mpr hc
  | cons b bs ih =>
    obtain ⟨hb, hbs⟩ := List.forall_mem_cons.mp hd
    simp only [BlockList.coalesceFrom]
    split
    · exact ih (Nat.dvd_add hc (Nat.dvd_add hH hb)) hbs
    · exact List.forall_mem_cons.mpr ⟨hc, ih hb hbs⟩

theorem SizesDvd.coalesce {d : Nat} (hH : d ∣ H) {bs : List Block} (hd : SizesDvd d bs) :
    SizesDvd d (coalesce H bs) := by
  cases bs with
  | nil => exact hd
  | cons b bs =>
    obtain ⟨hb, hbs⟩ := List.forall_mem_cons.mp hd
    exact SizesDvd.coalesceFrom hH hb hbs

end BlockList

end Lib
