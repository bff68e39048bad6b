import MiniOS.Lib.BlockGaps
import MiniOS.Memory.HeapSafety

/-!
# Which block `kmalloc` takes

Seen from outside, the free blocks are the runs of heap bytes that no live block
covers: `kmalloc` takes the first of them that is large enough, and fails only
if there is none (`kmalloc_firstFit`).

Sizes are multiples of 8 but headers are 12 bytes, so a pointer is a multiple of
8 only at every other place (`kmalloc_aligned_iff`).
-/

namespace MiniOS

open Lib

variable {S : HeapStorage} {s : HeapState} {bs : List Block}

/-! ## First fit -/

/-- The byte `y` is in a live block, header included. -/
def InLive (s : HeapState) (y : Nat) : Prop :=
  ∃ q ∈ s.live, q ≤ y + headerSize ∧ y < q + payloadSize s q

/-- A maximal run of heap bytes outside all live blocks, from `r` to before `e`. -/
def FreeRun (S : HeapStorage) (s : HeapState) (r e : Nat) : Prop :=
  MaximalRun (fun y => ¬ InLive s y) S.addr (S.addr + heapSize) r e

theorem HeapInv.inLive_iff (hi : HeapInv S s bs) (y : Nat) :
    InLive s y ↔ BlockList.Occupied headerSize S.addr bs y := by
  constructor
  · rintro ⟨q, hq, h⟩
    exact ⟨_, hi.mem_live hq, h⟩
  · rintro ⟨⟨q, n⟩, hq, h⟩
    refine ⟨q, (hi.live q).mpr ⟨n, hq⟩, ?_⟩
    rw [hi.payloadSize_eq hq]
    exact h

/-- The runs are the free blocks. -/
theorem HeapInv.freeRun_iff (hi : HeapInv S s bs) {r e : Nat} : FreeRun S s r e ↔
    ∃ b, (r, b) ∈ BlockList.located headerSize S.addr bs ∧ b.free = true ∧
      e = r + headerSize + b.size := by
  rw [← BlockList.maximalRun_iff (by decide) hi.merged, hi.extent]
  unfold FreeRun
  simp only [hi.inLive_iff]

/-- **First fit.**  `kmalloc` comes back; it returns `NULL`, with the heap as it was, exactly if
no run of free bytes holds a header and the rounded size, and else it allocates at the start of
the lowest such run. -/
theorem kmalloc_firstFit (S : HeapStorage) (s : HeapState) (hs : (heapMachine S).Reach s) {n : Nat}
    (h0 : 0 < n) :
    ∃ p h', kmalloc s.heap n = some (p, h') ∧
      (p = 0 ↔ ∀ r e, FreeRun S s r e → e - r < alignUp n + headerSize) ∧
      (p = 0 → h'.blocks = s.heap.blocks ∧ h'.heapUsed = s.heap.heapUsed) ∧
      (p ≠ 0 → ∃ r e, p = r + headerSize ∧ FreeRun S s r e ∧ alignUp n + headerSize ≤ e - r ∧
        ∀ r' e', FreeRun S s r' e' → alignUp n + headerSize ≤ e' - r' → r ≤ r') := by
  obtain ⟨bs, hi⟩ := reach_inv hs
  rcases kmalloc_cases hi n with ⟨hk, hno⟩ | ⟨_, q, h', bs', hk, hm⟩
  · refine ⟨0, s.heap, hk, ⟨fun _ => ?_, fun _ => rfl⟩, fun _ => ⟨rfl, rfl⟩, fun h => absurd rfl h⟩
    intro r e hrun
    obtain ⟨b, hb, hfree, rfl⟩ := hi.freeRun_iff.mp hrun
    have hnone := hno.resolve_left (by omega)
    rw [BlockList.alloc_eq_none] at hnone
    have := hnone b (BlockList.mem_of_located hb)
    simp only [hfree, true_and] at this
    omega
  · obtain ⟨r, b, hq, hloc, hfree, hfit, hfirst⟩ := BlockList.alloc_first hm.alloc
    have hrun := hi.freeRun_iff.mpr ⟨b, hloc, hfree, rfl⟩
    refine ⟨q, h', hk, ⟨fun h => absurd h hm.ne_zero, fun hno => ?_⟩,
      fun h => absurd h hm.ne_zero, fun _ => ⟨r, _, hq, hrun, by omega, ?_⟩⟩
    · have := hno _ _ hrun
      omega
    · intro r' e' hrun' hlen
      obtain ⟨c, hc, hcfree, rfl⟩ := hi.freeRun_iff.mp hrun'
      exact hfirst r' c hc hcfree (by omega)

/-- The hole is too small for 100 bytes, so that the block behind the live payload is taken. -/
theorem kmalloc_firstFit_hole : ∃ s h', (heapMachine lowStorage).Reach s ∧ s.live = [1048616] ∧
    kmalloc s.heap 100 = some (1048660, h') ∧
      ∀ r e, FreeRun lowStorage s r e → alignUp 100 + headerSize ≤ e - r → 1048648 ≤ r := by
  obtain ⟨s, hs, hlive, _, hlast⟩ := freshHeap_hole
  obtain ⟨⟨p, h'⟩, hk, hp⟩ := Option.map_eq_some_iff.mp hlast
  obtain ⟨q, g, hk', _, _, htakes⟩ := kmalloc_firstFit lowStorage s hs (show 0 < 100 by decide)
  rw [hk] at hk'
  cases hk'
  obtain ⟨r, e, hr, _, _, hfirst⟩ := htakes (by rw [show p = 1048660 from hp]; decide)
  have hstart : r = 1048648 := by
    have hH : headerSize = 12 := rfl
    have : p = 1048660 := hp
    omega
  rw [hstart] at hfirst
  exact ⟨s, h', hs, hlive, by rw [hk, show p = 1048660 from hp], hfirst⟩

/-! ## Alignment -/

/-- Every block size is a multiple of 4. -/
theorem reach_sizes (hs : (heapMachine S).Reach s) :
    ∃ bs, HeapInv S s bs ∧ BlockList.SizesDvd 4 bs := by
  refine hs.invariant (I := fun s => ∃ bs, HeapInv S s bs ∧ BlockList.SizesDvd 4 bs) ?_ ?_
  · rintro ⟨h, l⟩ ⟨rfl, m, rfl⟩
    exact ⟨_, memoryInit_inv S m, List.forall_mem_singleton.mpr (by decide)⟩
  · rintro s e o s' ⟨bs, hi, hd⟩ hl he
    have hH : 4 ∣ headerSize := by decide
    rcases step_cases hi hl he with rfl | ⟨n, _, _, bs', -, rfl, hm⟩ | ⟨p, _, _, -, -, rfl, hf⟩
    · exact ⟨bs, hi, hd⟩
    · refine ⟨bs', hm.inv, hd.alloc hH ?_ hm.alloc⟩
      rw [alignUp_eq]
      exact Nat.dvd_mul_left_of_dvd (by decide) _
    · exact ⟨_, hf.inv, (hd.release p _).coalesce hH⟩

/-- A block with a size that is a multiple of 8 moves the next one by 4 modulo 8. -/
theorem extent_mod {bs : List Block} (hd : BlockList.SizesDvd 4 bs) :
    BlockList.extent headerSize bs % 8 = 4 * (bs.countP fun b => b.size % 8 = 0) % 8 := by
  induction bs with
  | nil => rfl
  | cons b bs ih =>
    obtain ⟨hb, hbs⟩ := List.forall_mem_cons.mp hd
    have hrest := ih hbs
    have hH : headerSize = 12 := rfl
    simp only [BlockList.extent, List.countP_cons]
    by_cases h8 : b.size % 8 = 0
    · simp only [h8, decide_true, if_true]
      omega
    · simp only [h8, decide_false, Bool.false_eq_true, if_false]
      omega

/-- A block that a search for `n` bytes stops at. -/
def BlockFits (n : Nat) (x : Nat × Block) : Prop := x.2.free = true ∧ alignUp n ≤ x.2.size

/-- An odd number of the blocks has a size that is a multiple of 8. -/
def OddPlace (front : List (Nat × Block)) : Prop :=
  Odd (front.countP fun y => y.2.size % 8 = 0)

/-- `kmalloc` takes the first block that fits. -/
theorem kmalloc_takes_iff (hi : HeapInv S s bs) (n p : Nat) :
    (∃ h', kmalloc s.heap n = some (p, h') ∧ p ≠ 0) ↔
      n ≠ 0 ∧ ∃ front x back, s.heap.blocks = some (front ++ x :: back) ∧ p = x.1 + headerSize ∧
        BlockFits n x ∧ ∀ y ∈ front, ¬ BlockFits n y := by
  have halloc : (∃ bs', BlockList.alloc headerSize alignBytes (alignUp n) S.addr bs =
      some (p, bs')) ↔ _ := BlockList.alloc_iff
  simp only [hi.blocks_eq, Option.some.injEq, BlockFits]
  rw [← halloc]
  rcases kmalloc_cases hi n with ⟨hk, hno⟩ | ⟨h0, q, h', bs', hk, hm⟩
  · apply iff_of_false
    · rintro ⟨h', hk', hp⟩
      rw [hk] at hk'
      cases hk'
      exact hp rfl
    · rintro ⟨h0, bs', ha⟩
      rw [hno.resolve_left h0] at ha
      cases ha
  · constructor
    · rintro ⟨h₁, hk', -⟩
      rw [hk] at hk'
      cases hk'
      exact ⟨h0, bs', hm.alloc⟩
    · rintro ⟨-, bs₁, ha⟩
      rw [hm.alloc] at ha
      cases ha
      exact ⟨h', hk, hm.ne_zero⟩

/-- Where the payload of a block is. -/
theorem place_aligned_iff (hi : HeapInv S s bs) (hd : BlockList.SizesDvd 4 bs)
    {front back : List (Nat × Block)} {x : Nat × Block}
    (h : s.heap.blocks = some (front ++ x :: back)) :
    (x.1 + headerSize) % alignBytes = 0 ↔ OddPlace front := by
  rw [hi.blocks_eq, Option.some.injEq] at h
  obtain ⟨hbs, hx⟩ := BlockList.located_split h
  have hmod : BlockList.extent headerSize (front.map Prod.snd) % 8 =
      4 * ((front.map Prod.snd).countP fun b => b.size % 8 = 0) % 8 := by
    apply extent_mod
    intro c hc
    apply hd
    rw [hbs]
    exact List.mem_append_left _ hc
  rw [List.countP_map] at hmod
  have haddr := S.aligned
  have hH : headerSize = 12 := rfl
  have hA : alignBytes = 8 := rfl
  rw [hA] at haddr
  rw [hx, hA, OddPlace, Nat.odd_iff]
  show _ ↔ (front.countP ((fun b => decide (b.size % 8 = 0)) ∘ Prod.snd)) % 2 = 1
  omega

/-- **Alignment.**  `kmalloc` returns a multiple of 8 exactly if the first block that fits stands
behind an odd number of blocks with sizes that are multiples of 8. -/
theorem kmalloc_aligned_iff (S : HeapStorage) (s : HeapState) (hs : (heapMachine S).Reach s)
    (n : Nat) :
    (∀ p h', kmalloc s.heap n = some (p, h') → p ≠ 0 → p % alignBytes = 0) ↔
      (n = 0 ∨ ∀ front x back, s.heap.blocks = some (front ++ x :: back) → BlockFits n x →
        (∀ y ∈ front, ¬ BlockFits n y) → OddPlace front) := by
  obtain ⟨bs, hi, hd⟩ := reach_sizes hs
  constructor
  · intro hall
    apply or_iff_not_imp_left.mpr
    intro h0 front x back hblocks hx hfront
    obtain ⟨h', hk, hp⟩ :=
      (kmalloc_takes_iff hi n _).mpr ⟨h0, front, x, back, hblocks, rfl, hx, hfront⟩
    exact (place_aligned_iff hi hd hblocks).mp (hall _ h' hk hp)
  · rintro hodd p h' hk hp
    obtain ⟨h0, front, x, back, hblocks, rfl, hx, hfront⟩ :=
      (kmalloc_takes_iff hi n p).mp ⟨h', hk, hp⟩
    apply (place_aligned_iff hi hd hblocks).mpr
    exact hodd.resolve_left h0 front x back hblocks hx hfront

/-- The hole is in the first place. -/
theorem kmalloc_aligned_iff_hole : ∃ s, (heapMachine lowStorage).Reach s ∧ s.live = [1048616] ∧
    ¬ ∀ front x back, s.heap.blocks = some (front ++ x :: back) → BlockFits 16 x →
      (∀ y ∈ front, ¬ BlockFits 16 y) → OddPlace front := by
  obtain ⟨s, hs, hlive, hhole, _⟩ := freshHeap_hole
  obtain ⟨⟨p, h'⟩, hk, rfl⟩ := Option.map_eq_some_iff.mp hhole
  refine ⟨s, hs, hlive, fun hodd => ?_⟩
  have haligned := (kmalloc_aligned_iff lowStorage s hs 16).mpr (.inr hodd)
  exact absurd (haligned _ h' hk (by decide)) (by decide)

/-- The first pointer of a fresh heap. -/
theorem kmalloc_unaligned : (heapMachine lowStorage).Reach freshHeap ∧
    (kmalloc freshHeap.heap 1).map (fun r => (r.1, r.1 % alignBytes)) = some (2 ^ 20 + 12, 4) :=
  ⟨freshHeap_reach, by decide +kernel⟩

end MiniOS
