import MiniOS.Memory.HeapLinks

/-!
# Invariants of the heap over whole runs

`HeapInv S s bs`: the headers of the state `s` are the block list `bs`, laid
over the whole of `heap_storage` with no two free neighbours, `heap_used`
counts the blocks in use, and the live pointers are exactly their payloads.
`memory_init` establishes it; `kmalloc_cases` and `kfree_cases` say all that
the two calls can do to it.
-/

namespace MiniOS

open Lib Lib.Mem

structure HeapInv (S : HeapStorage) (s : HeapState) (bs : List Block) : Prop where
  head : s.heap.heapHead = S.addr
  linked : Linked s.heap.mem S.addr S.addr bs
  extent : BlockList.extent headerSize bs = heapSize
  merged : BlockList.NoAdjacentFree bs
  used : s.heap.heapUsed = BlockList.used headerSize bs
  live : ∀ p, p ∈ s.live ↔ ∃ n, (p, n) ∈ BlockList.live headerSize S.addr bs
  nodup : s.live.Nodup

variable {S : HeapStorage} {s : HeapState} {bs : List Block}

theorem HeapInv.fits (hi : HeapInv S s bs) :
    S.addr + BlockList.extent headerSize bs ≤ 2 ^ 32 := by
  rw [hi.extent]
  exact S.fits

/-- The loops have rounds enough for every block. -/
theorem HeapInv.length_lt (hi : HeapInv S s bs) : bs.length < heapSize := by
  have h1 := BlockList.length_le_extent (H := headerSize) bs
  have h2 := hi.extent
  simp only [headerSize, heapSize] at *
  omega

theorem HeapInv.used_le (hi : HeapInv S s bs) : s.heap.heapUsed ≤ heapSize := by
  rw [hi.used, ← hi.extent]
  exact BlockList.used_le_extent bs

theorem HeapInv.ne_zero (hi : HeapInv S s bs) {p : Nat} (hp : p ∈ s.live) : p ≠ 0 := by
  obtain ⟨n, hn⟩ := (hi.live p).mp hp
  have := BlockList.live_bounds hn
  have := S.pos
  omega

theorem alignUp_eq (n : Nat) : alignUp n = u32 (n + 7) / 8 * 8 := by
  have hx : u32 (n + 7) < 2 ^ 32 := Nat.mod_lt _ (by omega)
  have hmask : 2 ^ 32 - 1 - (alignBytes - 1) = (2 ^ 29 - 1) * 2 ^ 3 := by decide
  unfold alignUp
  rw [hmask, show n + alignBytes - 1 = n + 7 from rfl, show (8 : Nat) = 2 ^ 3 from rfl]
  apply Nat.eq_of_testBit_eq
  intro i
  rw [Nat.testBit_and, Nat.testBit_mul_two_pow, Nat.testBit_mul_two_pow,
    Nat.testBit_two_pow_sub_one, Nat.testBit_div_two_pow]
  by_cases hi : 3 ≤ i
  · by_cases h32 : i < 32
    · simp [hi, show i - 3 < 29 by omega]
    · have hpow : 2 ^ 32 ≤ 2 ^ i := Nat.pow_le_pow_right (by omega) (by omega)
      have hbit : (u32 (n + 7)).testBit i = false := Nat.testBit_lt_two_pow (by omega)
      simp [hi, hbit]
  · simp [hi]

/-- Rounding up loses nothing, except from the seven largest requests on. -/
theorem le_alignUp {n : Nat} (hn : n ≤ 2 ^ 32 - 8) : n ≤ alignUp n := by
  rw [alignUp_eq]
  unfold u32
  omega

theorem alignUp_wraps {n : Nat} (hn : 2 ^ 32 - 8 < n) (hlt : n < 2 ^ 32) : alignUp n = 0 := by
  rw [alignUp_eq]
  unfold u32
  omega

/-! ## `memory_init` -/

theorem memoryInit_inv (S : HeapStorage) (m : Mem) :
    HeapInv S ⟨memoryInit S m, []⟩ [⟨heapSize - headerSize, true⟩] := by
  have hH : headerSize = 12 := rfl
  have hS : heapSize = 262144 := rfl
  have e : (memoryInit S m).mem =
      setNext (setFree (setSize m S.addr (heapSize - headerSize)) S.addr 1) S.addr 0 := rfl
  refine ⟨rfl, ⟨rfl, ?_, ?_, ?_⟩, ?_, List.isChain_singleton _, rfl, ?_, List.nodup_nil⟩
  · rw [e]
    unfold hdrSize setNext setFree setSize
    simp (disch := omega) only [load32_store32, load32_store32_disjoint]
  · rw [e]
    unfold hdrFree setNext setFree setSize
    simp (disch := omega) only [load32_store32, load32_store32_disjoint]
    rfl
  · exact load32_store32 _ _ _ (by omega)
  · rfl
  · simp [BlockList.live]

/-! ## `kmalloc` -/

/-- A successful `kmalloc`: the state and the block list afterwards. -/
structure Malloced (S : HeapStorage) (s : HeapState) (bs : List Block) (size q : Nat) (h' : Heap)
    (bs' : List Block) : Prop where
  alloc : BlockList.alloc headerSize alignBytes (alignUp size) S.addr bs = some (q, bs')
  ne_zero : q ≠ 0
  inv : HeapInv S ⟨h', q :: s.live⟩ bs'
  touches : Touches (InFree S.addr bs) s.heap.mem h'.mem

/-- **All that `kmalloc` can do**: nothing, or take the first block that fits. -/
theorem kmalloc_cases (hi : HeapInv S s bs) (size : Nat) :
    (kmalloc s.heap size = some (0, s.heap) ∧
      (size = 0 ∨ BlockList.alloc headerSize alignBytes (alignUp size) S.addr bs = none)) ∨
    (size ≠ 0 ∧ ∃ q h' bs', kmalloc s.heap size = some (q, h') ∧ Malloced S s bs size q h' bs') := by
  by_cases h0 : size = 0
  · left
    exact ⟨by rw [kmalloc, if_pos h0], Or.inl h0⟩
  have hloop := kmallocLoop_spec s.heap (alignUp size) hi.linked S.pos hi.fits hi.length_lt
  have hk : kmalloc s.heap size = loop (kmallocBody s.heap (alignUp size)) heapSize S.addr := by
    rw [kmalloc, if_neg h0, hi.head]
  rw [hk]
  cases ha : BlockList.alloc headerSize alignBytes (alignUp size) S.addr bs with
  | none =>
    rw [ha] at hloop
    exact Or.inl ⟨hloop, Or.inr rfl⟩
  | some r =>
    obtain ⟨q, bs'⟩ := r
    rw [ha] at hloop
    obtain ⟨h', hl, ht⟩ := hloop
    right
    refine ⟨h0, q, h', bs', hl, ha, ?_, ?_, ht.touches⟩
    · obtain ⟨n, hn⟩ := BlockList.alloc_spec (by decide) ha
      have := BlockList.live_bounds ((hn.mem_live (q, n)).mpr (Or.inl rfl))
      have := S.pos
      omega
    · obtain ⟨n, hn⟩ := BlockList.alloc_spec (by decide) ha
      obtain ⟨k, hk, hu⟩ := ht.used_eq
      have hext : BlockList.extent headerSize bs' = heapSize := by rw [hn.extent_eq, hi.extent]
      refine ⟨by rw [ht.head_eq, hi.head], ht.linked, hext,
        BlockList.alloc_noAdjacentFree ha hi.merged, ?_, fun p => ?_, ?_⟩
      · have hle := BlockList.used_le_extent (H := headerSize) bs'
        have hS : heapSize = 262144 := rfl
        rw [hu, hi.used, ← hk]
        exact Nat.mod_eq_of_lt (by omega)
      · simp only [List.mem_cons, hn.mem_live, hi.live p, Prod.mk.injEq]
        constructor
        · rintro (rfl | ⟨k, hk⟩)
          · exact ⟨n, Or.inl ⟨rfl, rfl⟩⟩
          · exact ⟨k, Or.inr hk⟩
        · rintro ⟨k, ⟨rfl, -⟩ | hk⟩
          · exact Or.inl rfl
          · exact Or.inr ⟨k, hk⟩
      · refine List.nodup_cons.mpr ⟨fun hq => ?_, hi.nodup⟩
        obtain ⟨k, hk⟩ := (hi.live q).mp hq
        exact hn.fresh k hk

/-! ## `kfree` -/

/-- What `kfree` of a live pointer does. -/
structure Freed (S : HeapStorage) (s : HeapState) (bs : List Block) (p n : Nat) (h' : Heap) :
    Prop where
  mem_live : (p, n) ∈ BlockList.live headerSize S.addr bs
  inv : HeapInv S ⟨h', s.live.erase p⟩
    (BlockList.coalesce headerSize (BlockList.release headerSize p S.addr bs))
  touches : Touches (InFree S.addr (BlockList.release headerSize p S.addr bs)) s.heap.mem h'.mem

theorem kfree_zero (h : Heap) : kfree h 0 = some h := by
  rw [kfree, if_pos rfl]

/-- **All that `kfree` can do** with a live pointer: release its block and coalesce. -/
theorem kfree_cases (hi : HeapInv S s bs) {p : Nat} (hp : p ∈ s.live) :
    ∃ n h', kfree s.heap p = some h' ∧ Freed S s bs p n h' := by
  have hH : headerSize = 12 := rfl
  obtain ⟨n, hn⟩ := (hi.live p).mp hp
  have hr := BlockList.release_spec (by decide) hn
  have hloc := BlockList.located_release (by decide) hn
  have hle := (BlockList.located_of_mem_live hn).1
  have hlink := linked_release hi.linked hn
  have hext : BlockList.extent headerSize (BlockList.release headerSize p S.addr bs) = heapSize := by
    rw [hr.extent_eq, hi.extent]
  have hsize : hdrSize (setFree s.heap.mem (p - headerSize) 1) (p - headerSize) = n :=
    (hlink.hdr_eq hloc).1
  cases hb : BlockList.release headerSize p S.addr bs with
  | nil =>
    rw [hb] at hloc
    simp [BlockList.located] at hloc
  | cons c cs =>
    rw [hb] at hlink hext hloc
    have hlen : cs.length < heapSize := by
      have h1 := BlockList.length_le_extent (H := headerSize) (c :: cs)
      have hS : heapSize = 262144 := rfl
      rw [List.length_cons, hext, hH] at h1
      omega
    obtain ⟨m', hloop, hlink', ht⟩ := kfreeLoop_spec hlink S.pos
      (by rw [hext]; exact S.fits) hlen
    have hset : Touches (InFree S.addr (c :: cs)) s.heap.mem
        (setFree s.heap.mem (p - headerSize) 1) := by
      apply touches_store32
      intro x h1 h2
      exact ⟨p - headerSize, ⟨n, true⟩, hloc, rfl, by omega, by simp only; omega⟩
    refine ⟨n, ⟨m', s.heap.heapHead, u32 (s.heap.heapUsed + 2 ^ 32 - u32 (n + headerSize))⟩,
      ?_, hn, ⟨hi.head, ?_, ?_, ?_, ?_, fun q => ?_, hi.nodup.erase p⟩, ?_⟩
    · rw [kfree, if_neg (hi.ne_zero hp)]
      simp only [hsize]
      rw [hi.head, hloop]
      rfl
    · rw [hb]
      exact hlink'
    · rw [BlockList.coalesce_extent, hb]
      exact hext
    · exact BlockList.coalesce_noAdjacentFree _
    · have h1 := hr.used_eq
      have h2 := BlockList.used_le_extent (H := headerSize) bs
      have hS : heapSize = 262144 := rfl
      have hu := hi.used
      rw [hi.extent] at h2
      rw [BlockList.coalesce_used]
      simp only [u32]
      omega
    · rw [BlockList.coalesce_live, hi.nodup.mem_erase_iff]
      simp only [hr.mem_live, hi.live q]
      constructor
      · rintro ⟨hne, k, hk⟩
        exact ⟨k, hk, hne⟩
      · rintro ⟨k, hk, hne⟩
        exact ⟨hne, k, hk⟩
    · rw [hb]
      exact hset.trans ht

/-! ## One call, and every reachable state -/

/-- **All that a legal call can do**: nothing, allocate, or free. -/
theorem step_cases (hi : HeapInv S s bs) {e : HeapCall} {o : Nat} {s' : HeapState}
    (hl : s.legal e) (he : s.step e = some (o, s')) :
    s' = s ∨
    (∃ size q h' bs', e = .kmalloc size ∧ s' = ⟨h', q :: s.live⟩ ∧ Malloced S s bs size q h' bs') ∨
    (∃ p n h', e = .kfree p ∧ p ∈ s.live ∧ s' = ⟨h', s.live.erase p⟩ ∧ Freed S s bs p n h') := by
  cases e with
  | kmalloc size =>
    rcases kmalloc_cases hi size with ⟨hk, -⟩ | ⟨-, q, h', bs', hk, hm⟩
    · simp only [HeapState.step, hk, Option.map_some] at he
      cases he
      exact Or.inl rfl
    · simp only [HeapState.step, hk, Option.map_some, if_neg hm.ne_zero] at he
      cases he
      exact Or.inr (Or.inl ⟨size, _, h', bs', rfl, rfl, hm⟩)
  | kfree p =>
    rcases hl with rfl | hp
    · simp only [HeapState.step, kfree_zero, Option.map_some] at he
      cases he
      left
      rw [List.erase_of_not_mem fun h => hi.ne_zero h rfl]
    · obtain ⟨n, h', hk, hf⟩ := kfree_cases hi hp
      simp only [HeapState.step, hk, Option.map_some] at he
      cases he
      exact Or.inr (Or.inr ⟨p, n, h', rfl, hp, rfl, hf⟩)

theorem step_inv (hi : HeapInv S s bs) {e : HeapCall} {o : Nat} {s' : HeapState}
    (hl : s.legal e) (he : s.step e = some (o, s')) : ∃ bs', HeapInv S s' bs' := by
  rcases step_cases hi hl he with rfl | ⟨_, _, _, bs', -, rfl, hm⟩ | ⟨_, _, _, -, -, rfl, hf⟩
  · exact ⟨bs, hi⟩
  · exact ⟨bs', hm.inv⟩
  · exact ⟨_, hf.inv⟩

theorem reach_inv (hs : (heapMachine S).Reach s) : ∃ bs, HeapInv S s bs := by
  refine Machine.Reach.invariant (I := fun s => ∃ bs, HeapInv S s bs) ?_ ?_ hs
  · rintro ⟨h, l⟩ ⟨rfl, m, rfl⟩
    exact ⟨_, memoryInit_inv S m⟩
  · rintro s e o s' ⟨bs, hi⟩ hl he
    exact step_inv hi hl he

/-- Both calls come back. -/
theorem step_returns (hi : HeapInv S s bs) {e : HeapCall} (hl : s.legal e) :
    ∃ o s', s.step e = some (o, s') := by
  cases e with
  | kmalloc size =>
    rcases kmalloc_cases hi size with ⟨hk, -⟩ | ⟨-, q, h', bs', hk, -⟩
    · exact ⟨_, _, by rw [HeapState.step, hk]; rfl⟩
    · exact ⟨_, _, by rw [HeapState.step, hk]; rfl⟩
  | kfree ptr =>
    rcases hl with rfl | hp
    · exact ⟨_, _, by rw [HeapState.step, kfree_zero]; rfl⟩
    · obtain ⟨n, h', hk, -⟩ := kfree_cases hi hp
      exact ⟨_, _, by rw [HeapState.step, hk]; rfl⟩

/-! ## The live payloads -/

/-- The size recorded for the payload at `q`. -/
def payloadSize (s : HeapState) (q : Nat) : Nat := hdrSize s.heap.mem (q - headerSize)

theorem HeapInv.payloadSize_eq (hi : HeapInv S s bs) {q n : Nat}
    (hq : (q, n) ∈ BlockList.live headerSize S.addr bs) : payloadSize s q = n :=
  (hi.linked.hdr_eq (BlockList.located_of_mem_live hq).2).1

theorem HeapInv.mem_live (hi : HeapInv S s bs) {q : Nat} (hq : q ∈ s.live) :
    (q, payloadSize s q) ∈ BlockList.live headerSize S.addr bs := by
  obtain ⟨n, hn⟩ := (hi.live q).mp hq
  rw [hi.payloadSize_eq hn]
  exact hn

/-- **The frame of one call**: it stores outside every payload that stays live,
and leaves the recorded sizes of these as they are. -/
theorem step_frame (hi : HeapInv S s bs) {e : HeapCall} {o : Nat} {s' : HeapState}
    (hl : s.legal e) (he : s.step e = some (o, s')) :
    ∃ P, Touches P s.heap.mem s'.heap.mem ∧ ∀ q ∈ s.live, q ∈ s'.live →
      (∀ x, P x → ¬ (q ≤ x ∧ x < q + payloadSize s q)) ∧ payloadSize s' q = payloadSize s q := by
  rcases step_cases hi hl he with rfl | ⟨size, r, h', bs', -, rfl, hm⟩ | ⟨p, n, h', -, hp, rfl, hf⟩
  · exact ⟨fun _ => False, Touches.refl _ _, fun q _ _ => ⟨fun x hx => hx.elim, rfl⟩⟩
  · refine ⟨_, hm.touches, fun q hq _ => ⟨fun x hx => hx.not_live (hi.mem_live hq), ?_⟩⟩
    obtain ⟨k, hk⟩ := BlockList.alloc_spec (by decide) hm.alloc
    exact hm.inv.payloadSize_eq ((hk.mem_live _).mpr (Or.inr (hi.mem_live hq)))
  · refine ⟨_, hf.touches, fun q hq hq' => ?_⟩
    have hne : q ≠ p := (hi.nodup.mem_erase_iff.mp hq').1
    have hr := BlockList.release_spec (by decide) hf.mem_live
    have hql := (hr.mem_live (q, payloadSize s q)).mpr ⟨hi.mem_live hq, hne⟩
    refine ⟨fun x hx => hx.not_live hql, hf.inv.payloadSize_eq ?_⟩
    rw [BlockList.coalesce_live]
    exact hql

/-- A live pointer stays live until it is freed. -/
theorem step_live (hi : HeapInv S s bs) {e : HeapCall} {o : Nat} {s' : HeapState}
    (hl : s.legal e) (he : s.step e = some (o, s')) {q : Nat} (hq : q ∈ s.live)
    (hne : e ≠ .kfree q) : q ∈ s'.live := by
  rcases step_cases hi hl he with rfl | ⟨_, r, _, _, -, rfl, -⟩ | ⟨p, _, _, rfl, -, rfl, -⟩
  · exact hq
  · exact List.mem_cons_of_mem _ hq
  · exact hi.nodup.mem_erase_iff.mpr ⟨fun h => hne (by rw [h]), hq⟩

end MiniOS
