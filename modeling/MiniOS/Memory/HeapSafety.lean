import MiniOS.Memory.HeapInvariants

/-!
# What the heap guarantees

For every state the allocator can reach: the block list tiles `heap_storage`
and accounts for `heap_used` (`heap_wellFormed`), no call disturbs a live
payload (`live_isolated`), and `kmalloc` returns at least what was asked,
except for the seven requests that `align_up` wraps to 0
(`kmalloc_atLeast_iff`).
-/

namespace MiniOS

open Lib Lib.Mem

/-- The blocks `bs` lie end to end from `a` to `e`, each linked to the next. -/
def Tiles (m : Mem) : Nat → Nat → List (Nat × Block) → Prop
  | a, e, [] => a = e
  | a, e, (x, b) :: bs =>
    x = a ∧ hdrNext m x = (if bs = [] then 0 else x + headerSize + b.size) ∧
      Tiles m (x + headerSize + b.size) e bs

/-- Bytes of the blocks in use, headers included. -/
def usedBytes (bs : List (Nat × Block)) : Nat :=
  (bs.map fun x => if x.2.free then 0 else x.2.size + headerSize).sum

theorem Linked.tiles {m : Mem} {p a : Nat} {bs : List Block} (h : Linked m p a bs) :
    Tiles m a (a + BlockList.extent headerSize bs) (BlockList.located headerSize a bs) := by
  induction bs generalizing p a with
  | nil => rfl
  | cons b bs ih =>
    obtain ⟨rfl, -, -, hn⟩ := h
    refine ⟨rfl, ?_, ?_⟩
    · rw [hn.next_eq]
      cases bs with
      | nil => rfl
      | cons c cs => rfl
    · have e : p + BlockList.extent headerSize (b :: bs) =
          p + headerSize + b.size + BlockList.extent headerSize bs := by
        simp only [BlockList.extent]
        omega
      rw [e]
      exact ih hn

theorem located_sorted (a : Nat) (bs : List Block) :
    ((BlockList.located headerSize a bs).map Prod.fst).Pairwise (· < ·) := by
  induction bs generalizing a with
  | nil => exact List.Pairwise.nil
  | cons b bs ih =>
    refine List.pairwise_cons.mpr ⟨fun y hy => ?_, ih _⟩
    obtain ⟨⟨x, c⟩, hx, rfl⟩ := List.mem_map.mp hy
    have := BlockList.located_bounds hx
    simp only [headerSize] at *
    omega

theorem located_isChain {a : Nat} {bs : List Block} (h : BlockList.NoAdjacentFree bs) :
    (BlockList.located headerSize a bs).IsChain
      fun x y => ¬ (x.2.free = true ∧ y.2.free = true) := by
  induction bs generalizing a with
  | nil => exact List.isChain_nil
  | cons b bs ih =>
    cases bs with
    | nil => exact List.isChain_singleton _
    | cons c cs =>
      obtain ⟨h1, h2⟩ := List.isChain_cons_cons.mp h
      exact List.isChain_cons_cons.mpr ⟨h1, ih h2⟩

theorem usedBytes_located (a : Nat) (bs : List Block) :
    usedBytes (BlockList.located headerSize a bs) = BlockList.used headerSize bs := by
  induction bs generalizing a with
  | nil => rfl
  | cons b bs ih =>
    rw [BlockList.located, BlockList.used, ← ih]
    rfl

theorem HeapInv.blocks_eq {S : HeapStorage} {s : HeapState} {bs : List Block}
    (hi : HeapInv S s bs) : s.heap.blocks = some (BlockList.located headerSize S.addr bs) := by
  rw [Heap.blocks, hi.head]
  exact walk_of_linked hi.linked S.pos hi.length_lt

/-- **The representation invariant.**  In every reachable state the walk from
`heap_head` meets blocks in address order that tile `heap_storage`, no two
neighbours free, and `heap_used` is what the blocks in use add up to: it can
never wrap, neither in `kfree` nor in `memory_print_stats`. -/
theorem heap_wellFormed (S : HeapStorage) (s : HeapState) (hs : (heapMachine S).Reach s) :
    ∃ bs, s.heap.blocks = some bs ∧
      (bs.map Prod.fst).Pairwise (· < ·) ∧
      s.heap.heapHead = S.addr ∧ Tiles s.heap.mem S.addr (S.addr + heapSize) bs ∧
      bs.IsChain (fun x y => ¬ (x.2.free = true ∧ y.2.free = true)) ∧
      s.heap.heapUsed = usedBytes bs ∧
      (∀ p ∈ s.live, payloadSize s p + headerSize ≤ s.heap.heapUsed) ∧
      s.heap.heapUsed ≤ heapSize ∧
      memoryPrintStats s.heap = (heapSize, usedBytes bs, heapSize - usedBytes bs) ∧
      ∀ e, s.legal e → ∃ o s', s.step e = some (o, s') := by
  obtain ⟨bs, hi⟩ := reach_inv hs
  have hused : s.heap.heapUsed = usedBytes (BlockList.located headerSize S.addr bs) := by
    rw [usedBytes_located, hi.used]
  have hle := hi.used_le
  refine ⟨_, hi.blocks_eq, located_sorted _ _, hi.head, ?_, located_isChain hi.merged, hused,
    fun p hp => ?_, hle, ?_, fun e hl => step_returns hi hl⟩
  · rw [← hi.extent]
    exact hi.linked.tiles
  · rw [hi.used]
    exact BlockList.le_used_of_mem_live (hi.mem_live hp)
  · unfold memoryPrintStats u32
    rw [hused] at hle ⊢
    have hS : heapSize = 262144 := rfl
    simp only [Prod.mk.injEq, true_and]
    omega

/-! ## A storage and a fresh heap, for the examples -/

/-- `heap_storage` at 1 MiB. -/
def lowStorage : HeapStorage := ⟨2 ^ 20, by decide, by decide, by decide⟩

/-- Memory the loader has cleared. -/
def clearMem : Mem := ⟨fun _ => 0, []⟩

def freshHeap : HeapState := ⟨memoryInit lowStorage clearMem, []⟩

theorem freshHeap_reach : (heapMachine lowStorage).Reach freshHeap :=
  Machine.Reach.init ⟨rfl, clearMem, rfl⟩

/-- Two live pointers, with the calls that returned them. -/
theorem freshHeap_two : ∃ s, (heapMachine lowStorage).Run freshHeap [.kmalloc 16, .kmalloc 32]
    [1048588, 1048616] s ∧ s.live = [1048616, 1048588] := by
  have hrun : ((freshHeap.step (.kmalloc 16)).bind fun r => (r.2.step (.kmalloc 32)).map
      fun r' => (r.1, r'.1, r'.2.live)) = some (1048588, 1048616, [1048616, 1048588]) := by
    decide +kernel
  obtain ⟨⟨o₁, s₁⟩, h1, hmap⟩ := Option.bind_eq_some_iff.mp hrun
  obtain ⟨⟨o₂, s₂⟩, h2, heq⟩ := Option.map_eq_some_iff.mp hmap
  simp only [Prod.mk.injEq] at heq
  obtain ⟨rfl, rfl, hlive⟩ := heq
  exact ⟨s₂, .cons (show 16 < 2 ^ 32 by decide) h1 (.single (show 32 < 2 ^ 32 by decide) h2), hlive⟩

/-- The first of them is freed: a hole of 16 bytes in front of a live payload. -/
theorem freshHeap_hole : ∃ s, (heapMachine lowStorage).Reach s ∧ s.live = [1048616] ∧
    (kmalloc s.heap 16).map Prod.fst = some 1048588 ∧
      (kmalloc s.heap 100).map Prod.fst = some 1048660 := by
  have hrun : ((freshHeap.step (.kmalloc 16)).bind fun r => (r.2.step (.kmalloc 32)).bind fun r' =>
      (r'.2.step (.kfree 1048588)).map fun r'' => (r'.2.live, r''.2.live,
        (kmalloc r''.2.heap 16).map Prod.fst, (kmalloc r''.2.heap 100).map Prod.fst)) =
      some ([1048616, 1048588], [1048616], some 1048588, some 1048660) := by decide +kernel
  obtain ⟨⟨_, s₁⟩, h1, hbind⟩ := Option.bind_eq_some_iff.mp hrun
  obtain ⟨⟨_, s₂⟩, h2, hmap⟩ := Option.bind_eq_some_iff.mp hbind
  obtain ⟨⟨_, s₃⟩, h3, heq⟩ := Option.map_eq_some_iff.mp hmap
  simp only [Prod.mk.injEq] at heq
  obtain ⟨hlive₂, hlive₃, hhole, hlast⟩ := heq
  have hs₁ : (heapMachine lowStorage).Reach s₁ :=
    freshHeap_reach.step (e := .kmalloc 16) (show 16 < 2 ^ 32 by decide) h1
  have hs₂ : (heapMachine lowStorage).Reach s₂ :=
    hs₁.step (e := .kmalloc 32) (show 32 < 2 ^ 32 by decide) h2
  have hlegal : s₂.legal (.kfree 1048588) := .inr (by rw [hlive₂]; decide)
  exact ⟨s₃, hs₂.step (e := .kfree 1048588) hlegal h3, hlive₃, hhole, hlast⟩

theorem heap_wellFormed_hole : ∃ s bs, (heapMachine lowStorage).Reach s ∧ s.live = [1048616] ∧
    s.heap.blocks = some bs ∧ (bs.map Prod.fst).Pairwise (· < ·) ∧
      s.heap.heapUsed = usedBytes bs := by
  obtain ⟨s, hs, hlive, _⟩ := freshHeap_hole
  obtain ⟨bs, h1, h2, -, -, -, h3, -⟩ := heap_wellFormed lowStorage s hs
  exact ⟨s, bs, hs, hlive, h1, h2, h3⟩

/-! ## Isolation -/

/-- **Live allocations are isolated.**  Their payloads lie in `heap_storage`,
apart from each other and from every header; every address a call stores to
lies outside the payloads that stay live; address and size of a payload stay
the same over any run that does not free it. -/
theorem live_isolated (S : HeapStorage) (s : HeapState) (hs : (heapMachine S).Reach s) :
    (∀ q ∈ s.live, S.addr ≤ q ∧ q + payloadSize s q ≤ S.addr + heapSize) ∧
    s.live.Pairwise (fun q r => q + payloadSize s q ≤ r ∨ r + payloadSize s r ≤ q) ∧
    (∃ bs, s.heap.blocks = some bs ∧
      ∀ q ∈ s.live, ∀ x ∈ bs, x.1 + headerSize ≤ q ∨ q + payloadSize s q ≤ x.1) ∧
    (∀ e o s', s.legal e → s.step e = some (o, s') →
      ∃ ws, s'.heap.mem.written = s.heap.mem.written ++ ws ∧
        ∀ q ∈ s.live, q ∈ s'.live →
          (∀ x ∈ ws, ¬ (q ≤ x ∧ x < q + payloadSize s q)) ∧ payloadSize s' q = payloadSize s q) ∧
    (∀ es os s', (heapMachine S).Run s es os s' → ∀ q ∈ s.live, .kfree q ∉ es →
      q ∈ s'.live ∧ payloadSize s' q = payloadSize s q) := by
  obtain ⟨bs, hi⟩ := reach_inv hs
  refine ⟨fun q hq => ?_, ?_, ⟨_, hi.blocks_eq, fun q hq x hx => ?_⟩, ?_, ?_⟩
  · have := BlockList.live_bounds (hi.mem_live hq)
    rw [hi.extent] at this
    omega
  · refine hi.nodup.pairwise_of_forall_ne fun q hq r hr hne => ?_
    exact BlockList.live_disjoint (hi.mem_live hq) (hi.mem_live hr) hne
  · exact BlockList.live_header_disjoint hx (hi.mem_live hq)
  · intro e o s' hl he
    obtain ⟨P, ht, hP⟩ := step_frame hi hl he
    obtain ⟨ws, hw, hws⟩ := ht.log
    exact ⟨ws, hw, fun q hq hq' => ⟨fun x hx => (hP q hq hq').1 x (hws x hx), (hP q hq hq').2⟩⟩
  · intro es os s' hr q hq hes
    clear hs
    induction hr generalizing bs with
    | nil s => exact ⟨hq, rfl⟩
    | cons hl he _ ih =>
      rw [List.mem_cons, not_or] at hes
      have hq1 := step_live hi hl he hq fun h => hes.1 h.symm
      obtain ⟨P, -, hP⟩ := step_frame hi hl he
      obtain ⟨bs1, hi1⟩ := step_inv hi hl he
      obtain ⟨h1, h2⟩ := ih bs1 hi1 hq1 hes.2
      exact ⟨h1, h2.trans (hP q hq hq1).2⟩

/-- Two payloads in a fresh heap. -/
theorem live_isolated_two : ∃ s, (heapMachine lowStorage).Reach s ∧ s.live = [1048616, 1048588] ∧
    s.live.Pairwise fun q r => q + payloadSize s q ≤ r ∨ r + payloadSize s r ≤ q := by
  obtain ⟨s, hr, hlive⟩ := freshHeap_two
  have hs := freshHeap_reach.run hr
  exact ⟨s, hs, hlive, (live_isolated lowStorage s hs).2.1⟩

/-! ## Enough bytes -/

/-- Bytes from the payload address `p` to the next header or the end of the heap. -/
def usableBytes (S : HeapStorage) (m : Mem) (p : Nat) : Nat :=
  let next := hdrNext m (p - headerSize)
  (if next = 0 then S.addr + heapSize else next) - p

theorem HeapInv.usableBytes_eq {S : HeapStorage} {s : HeapState} {bs : List Block}
    (hi : HeapInv S s bs) {p n : Nat} (hp : (p, n) ∈ BlockList.live headerSize S.addr bs) :
    usableBytes S s.heap.mem p = n := by
  obtain ⟨hle, hloc⟩ := BlockList.located_of_mem_live hp
  obtain ⟨-, hn⟩ := hi.linked.hdr_eq hloc
  have hb := BlockList.live_bounds hp
  have hpos := S.pos
  simp only [hi.extent, Nat.sub_add_cancel hle] at hn
  unfold usableBytes
  rw [hn]
  by_cases he : p + n = S.addr + heapSize
  · simp only [if_pos he, if_true]
    omega
  · have hne : p + n ≠ 0 := by omega
    simp only [if_neg he, if_neg hne]
    omega

/-- **`kmalloc` returns at least what was asked, exactly when** the request is
at most 2^32 - 8, or no block is free (and it returns `NULL`): a larger one is
rounded up to 0 and any free block will do. -/
theorem kmalloc_atLeast_iff (S : HeapStorage) (s : HeapState) (hs : (heapMachine S).Reach s)
    (n : Nat) (h0 : 0 < n) (hn : n < 2 ^ 32) :
    (∀ p h', kmalloc s.heap n = some (p, h') → p ≠ 0 → n ≤ usableBytes S h'.mem p) ↔
      (n ≤ 2 ^ 32 - 8 ∨ ∃ bs, s.heap.blocks = some bs ∧ ∀ x ∈ bs, x.2.free = false) := by
  obtain ⟨bs, hi⟩ := reach_inv hs
  constructor
  · intro h
    by_contra hcon
    rw [not_or] at hcon
    obtain ⟨hbig, hfree⟩ := hcon
    -- the request is rounded up to 0, so the search stops at any free block
    have hzero : alignUp n = 0 := alignUp_wraps (by omega) hn
    rcases kmalloc_cases hi n with ⟨-, h0' | hnone⟩ | ⟨-, q, h', bs', hk, hm⟩
    · omega
    · apply hfree
      rw [hzero, BlockList.alloc_eq_none] at hnone
      refine ⟨_, hi.blocks_eq, fun x hx => ?_⟩
      have := hnone x.2 (BlockList.mem_of_located hx)
      simpa using this
    · obtain ⟨k, hk'⟩ := BlockList.alloc_spec (by decide) hm.alloc
      have hlive := (hk'.mem_live (q, k)).mpr (Or.inl rfl)
      have huse := hm.inv.usableBytes_eq hlive
      have hle := h q h' hk hm.ne_zero
      have hbd := BlockList.live_bounds hlive
      rw [hm.inv.extent] at hbd
      have hS : heapSize = 262144 := rfl
      simp only at huse
      omega
  · intro h p h' hk hp
    rcases kmalloc_cases hi n with ⟨hk', -⟩ | ⟨-, q, h₁, bs', hk', hm⟩
    · rw [hk'] at hk
      cases hk
      exact absurd rfl hp
    · rw [hk'] at hk
      cases hk
      obtain ⟨k, hal⟩ := BlockList.alloc_spec (by decide) hm.alloc
      have huse := hm.inv.usableBytes_eq ((hal.mem_live (p, k)).mpr (Or.inl rfl))
      rcases h with hle | ⟨cs, hcs, hall⟩
      · have := le_alignUp hle
        have := hal.enough
        simp only at huse
        omega
      · rw [hi.blocks_eq] at hcs
        cases hcs
        have hnone : BlockList.alloc headerSize alignBytes (alignUp n) S.addr bs = none := by
          rw [BlockList.alloc_eq_none]
          intro b hb hfit
          obtain ⟨x, hx⟩ := BlockList.located_of_mem (a := S.addr) hb
          have := hall _ hx
          simp only at this
          rw [hfit.1] at this
          cases this
        rw [hm.alloc] at hnone
        cases hnone

/-- A request of 100 passes over the hole. -/
theorem kmalloc_atLeast_iff_hole : ∃ s p h', (heapMachine lowStorage).Reach s ∧
    s.live = [1048616] ∧ kmalloc s.heap 100 = some (p, h') ∧ p ≠ 0 ∧
      100 ≤ usableBytes lowStorage h'.mem p := by
  obtain ⟨s, hs, hlive, _, hlast⟩ := freshHeap_hole
  obtain ⟨⟨p, h'⟩, hk, rfl⟩ := Option.map_eq_some_iff.mp hlast
  have hall := (kmalloc_atLeast_iff lowStorage s hs 100 (by decide) (by decide)).mpr
    (.inl (by decide))
  exact ⟨s, 1048660, h', hs, hlive, hk, by decide, hall _ h' hk (by decide)⟩

/-- `kmalloc(4294967289)` on the fresh heap returns the first payload, with no bytes. -/
theorem kmalloc_wraps : (heapMachine lowStorage).Reach freshHeap ∧
    (kmalloc freshHeap.heap 4294967289).map
      (fun r => (r.1, usableBytes lowStorage r.2.mem r.1)) = some (2 ^ 20 + 12, 0) :=
  ⟨freshHeap_reach, by decide +kernel⟩

end MiniOS
