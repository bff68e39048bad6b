import MiniOS.Lib.BlockGaps
import MiniOS.Memory.HeapSafety

/-!
# Frees in any order

In a reachable state the blocks are given by the live payloads, so every way to
the same live payloads ends in the same blocks: a heap with all its pointers
freed is the fresh one (`drained_fresh`), pointers may be freed in any order
(`frees_anyOrder`), and `kfree` undoes `kmalloc` (`kfree_undoes`).
-/

namespace MiniOS

open Lib

variable {S : HeapStorage} {s t : HeapState} {bs : List Block}

/-! ## The blocks that the live payloads determine -/

/-- Two states whose live payloads are the same have the same blocks. -/
theorem HeapInv.eq_of_live {cs : List Block} (hi : HeapInv S s bs) (hj : HeapInv S t cs)
    (h : BlockList.live headerSize S.addr bs = BlockList.live headerSize S.addr cs) : bs = cs :=
  BlockList.eq_of_live (by decide) hi.merged hj.merged (by rw [hi.extent, hj.extent]) h

/-- What a reader of the heap can tell: its blocks and `heap_used`. -/
structure SameHeap (h h' : Heap) : Prop where
  blocks : h.blocks = h'.blocks
  used : h.heapUsed = h'.heapUsed

theorem HeapInv.sameHeap (hi : HeapInv S s bs) (hj : HeapInv S t bs) : SameHeap s.heap t.heap :=
  ⟨by rw [hi.blocks_eq, hj.blocks_eq], by rw [hi.used, hj.used]⟩

/-- Freeing distinct live pointers takes just these from the live payloads. -/
theorem run_frees (hi : HeapInv S s bs) {ps : List Nat} (hnd : ps.Nodup)
    (hps : ∀ p ∈ ps, p ∈ s.live) :
    ∃ s' bs', (heapMachine S).Run s (ps.map .kfree) (ps.map fun _ => 0) s' ∧ HeapInv S s' bs' ∧
      BlockList.live headerSize S.addr bs' =
        (BlockList.live headerSize S.addr bs).filter (·.1 ∉ ps) := by
  induction ps generalizing s bs with
  | nil =>
    refine ⟨s, bs, .nil s, hi, ?_⟩
    rw [List.filter_eq_self.mpr fun x _ => by simp]
  | cons p ps ih =>
    obtain ⟨hp, hnd⟩ := List.nodup_cons.mp hnd
    have hlive := hps p List.mem_cons_self
    obtain ⟨n, h', hk, hf⟩ := kfree_cases hi hlive
    have hstep : s.step (.kfree p) = some (0, ⟨h', s.live.erase p⟩) := by
      rw [HeapState.step, hk]
      rfl
    have hps' : ∀ q ∈ ps, q ∈ s.live.erase p := by
      intro q hq
      exact hi.nodup.mem_erase_iff.mpr
        ⟨fun h => hp (h ▸ hq), hps q (List.mem_cons_of_mem _ hq)⟩
    obtain ⟨s', bs', hrun, hi', hl⟩ := ih hf.inv hnd hps'
    refine ⟨s', bs', .cons (.inr hlive) hstep hrun, hi', ?_⟩
    rw [hl, BlockList.coalesce_live, BlockList.live_release (by decide), List.filter_filter]
    apply List.filter_congr
    intro x _
    simp [not_or, Bool.and_comm]

/-! ## A drained heap -/

/-- The pointers that the calls returned. -/
def returnedPtrs : List HeapCall → List Nat → List Nat
  | .kmalloc _ :: es, o :: os => if o = 0 then returnedPtrs es os else o :: returnedPtrs es os
  | .kfree _ :: es, _ :: os => returnedPtrs es os
  | _, _ => []

/-- The pointers that the calls freed. -/
def freedPtrs : List HeapCall → List Nat
  | .kfree p :: es => if p = 0 then freedPtrs es else p :: freedPtrs es
  | .kmalloc _ :: es => freedPtrs es
  | [] => []

/-- A pointer is live as often as it was returned and not freed. -/
theorem run_live {es : List HeapCall} {os : List Nat} (hr : (heapMachine S).Run s es os t)
    (hi : HeapInv S s bs) (p : Nat) :
    t.live.count p + (freedPtrs es).count p = s.live.count p + (returnedPtrs es os).count p := by
  induction hr generalizing bs with
  | nil s => rfl
  | @cons s s₁ s₂ e o es os hl he _ ih =>
    obtain ⟨bs₁, hi₁⟩ := step_inv hi hl he
    have hrest := ih hi₁
    cases e with
    | kmalloc size =>
      obtain ⟨r, _, heq⟩ := Option.map_eq_some_iff.mp he
      cases heq
      simp only [freedPtrs, returnedPtrs]
      by_cases h0 : r.1 = 0
      · simp only [if_pos h0] at hrest ⊢
        exact hrest
      · simp only [if_neg h0, List.count_cons] at hrest ⊢
        omega
    | kfree q =>
      obtain ⟨r, _, heq⟩ := Option.map_eq_some_iff.mp he
      cases heq
      simp only [freedPtrs, returnedPtrs]
      simp only at hrest
      by_cases h0 : q = 0
      · rw [List.erase_of_not_mem fun h => hi.ne_zero h h0] at hrest
        rw [if_pos h0]
        exact hrest
      · have hq : q ∈ s.live := hl.resolve_left h0
        rw [if_neg h0, List.count_cons]
        by_cases hqp : q = p
        · subst hqp
          have hpos := List.count_pos_iff.mpr hq
          rw [List.count_erase_self] at hrest
          simp only [beq_self_eq_true, if_true]
          omega
        · rw [List.count_erase_of_ne (Ne.symm hqp)] at hrest
          simp only [beq_iff_eq, if_neg hqp, Nat.add_zero]
          exact hrest

/-- **A drained heap is a fresh heap.**  Once every pointer returned has been freed, in whatever
order, the heap is the one free block of `memory_init`. -/
theorem drained_fresh (S : HeapStorage) {s₀ s : HeapState} {es : List HeapCall} {os : List Nat}
    (h0 : (heapMachine S).init s₀) (hr : (heapMachine S).Run s₀ es os s)
    (hdrained : (freedPtrs es).Perm (returnedPtrs es os)) :
    s.heap.blocks = some [(S.addr, ⟨262132, true⟩)] ∧ s.heap.heapUsed = 0 ∧
      SameHeap s.heap s₀.heap := by
  obtain ⟨hnil, m, hm⟩ := h0
  obtain ⟨h₀, l₀⟩ := s₀
  simp only at hnil hm
  subst hnil hm
  have hi₀ := memoryInit_inv S m
  obtain ⟨bs, hi⟩ := reach_inv ⟨_, es, os, ⟨rfl, m, rfl⟩, hr⟩
  have hlive : s.live = [] := by
    apply List.eq_nil_iff_forall_not_mem.mpr
    intro p hp
    have hcount := run_live hr hi₀ p
    rw [hdrained.count_eq p] at hcount
    have hpos := List.count_pos_iff.mpr hp
    simp only [List.count_nil] at hcount
    omega
  have hnone : BlockList.live headerSize S.addr bs = [] := by
    apply List.eq_nil_iff_forall_not_mem.mpr
    rintro ⟨p, n⟩ hp
    have := (hi.live p).mpr ⟨n, hp⟩
    rw [hlive] at this
    exact absurd this List.not_mem_nil
  have hbs := BlockList.eq_single_of_live_nil (by decide) hi.merged hnone (by rw [hi.extent]; decide)
  rw [hi.extent] at hbs
  subst hbs
  exact ⟨hi.blocks_eq, hi.used, hi.sameHeap hi₀⟩

/-- The pointer returned first is freed first. -/
theorem drained_fresh_two : ∃ s, (heapMachine lowStorage).Run freshHeap
    [.kmalloc 16, .kmalloc 32, .kfree 1048588, .kfree 1048616] [1048588, 1048616, 0, 0] s ∧
      s.heap.blocks = some [(2 ^ 20, ⟨262132, true⟩)] := by
  obtain ⟨s₂, hr, hlive⟩ := freshHeap_two
  obtain ⟨bs₂, hi₂⟩ := reach_inv (freshHeap_reach.run hr)
  obtain ⟨s, _, hfrees, _⟩ := run_frees hi₂
    (show ([1048588, 1048616] : List Nat).Nodup by decide) (by rw [hlive]; decide)
  have hall := hr.append hfrees
  exact ⟨s, hall, (drained_fresh lowStorage ⟨rfl, clearMem, rfl⟩ hall (by decide)).1⟩

/-! ## Frees in any order -/

/-- Calls on states with the same blocks answer alike and leave the same blocks. -/
theorem step_same (hi : HeapInv S s bs) (hj : HeapInv S t bs) {e : HeapCall} {o : Nat}
    {s' : HeapState} (hl : s.legal e) (he : s.step e = some (o, s')) :
    t.legal e ∧ ∃ t' bs', t.step e = some (o, t') ∧ HeapInv S s' bs' ∧ HeapInv S t' bs' := by
  cases e with
  | kmalloc size =>
    refine ⟨hl, ?_⟩
    simp only [HeapState.step] at he ⊢
    rcases kmalloc_cases hi size with ⟨hk, hno⟩ | ⟨h0, q, h', bs', hk, hm⟩
    · rcases kmalloc_cases hj size with ⟨hk', _⟩ | ⟨h0, q, h', bs', hk', hm⟩
      · rw [hk] at he
        cases he
        rw [hk']
        exact ⟨_, bs, rfl, hi, hj⟩
      · rw [hm.alloc] at hno
        exact absurd hno (by simp [h0])
    · rcases kmalloc_cases hj size with ⟨_, hno⟩ | ⟨_, q', h'', bs'', hk', hm'⟩
      · rw [hm.alloc] at hno
        exact absurd hno (by simp [h0])
      · have hsame := hm.alloc.symm.trans hm'.alloc
        cases hsame
        rw [hk] at he
        simp only [Option.map_some, if_neg hm.ne_zero] at he
        cases he
        rw [hk']
        simp only [Option.map_some, if_neg hm.ne_zero]
        exact ⟨_, bs', rfl, hm.inv, hm'.inv⟩
  | kfree p =>
    simp only [HeapState.step] at he ⊢
    rcases hl with rfl | hp
    · rw [kfree_zero] at he ⊢
      cases he
      rw [List.erase_of_not_mem fun h => hi.ne_zero h rfl,
        List.erase_of_not_mem fun h => hj.ne_zero h rfl]
      exact ⟨.inl rfl, _, bs, rfl, hi, hj⟩
    · have hp' : p ∈ t.live := (hj.live p).mpr ((hi.live p).mp hp)
      obtain ⟨n, h', hk, hf⟩ := kfree_cases hi hp
      obtain ⟨n', h'', hk', hf'⟩ := kfree_cases hj hp'
      rw [hk] at he
      cases he
      rw [hk']
      exact ⟨.inr hp', _, _, rfl, hf.inv, hf'.inv⟩

/-- **Order of frees.**  Distinct live pointers may be freed in any order: the heap is the same
afterwards, and all later calls answer the same and leave the same. -/
theorem frees_anyOrder (S : HeapStorage) (s : HeapState) (hs : (heapMachine S).Reach s)
    {ps qs : List Nat} (hnd : ps.Nodup) (hps : ∀ p ∈ ps, p ∈ s.live) (hperm : qs.Perm ps) :
    ∃ s₁ s₂, (heapMachine S).Run s (ps.map .kfree) (ps.map fun _ => 0) s₁ ∧
      (heapMachine S).Run s (qs.map .kfree) (qs.map fun _ => 0) s₂ ∧ SameHeap s₁.heap s₂.heap ∧
      ∀ es os t₁, (heapMachine S).Run s₁ es os t₁ →
        ∃ t₂, (heapMachine S).Run s₂ es os t₂ ∧ SameHeap t₁.heap t₂.heap := by
  obtain ⟨bs, hi⟩ := reach_inv hs
  obtain ⟨s₁, bs₁, hr₁, hi₁, hl₁⟩ := run_frees hi hnd hps
  obtain ⟨s₂, bs₂, hr₂, hi₂, hl₂⟩ := run_frees hi (hperm.nodup_iff.mpr hnd)
    fun p hp => hps p (hperm.mem_iff.mp hp)
  have hbs : bs₁ = bs₂ := by
    apply hi₁.eq_of_live hi₂
    rw [hl₁, hl₂]
    apply List.filter_congr
    intro x _
    simp only [hperm.mem_iff]
  subst hbs
  refine ⟨s₁, s₂, hr₁, hr₂, hi₁.sameHeap hi₂, ?_⟩
  intro es os t₁ hr
  have hstep : ∀ s t e o s', (∃ bs, HeapInv S s bs ∧ HeapInv S t bs) → (heapMachine S).legal s e →
      (heapMachine S).step s e = some (o, s') → (heapMachine S).legal t e ∧
        ∃ t', (heapMachine S).step t e = some (o, t') ∧ ∃ bs, HeapInv S s' bs ∧ HeapInv S t' bs := by
    rintro s t e o s' ⟨bs, hi, hj⟩ hl he
    obtain ⟨hl', t', bs', he', hi', hj'⟩ := step_same hi hj hl he
    exact ⟨hl', t', he', bs', hi', hj'⟩
  obtain ⟨t₂, hr', bs', hi', hj'⟩ := hr.simulate hstep ⟨bs₁, hi₁, hi₂⟩
  exact ⟨t₂, hr', hi'.sameHeap hj'⟩

theorem frees_anyOrder_two : ∃ s s₁ s₂, (heapMachine lowStorage).Reach s ∧
    (heapMachine lowStorage).Run s [.kfree 1048588, .kfree 1048616] [0, 0] s₁ ∧
    (heapMachine lowStorage).Run s [.kfree 1048616, .kfree 1048588] [0, 0] s₂ ∧
      SameHeap s₁.heap s₂.heap := by
  obtain ⟨s, hr, hlive⟩ := freshHeap_two
  have hs := freshHeap_reach.run hr
  obtain ⟨s₁, s₂, h1, h2, hsame, _⟩ := frees_anyOrder lowStorage s hs
    (show ([1048588, 1048616] : List Nat).Nodup by decide) (by rw [hlive]; decide)
    (show ([1048616, 1048588] : List Nat).Perm [1048588, 1048616] by decide)
  exact ⟨s, s₁, s₂, hs, h1, h2, hsame⟩

/-! ## `kfree` after `kmalloc` -/

/-- **`kfree` undoes `kmalloc`**, whether the block was split or not. -/
theorem kfree_undoes (S : HeapStorage) (s : HeapState) (hs : (heapMachine S).Reach s) {n p : Nat}
    {h' : Heap} (hk : kmalloc s.heap n = some (p, h')) (hp : p ≠ 0) :
    ∃ h'', kfree h' p = some h'' ∧ SameHeap h'' s.heap := by
  obtain ⟨bs, hi⟩ := reach_inv hs
  rcases kmalloc_cases hi n with ⟨hk', _⟩ | ⟨_, q, h₁, bs', hk', hm⟩
  · rw [hk'] at hk
    cases hk
    exact absurd rfl hp
  · rw [hk'] at hk
    cases hk
    obtain ⟨_, h'', hf, hfreed⟩ := kfree_cases hm.inv List.mem_cons_self
    have hback := hfreed.inv
    rw [List.erase_cons_head] at hback
    have hbs := hback.eq_of_live hi (by
      rw [BlockList.coalesce_live, BlockList.live_release (by decide),
        BlockList.live_alloc (by decide) hm.alloc])
    rw [hbs] at hback
    exact ⟨h'', hf, hback.sameHeap hi⟩

/-- The hole is filled whole and comes back, and so does the front of the last block. -/
theorem kfree_undoes_hole : ∃ s, (heapMachine lowStorage).Reach s ∧ s.live = [1048616] ∧
    (∃ h' h'', kmalloc s.heap 16 = some (1048588, h') ∧ kfree h' 1048588 = some h'' ∧
      SameHeap h'' s.heap) ∧
    ∃ h' h'', kmalloc s.heap 100 = some (1048660, h') ∧ kfree h' 1048660 = some h'' ∧
      SameHeap h'' s.heap := by
  obtain ⟨s, hs, hlive, hhole, hlast⟩ := freshHeap_hole
  obtain ⟨⟨p, h'⟩, hk, rfl⟩ := Option.map_eq_some_iff.mp hhole
  obtain ⟨⟨q, g'⟩, hg, rfl⟩ := Option.map_eq_some_iff.mp hlast
  obtain ⟨h'', hf, hsame⟩ := kfree_undoes lowStorage s hs hk (by decide)
  obtain ⟨g'', hf', hsame'⟩ := kfree_undoes lowStorage s hs hg (by decide)
  exact ⟨s, hs, hlive, ⟨h', h'', hk, hf, hsame⟩, g', g'', hg, hf', hsame'⟩

end MiniOS
