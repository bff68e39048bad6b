import MiniOS.Memory.Heap

/-!
# The linked headers are a block list

`Linked m p a bs`: the pointer `p` leads to the headers of the blocks `bs`,
laid out end to end from address `a`, the last `next` being `NULL`.  On memory
that is `Linked`, the loops of `kmalloc` and `kfree` are the list functions:

    kmalloc search  =  BlockList.alloc                     (kmallocLoop_spec)
    hdr->free = 1   =  BlockList.release                   (linked_release)
    kfree merging   =  BlockList.coalesceFrom              (kfreeLoop_spec)

and every byte they store to lies in a block that is free at the time.
-/

namespace MiniOS

open Lib Lib.Mem

/-- `p` leads to the headers of `bs`, laid end to end from `a`. -/
def Linked (m : Mem) : Nat → Nat → List Block → Prop
  | p, _, [] => p = 0
  | p, a, b :: bs =>
    p = a ∧ hdrSize m a = b.size ∧ hdrFree m a = (if b.free then 1 else 0) ∧
      Linked m (hdrNext m a) (a + headerSize + b.size) bs

/-- Byte `x` belongs to a free block, header included. -/
def InFree (a : Nat) (bs : List Block) (x : Nat) : Prop :=
  ∃ y b, (y, b) ∈ BlockList.located headerSize a bs ∧ b.free = true ∧
    y ≤ x ∧ x < y + headerSize + b.size

theorem InFree.bounds {a x : Nat} {bs : List Block} (h : InFree a bs x) :
    a ≤ x ∧ x < a + BlockList.extent headerSize bs := by
  obtain ⟨y, b, hy, -, h1, h2⟩ := h
  have := BlockList.located_bounds hy
  omega

theorem InFree.tail {a x : Nat} {b : Block} {bs : List Block}
    (h : InFree (a + headerSize + b.size) bs x) : InFree a (b :: bs) x := by
  obtain ⟨y, c, hy, hc⟩ := h
  exact ⟨y, c, List.mem_cons_of_mem _ hy, hc⟩

/-- No byte of a payload in use belongs to a free block. -/
theorem InFree.not_live {a x p s : Nat} {bs : List Block} (h : InFree a bs x)
    (hp : (p, s) ∈ BlockList.live headerSize a bs) : ¬ (p ≤ x ∧ x < p + s) := by
  obtain ⟨y, b, hy, hb, h1, h2⟩ := h
  have := BlockList.live_free_disjoint hy hb hp
  omega

/-! ## Frames -/

/-- The links read only the headers. -/
theorem Linked.congr {m m' : Mem} {p a : Nat} {bs : List Block} (h : Linked m p a bs)
    (hm : ∀ x, a ≤ x → x < a + BlockList.extent headerSize bs → m'.byte x = m.byte x) :
    Linked m' p a bs := by
  induction bs generalizing p a with
  | nil => exact h
  | cons b bs ih =>
    obtain ⟨hp, hs, hf, hn⟩ := h
    simp only [BlockList.extent, headerSize] at hm
    have e1 : hdrSize m' a = hdrSize m a := load32_congr fun x h1 h2 => hm x (by omega) (by omega)
    have e2 : hdrFree m' a = hdrFree m a := load32_congr fun x h1 h2 => hm x (by omega) (by omega)
    have e3 : hdrNext m' a = hdrNext m a := load32_congr fun x h1 h2 => hm x (by omega) (by omega)
    refine ⟨hp, by rw [e1, hs], by rw [e2, hf], ?_⟩
    rw [e3]
    apply ih hn
    simp only [headerSize]
    intro x h1 h2
    exact hm x (by omega) (by omega)

/-- Stores below the first block leave the links alone. -/
theorem Linked.frame {m m' : Mem} {P : Nat → Prop} {p a : Nat} {bs : List Block}
    (h : Linked m p a bs) (ht : Touches P m m') (hP : ∀ x, P x → x < a) : Linked m' p a bs :=
  h.congr fun x h1 _ => ht.bytes x fun hp => absurd (hP x hp) (by omega)

theorem Linked.next_eq {m : Mem} {p a : Nat} {bs : List Block} (h : Linked m p a bs) :
    p = if bs = [] then 0 else a := by
  cases bs with
  | nil => exact h
  | cons b bs => exact h.1

/-! ## Walking -/

theorem walk_of_linked {m : Mem} {n p a : Nat} {bs : List Block} (h : Linked m p a bs)
    (ha : 0 < a) (hn : bs.length < n) : walk m n p = some (BlockList.located headerSize a bs) := by
  induction bs generalizing n p a with
  | nil =>
    obtain ⟨n, rfl⟩ : ∃ k, n = k + 1 := ⟨n - 1, by simp at hn; omega⟩
    have hp : p = 0 := h
    rw [walk, if_pos hp]
    rfl
  | cons b bs ih =>
    obtain ⟨n, rfl⟩ : ∃ k, n = k + 1 := ⟨n - 1, by simp at hn; omega⟩
    obtain ⟨rfl, hs, hf, hnx⟩ := h
    have hfree : (hdrFree m p != 0) = b.free := by
      rw [hf]
      cases b.free <;> rfl
    rw [walk, if_neg (by omega), ih hnx (by omega) (by simpa using hn), hs, hfree]
    rfl

/-- The headers hold what the block list says. -/
theorem Linked.hdr_eq {m : Mem} {p a x : Nat} {bs : List Block} {b : Block} (h : Linked m p a bs)
    (hx : (x, b) ∈ BlockList.located headerSize a bs) :
    hdrSize m x = b.size ∧
      hdrNext m x = if x + headerSize + b.size = a + BlockList.extent headerSize bs then 0
        else x + headerSize + b.size := by
  have hH : headerSize = 12 := rfl
  induction bs generalizing p a with
  | nil => simp [BlockList.located] at hx
  | cons c cs ih =>
    obtain ⟨rfl, hs, -, hn⟩ := h
    have hext : BlockList.extent headerSize (c :: cs) =
        headerSize + c.size + BlockList.extent headerSize cs := rfl
    simp only [BlockList.located, List.mem_cons] at hx
    rcases hx with hx | hx
    · cases hx
      refine ⟨hs, ?_⟩
      rw [hn.next_eq]
      cases cs with
      | nil =>
        have h0 : BlockList.extent headerSize [] = 0 := rfl
        rw [if_pos rfl, if_pos (by omega)]
      | cons d ds =>
        have hpos : BlockList.extent headerSize (d :: ds) =
          headerSize + d.size + BlockList.extent headerSize ds := rfl
        rw [if_neg (by simp), if_neg (by omega)]
    · obtain ⟨h1, h2⟩ := ih hn hx
      refine ⟨h1, ?_⟩
      have e : p + headerSize + c.size + BlockList.extent headerSize cs =
          p + BlockList.extent headerSize (c :: cs) := by omega
      rw [h2, e]

/-! ## `kmalloc` -/

theorem takeBlock_heapUsed (h : Heap) (n a : Nat) :
    (takeBlock h n a).heapUsed =
      u32 (h.heapUsed + (hdrSize (takeBlock h n a).mem a + headerSize)) := rfl

/-- `takeBlock` when the rest is large enough for a block of its own. -/
theorem takeBlock_split {h : Heap} {a n : Nat} {b : Block} {bs : List Block}
    (hl : Linked h.mem a a (b :: bs)) (hn : headerSize + alignBytes ≤ b.size - n)
    (hb : a + headerSize + b.size ≤ 2 ^ 32) :
    Linked (takeBlock h n a).mem a a (⟨n, false⟩ :: ⟨b.size - n - headerSize, true⟩ :: bs) ∧
      (takeBlock h n a).heapUsed = u32 (h.heapUsed + (n + headerSize)) ∧
      Touches (fun x => a ≤ x ∧ x < a + headerSize + b.size) h.mem (takeBlock h n a).mem := by
  have hH : headerSize = 12 := rfl
  have hA : alignBytes = 8 := rfl
  obtain ⟨-, hs, -, hnx⟩ := hl
  have hlt := load32_lt h.mem (a + 8)
  -- the five stores of the split, then `cur->free = 0`
  have hmem : (takeBlock h n a).mem = setFree (setNext (setSize (setNext (setFree (setSize h.mem
      (a + headerSize + n) (b.size - n - headerSize)) (a + headerSize + n) 1)
      (a + headerSize + n) (hdrNext h.mem a)) a n) a (a + headerSize + n)) a 0 := by
    unfold takeBlock
    simp only [hs, if_pos hn, setSize, setFree, hdrNext]
    simp (disch := omega) only [load32_store32_disjoint]
  have ht : Touches (fun x => a ≤ x ∧ x < a + headerSize + b.size) h.mem (takeBlock h n a).mem := by
    rw [hmem]
    refine Touches.store32 (Touches.store32 (Touches.store32 (Touches.store32 (Touches.store32
      (Touches.store32 (Touches.refl _ _) ?_) ?_) ?_) ?_) ?_) ?_ <;> intro x h1 h2 <;> omega
  have hrest := hnx.congr fun x h1 _ => ht.bytes x (by omega)
  have enext : hdrNext (takeBlock h n a).mem a = a + headerSize + n := by
    rw [hmem]
    unfold hdrNext setFree setNext
    simp (disch := omega) only [load32_store32, load32_store32_disjoint]
  have enext' : hdrNext (takeBlock h n a).mem (a + headerSize + n) = hdrNext h.mem a := by
    rw [hmem]
    unfold hdrNext setFree setNext setSize
    simp (disch := omega) only [load32_store32, load32_store32_disjoint]
  have esize : hdrSize (takeBlock h n a).mem a = n := by
    rw [hmem]
    unfold hdrSize setFree setNext setSize
    simp (disch := omega) only [load32_store32, load32_store32_disjoint]
  refine ⟨⟨rfl, esize, ?_, ?_⟩, ?_, ht⟩
  · rw [hmem]
    exact load32_store32 _ _ _ (by omega)
  · rw [enext]
    refine ⟨rfl, ?_, ?_, ?_⟩
    · rw [hmem]
      unfold hdrSize setFree setNext setSize
      simp (disch := omega) only [load32_store32, load32_store32_disjoint]
    · rw [hmem]
      unfold hdrFree setFree setNext setSize
      simp (disch := omega) only [load32_store32, load32_store32_disjoint]
      rfl
    · rw [enext']
      have e : a + headerSize + n + headerSize + (b.size - n - headerSize) =
          a + headerSize + b.size := by omega
      simp only [e]
      exact hrest
  · rw [takeBlock_heapUsed, esize]

/-- `takeBlock` when the block is taken whole. -/
theorem takeBlock_whole {h : Heap} {a n : Nat} {b : Block} {bs : List Block}
    (hl : Linked h.mem a a (b :: bs)) (hn : ¬ headerSize + alignBytes ≤ b.size - n) :
    Linked (takeBlock h n a).mem a a (⟨b.size, false⟩ :: bs) ∧
      (takeBlock h n a).heapUsed = u32 (h.heapUsed + (b.size + headerSize)) ∧
      Touches (fun x => a ≤ x ∧ x < a + headerSize + b.size) h.mem (takeBlock h n a).mem := by
  have hH : headerSize = 12 := rfl
  obtain ⟨-, hs, -, hnx⟩ := hl
  have hmem : (takeBlock h n a).mem = setFree h.mem a 0 := by
    unfold takeBlock
    simp only [hs, if_neg hn]
  have ht : Touches (fun x => a ≤ x ∧ x < a + headerSize + b.size) h.mem (takeBlock h n a).mem := by
    rw [hmem]
    apply touches_store32
    intro x h1 h2
    omega
  have hrest := hnx.congr fun x h1 _ => ht.bytes x (by omega)
  have esize : hdrSize (takeBlock h n a).mem a = b.size := by
    rw [hmem, ← hs]
    exact load32_store32_disjoint _ _ _ _ (by omega)
  refine ⟨⟨rfl, esize, ?_, ?_⟩, ?_, ht⟩
  · rw [hmem]
    exact load32_store32 _ _ _ (by omega)
  · have enext : hdrNext (takeBlock h n a).mem a = hdrNext h.mem a := by
      rw [hmem]
      exact load32_store32_disjoint _ _ _ _ (by omega)
    rw [enext]
    exact hrest
  · rw [takeBlock_heapUsed, esize]

/-- The heap after a successful search, next to the block list after `alloc`. -/
structure Took (h : Heap) (a : Nat) (bs bs' : List Block) (h' : Heap) : Prop where
  linked : Linked h'.mem a a bs'
  head_eq : h'.heapHead = h.heapHead
  used_eq : ∃ s, BlockList.used headerSize bs' = BlockList.used headerSize bs + (s + headerSize) ∧
    h'.heapUsed = u32 (h.heapUsed + (s + headerSize))
  touches : Touches (InFree a bs) h.mem h'.mem

theorem takeBlock_took {h : Heap} {a n : Nat} {b : Block} {bs : List Block}
    (hl : Linked h.mem a a (b :: bs)) (hfree : b.free = true)
    (hb : a + BlockList.extent headerSize (b :: bs) ≤ 2 ^ 32) :
    Took h a (b :: bs)
      (if headerSize + alignBytes ≤ b.size - n
        then ⟨n, false⟩ :: ⟨b.size - n - headerSize, true⟩ :: bs else ⟨b.size, false⟩ :: bs)
      (takeBlock h n a) := by
  simp only [BlockList.extent] at hb
  have hin : ∀ x, a ≤ x ∧ x < a + headerSize + b.size → InFree a (b :: bs) x :=
    fun x hx => ⟨a, b, List.mem_cons_self, hfree, hx.1, hx.2⟩
  by_cases hsplit : headerSize + alignBytes ≤ b.size - n
  · rw [if_pos hsplit]
    obtain ⟨h1, h2, h3⟩ := takeBlock_split hl hsplit (by omega)
    refine ⟨h1, rfl, ⟨n, ?_, h2⟩, h3.mono hin⟩
    simp only [BlockList.used, hfree, if_true, Bool.false_eq_true, if_false]
    omega
  · rw [if_neg hsplit]
    obtain ⟨h1, h2, h3⟩ := takeBlock_whole hl hsplit
    refine ⟨h1, rfl, ⟨b.size, ?_, h2⟩, h3.mono hin⟩
    simp only [BlockList.used, hfree, if_true, Bool.false_eq_true, if_false]
    omega

/-- A block that the search passes keeps its place in front of the list. -/
theorem Took.cons {h h' : Heap} {a : Nat} {b : Block} {bs bs' : List Block}
    (hl : Linked h.mem a a (b :: bs)) (hp : hdrNext h.mem a = a + headerSize + b.size)
    (ht : Took h (a + headerSize + b.size) bs bs' h') : Took h a (b :: bs) (b :: bs') h' := by
  have hH : headerSize = 12 := rfl
  obtain ⟨-, hs, hf, -⟩ := hl
  obtain ⟨s, hu, hu'⟩ := ht.used_eq
  have hout : ∀ x, a ≤ x → x < a + 12 → ¬ InFree (a + headerSize + b.size) bs x := by
    intro x _ h2 hx
    have := hx.bounds
    omega
  have e1 : hdrSize h'.mem a = hdrSize h.mem a :=
    ht.touches.load32_eq a fun x h1 h2 => hout x (by omega) (by omega)
  have e2 : hdrFree h'.mem a = hdrFree h.mem a :=
    ht.touches.load32_eq (a + 4) fun x h1 h2 => hout x (by omega) (by omega)
  have e3 : hdrNext h'.mem a = hdrNext h.mem a :=
    ht.touches.load32_eq (a + 8) fun x h1 h2 => hout x (by omega) (by omega)
  refine ⟨⟨rfl, by rw [e1, hs], by rw [e2, hf], ?_⟩, ht.head_eq, ⟨s, ?_, hu'⟩,
    ht.touches.mono fun x hx => hx.tail⟩
  · rw [e3, hp]
    exact ht.linked
  · simp only [BlockList.used, hu]
    omega

/-- **The search of `kmalloc` is first fit.** -/
theorem kmallocLoop_spec (h : Heap) (n : Nat) {fuel p a : Nat} {bs : List Block}
    (hl : Linked h.mem p a bs) (ha : 0 < a)
    (hb : a + BlockList.extent headerSize bs ≤ 2 ^ 32) (hf : bs.length < fuel) :
    match BlockList.alloc headerSize alignBytes n a bs with
    | none => loop (kmallocBody h n) fuel p = some (0, h)
    | some (q, bs') => ∃ h', loop (kmallocBody h n) fuel p = some (q, h') ∧ Took h a bs bs' h' := by
  obtain ⟨fuel, rfl⟩ : ∃ k, fuel = k + 1 := ⟨fuel - 1, by omega⟩
  induction bs generalizing fuel p a with
  | nil =>
    have hp : p = 0 := hl
    simp only [BlockList.alloc]
    exact loop_done (by rw [kmallocBody, if_pos hp]) fuel
  | cons b bs ih =>
    have hl' := hl
    obtain ⟨rfl, hs, hfr, hnx⟩ := hl
    have hfit : (hdrFree h.mem p ≠ 0 ∧ n ≤ hdrSize h.mem p) ↔ (b.free = true ∧ n ≤ b.size) := by
      rw [hs, hfr]
      cases b.free <;> simp
    simp only [BlockList.alloc]
    by_cases hc : b.free = true ∧ n ≤ b.size
    · -- the block at `p` is the first that fits
      have hbody : kmallocBody h n p = .inr (p + headerSize, takeBlock h n p) := by
        rw [kmallocBody, if_neg (by omega), if_pos (hfit.mpr hc)]
      have ht := takeBlock_took (n := n) hl' hc.1 hb
      rw [if_pos hc]
      split <;> rename_i hsplit
      · split at hsplit <;> cases hsplit
      · split at hsplit <;> rename_i hlo <;> cases hsplit
        · rw [if_pos hlo] at ht
          exact ⟨_, loop_done hbody fuel, ht⟩
        · rw [if_neg hlo] at ht
          exact ⟨_, loop_done hbody fuel, ht⟩
    · have hbody : kmallocBody h n p = .inl (hdrNext h.mem p) := by
        rw [kmallocBody, if_neg (by omega), if_neg fun hh => hc (hfit.mp hh)]
      simp only [List.length_cons] at hf
      simp only [BlockList.extent] at hb
      have hrest := ih hnx (by omega) (by omega) (fuel - 1) (by omega)
      rw [show fuel - 1 + 1 = fuel by omega] at hrest
      rw [if_neg hc, loop_next hbody]
      cases hr : BlockList.alloc headerSize alignBytes n (p + headerSize + b.size) bs with
      | none =>
        rw [hr] at hrest
        exact hrest
      | some r =>
        rw [hr] at hrest
        obtain ⟨h', hloop, ht⟩ := hrest
        refine ⟨h', hloop, ht.cons hl' ?_⟩
        have := hnx.next_eq
        split at this
        · rename_i hnil
          subst hnil
          simp [BlockList.alloc] at hr
        · exact this

/-! ## `kfree` -/

/-- `hdr->free = 1` on the block of a payload in use. -/
theorem linked_release {m : Mem} {q a p s : Nat} {bs : List Block} (hl : Linked m q a bs)
    (hp : (p, s) ∈ BlockList.live headerSize a bs) :
    Linked (setFree m (p - headerSize) 1) q a (BlockList.release headerSize p a bs) := by
  have hH : headerSize = 12 := rfl
  induction bs generalizing q a with
  | nil => simp [BlockList.live] at hp
  | cons b bs ih =>
    obtain ⟨rfl, hs, hf, hnx⟩ := hl
    have ht : Touches (fun x => p - headerSize ≤ x ∧ x < p) m (setFree m (p - headerSize) 1) := by
      obtain ⟨hle, -⟩ := BlockList.located_of_mem_live hp
      apply touches_store32
      intro x h1 h2
      omega
    simp only [BlockList.release]
    by_cases hq : q + headerSize = p
    · rw [if_pos hq]
      subst hq
      rw [Nat.add_sub_cancel] at ht ⊢
      have e1 : hdrSize (setFree m q 1) q = hdrSize m q :=
        load32_store32_disjoint _ _ _ _ (by omega)
      have e3 : hdrNext (setFree m q 1) q = hdrNext m q :=
        load32_store32_disjoint _ _ _ _ (by omega)
      refine ⟨rfl, by rw [e1, hs], load32_store32 _ _ _ (by omega), ?_⟩
      rw [e3]
      exact hnx.frame ht fun x hx => by omega
    · rw [if_neg hq]
      have hp' : (p, s) ∈ BlockList.live headerSize (q + headerSize + b.size) bs := by
        simp only [BlockList.live] at hp
        split at hp
        · exact hp
        · rcases List.mem_cons.mp hp with hp | hp
          · exact absurd (congrArg Prod.fst hp).symm hq
          · exact hp
      have hbd := BlockList.live_bounds hp'
      have e1 : hdrSize (setFree m (p - headerSize) 1) q = hdrSize m q :=
        ht.load32_eq q fun x h1 h2 => by omega
      have e2 : hdrFree (setFree m (p - headerSize) 1) q = hdrFree m q :=
        ht.load32_eq (q + 4) fun x h1 h2 => by omega
      have e3 : hdrNext (setFree m (p - headerSize) 1) q = hdrNext m q :=
        ht.load32_eq (q + 8) fun x h1 h2 => by omega
      refine ⟨rfl, by rw [e1, hs], by rw [e2, hf], ?_⟩
      rw [e3]
      exact ih hnx hp'

/-- The two stores of a merge turn two free blocks into one. -/
theorem merge_linked {m : Mem} {a : Nat} {b c : Block} {cs : List Block}
    (hl : Linked m a a (b :: c :: cs)) (hb : b.free = true)
    (hle : a + BlockList.extent headerSize (b :: c :: cs) ≤ 2 ^ 32) :
    let m' := setNext (setSize m a (b.size + (headerSize + c.size))) a
      (hdrNext m (a + headerSize + b.size))
    Linked m' a a (⟨b.size + (headerSize + c.size), true⟩ :: cs) ∧
      Touches (fun x => a ≤ x ∧ x < a + headerSize) m m' := by
  have hH : headerSize = 12 := rfl
  obtain ⟨-, hs, hf, hnx⟩ := hl
  have hn : hdrNext m a = a + headerSize + b.size := hnx.1
  obtain ⟨-, hsc, hfc, hnc⟩ := hnx
  simp only [BlockList.extent] at hle
  intro m'
  have ht : Touches (fun x => a ≤ x ∧ x < a + headerSize) m m' := by
    refine Touches.store32 (Touches.store32 (Touches.refl _ _) ?_) ?_ <;> intro x h1 h2 <;> omega
  have hlt := load32_lt m (a + headerSize + b.size + 8)
  have e1 : hdrSize m' a = b.size + (headerSize + c.size) := by
    show (setNext (setSize m a _) a _).load32 a = _
    unfold setNext setSize
    rw [load32_store32_disjoint _ _ _ _ (by omega), load32_store32 _ _ _ (by omega)]
  have e2 : hdrFree m' a = hdrFree m a := by
    show (setNext (setSize m a _) a _).load32 (a + 4) = _
    unfold setNext setSize
    rw [load32_store32_disjoint _ _ _ _ (by omega), load32_store32_disjoint _ _ _ _ (by omega)]
    rfl
  have e3 : hdrNext m' a = hdrNext m (a + headerSize + b.size) := load32_store32 _ _ _ hlt
  refine ⟨⟨rfl, e1, ?_, ?_⟩, ht⟩
  · rw [e2, hf, hb]
  · rw [e3]
    have e : a + headerSize + (b.size + (headerSize + c.size)) =
        a + headerSize + b.size + headerSize + c.size := by omega
    simp only [e]
    exact hnc.frame ht fun x hx => by omega

theorem kfreeBody_merge {m : Mem} {a : Nat} {b c : Block} {cs : List Block}
    (hl : Linked m a a (b :: c :: cs)) (ha : 0 < a) (hf : b.free = true ∧ c.free = true)
    (hle : a + BlockList.extent headerSize (b :: c :: cs) ≤ 2 ^ 32) :
    kfreeBody (m, a) = .inl (setNext (setSize m a (b.size + (headerSize + c.size))) a
      (hdrNext m (a + headerSize + b.size)), a) := by
  have hH : headerSize = 12 := rfl
  obtain ⟨-, hs, hfr, hnx⟩ := hl
  have hn : hdrNext m a = a + headerSize + b.size := hnx.1
  obtain ⟨-, hsc, hfc, -⟩ := hnx
  simp only [BlockList.extent] at hle
  have hw : u32 (b.size + (headerSize + c.size)) = b.size + (headerSize + c.size) :=
    Nat.mod_eq_of_lt (by omega)
  have e1 : hdrNext (setSize m a (b.size + (headerSize + c.size))) a = a + headerSize + b.size :=
    (load32_store32_disjoint _ _ _ _ (by omega)).trans hn
  have e2 : hdrNext (setSize m a (b.size + (headerSize + c.size))) (a + headerSize + b.size) =
      hdrNext m (a + headerSize + b.size) :=
    load32_store32_disjoint _ _ _ _ (by omega)
  have hfree : hdrFree m a ≠ 0 ∧ hdrFree m (a + headerSize + b.size) ≠ 0 := by
    rw [hfr, hfc, if_pos hf.1, if_pos hf.2]
    omega
  simp only [kfreeBody, hn]
  rw [if_neg (by omega), if_pos hfree, hs, hsc, hw, e1, e2]

/-- The bytes of a merged block are those of the two free blocks it replaces. -/
theorem InFree.merge {a x : Nat} {b c : Block} {cs : List Block}
    (h : InFree a (⟨b.size + (headerSize + c.size), true⟩ :: cs) x)
    (hf : b.free = true ∧ c.free = true) : InFree a (b :: c :: cs) x := by
  obtain ⟨y, d, hy, hd, h1, h2⟩ := h
  simp only [BlockList.located, List.mem_cons] at hy
  rcases hy with hy | hy
  · cases hy
    by_cases hx : x < a + headerSize + b.size
    · exact ⟨a, b, List.mem_cons_self, hf.1, h1, hx⟩
    · refine ⟨a + headerSize + b.size, c, List.mem_cons_of_mem _ List.mem_cons_self, hf.2,
        by omega, ?_⟩
      simp only at h2
      omega
  · have e : a + headerSize + (b.size + (headerSize + c.size)) =
        a + headerSize + b.size + headerSize + c.size := by omega
    rw [e] at hy
    exact ⟨y, d, List.mem_cons_of_mem _ (List.mem_cons_of_mem _ hy), hd, h1, h2⟩

/-- **The merging loop of `kfree` coalesces.** -/
theorem kfreeLoop_spec {m : Mem} {fuel a : Nat} {b : Block} {bs : List Block}
    (hl : Linked m a a (b :: bs)) (ha : 0 < a)
    (hb : a + BlockList.extent headerSize (b :: bs) ≤ 2 ^ 32) (hf : bs.length < fuel) :
    ∃ m', loop kfreeBody fuel (m, a) = some m' ∧
      Linked m' a a (BlockList.coalesceFrom headerSize b bs) ∧
      Touches (InFree a (b :: bs)) m m' := by
  have hH : headerSize = 12 := rfl
  obtain ⟨fuel, rfl⟩ : ∃ k, fuel = k + 1 := ⟨fuel - 1, by omega⟩
  induction bs generalizing fuel m a b with
  | nil =>
    have hn : hdrNext m a = 0 := hl.2.2.2
    refine ⟨m, loop_done ?_ fuel, hl, Touches.refl _ _⟩
    simp only [kfreeBody]
    rw [if_pos (Or.inr hn)]
  | cons c cs ih =>
    have hl' := hl
    obtain ⟨-, hs, hfr, hnx⟩ := hl
    have hn : hdrNext m a = a + headerSize + b.size := hnx.1
    have hlc : Linked m (a + headerSize + b.size) (a + headerSize + b.size) (c :: cs) := by
      rw [hn] at hnx
      exact hnx
    have hfc := hlc.2.2.1
    simp only [List.length_cons] at hf
    simp only [BlockList.coalesceFrom]
    by_cases hc : b.free = true ∧ c.free = true
    · -- both free: merge, and stay at `a`
      rw [if_pos hc]
      obtain ⟨hlm, htm⟩ := merge_linked hl' hc.1 hb
      have hbody := kfreeBody_merge hl' ha hc hb
      have hb' : a + BlockList.extent headerSize (⟨b.size + (headerSize + c.size), true⟩ :: cs) ≤
          2 ^ 32 := by
        simp only [BlockList.extent] at hb ⊢
        omega
      obtain ⟨m', hloop, hlink, ht⟩ := ih hlm ha hb' (fuel - 1) (by omega)
      rw [show fuel - 1 + 1 = fuel by omega] at hloop
      rw [loop_next hbody]
      refine ⟨m', hloop, hlink, Touches.trans (htm.mono fun x hx => ?_) (ht.mono fun x hx => ?_)⟩
      · exact ⟨a, b, List.mem_cons_self, hc.1, hx.1, by omega⟩
      · exact hx.merge hc
    · rw [if_neg hc]
      have hbody : kfreeBody (m, a) = .inl (m, a + headerSize + b.size) := by
        simp only [kfreeBody, hn]
        rw [if_neg (by omega), if_neg]
        rw [hfr, hfc]
        rintro ⟨h1, h2⟩
        exact hc ⟨by_contra fun h => h1 (if_neg h), by_contra fun h => h2 (if_neg h)⟩
      have hb' : a + headerSize + b.size + BlockList.extent headerSize (c :: cs) ≤ 2 ^ 32 := by
        simp only [BlockList.extent] at hb ⊢
        omega
      obtain ⟨m', hloop, hlink, ht⟩ := ih hlc (by omega) hb' (fuel - 1) (by omega)
      rw [show fuel - 1 + 1 = fuel by omega] at hloop
      rw [loop_next hbody]
      refine ⟨m', hloop, ?_, ht.mono fun x hx => hx.tail⟩
      have hout : ∀ x, x < a + 12 → ¬ InFree (a + headerSize + b.size) (c :: cs) x := by
        intro x h2 hx
        have := hx.bounds
        omega
      have e1 : hdrSize m' a = hdrSize m a :=
        ht.load32_eq a fun x h1 h2 => hout x (by omega)
      have e2 : hdrFree m' a = hdrFree m a :=
        ht.load32_eq (a + 4) fun x h1 h2 => hout x (by omega)
      have e3 : hdrNext m' a = hdrNext m a :=
        ht.load32_eq (a + 8) fun x h1 h2 => hout x (by omega)
      exact ⟨rfl, by rw [e1, hs], by rw [e2, hfr], by rw [e3, hn]; exact hlink⟩

end MiniOS
