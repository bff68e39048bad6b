import MiniOS.Keyboard.Irq

/-!
# The keyboard ring loses nothing

The handler only appends to the pending characters and the reader only removes
the first one, so at every point of every run the characters accepted are the
characters returned followed by the pending ones (`FifoInv`).  An interrupt
between two statements of `keyboard_getchar` may append, but it keeps the first
pending character, which is all the reader has looked at.
-/

namespace MiniOS

open Lib

/-! ## The indices -/

structure KbRing.InBounds (r : KbRing) : Prop where
  head_lt : r.kbHead < 256
  tail_lt : r.kbTail < 256

theorem and_kbBufMask (i : Nat) : i &&& kbBufMask = i % 256 := Nat.and_two_pow_sub_one_eq_mod i 8

theorem KbRing.pending_eq (r : KbRing) :
    r.pending = ringItems 256 r.kbBuf.get r.kbTail r.kbHead := rfl

theorem KbRing.InBounds.length_pending_le {r : KbRing} (h : r.InBounds) : r.pending.length ≤ 255 := by
  rw [r.pending_eq, length_ringItems]
  have := ringCount_lt h.tail_lt h.head_lt
  omega

/-! ## The handler -/

/-- A character is appended, or dropped when 255 are pending. -/
theorem kbEnqueue_spec {k : Keyboard} (hr : k.ring.InBounds) (c : UInt8) :
    ∃ o k', kbEnqueue k c = some (o, k') ∧
      ((o = .accepted c ∧ k'.ring.InBounds ∧ k'.ring.kbTail = k.ring.kbTail ∧
          k'.ring.pending = k.ring.pending ++ [c]) ∨
        (o = .dropped c ∧ k' = k ∧ k.ring.pending.length = 255)) := by
  have hmask := and_kbBufMask (k.ring.kbHead + 1)
  unfold kbEnqueue
  simp only [hmask]
  by_cases hroom : (k.ring.kbHead + 1) % 256 ≠ k.ring.kbTail
  · obtain ⟨b, hput, _⟩ := Chars.put_eq (b := k.ring.kbBuf) (i := k.ring.kbHead) hr.head_lt c
    rw [if_pos hroom, hput]
    refine ⟨_, _, rfl, .inl ⟨rfl, ⟨Nat.mod_lt _ (Nat.zero_lt_succ 255), hr.tail_lt⟩, rfl, ?_⟩⟩
    have hpush := ringItems_push hr.tail_lt hr.head_lt (fun j hj => Chars.get_put_ne hput hj) hroom
    rw [Chars.get_put_self hput] at hpush
    exact hpush
  · have hfull : (k.ring.kbHead + 1) % 256 = k.ring.kbTail := not_not.mp hroom
    rw [if_neg hroom]
    refine ⟨_, _, rfl, .inr ⟨rfl, rfl, ?_⟩⟩
    rw [k.ring.pending_eq, length_ringItems]
    exact ringCount_full hr.tail_lt hr.head_lt hfull

/-- An effect that concerns no character. -/
def IrqEffect.Quiet : IrqEffect → Prop
  | .nothing => True
  | .scroll _ => True
  | .accepted _ => False
  | .dropped _ => False

/-- The handler leaves the ring alone, or ends by storing a character. -/
def LeavesOrEnqueues (k : Keyboard) (r : Option (IrqEffect × Keyboard)) : Prop :=
  (∃ o k', r = some (o, k') ∧ k'.ring = k.ring ∧ o.Quiet) ∨
    ∃ k₁ c, k₁.ring = k.ring ∧ r = kbEnqueue k₁ c

theorem irqExtended_cases (k : Keyboard) (scancode : UInt8) :
    LeavesOrEnqueues k (irqExtended k scancode) := by
  unfold irqExtended
  split
  · split
    · exact .inl ⟨_, _, rfl, rfl, trivial⟩
    · exact .inr ⟨_, _, rfl, rfl⟩
  split
  · split
    · exact .inl ⟨_, _, rfl, rfl, trivial⟩
    · exact .inr ⟨_, _, rfl, rfl⟩
  split
  · exact .inr ⟨_, _, rfl, rfl⟩
  split
  · exact .inr ⟨_, _, rfl, rfl⟩
  split
  · exact .inl ⟨_, _, rfl, rfl, trivial⟩
  split
  · exact .inl ⟨_, _, rfl, rfl, trivial⟩
  · exact .inl ⟨_, _, rfl, rfl, trivial⟩

theorem irqCharacter_cases (k : Keyboard) (scancode : UInt8) :
    LeavesOrEnqueues k (irqCharacter k scancode) := by
  unfold irqCharacter
  by_cases hcode : scancode < 128
  · rw [if_pos hcode]
    simp only
    generalize List.getD (if (k.shiftHeld ^^ k.capslockOn) = true then scancodeMapUpper
      else scancodeMapLower) scancode.toNat 0 = c
    by_cases hc : c = 0
    · exact .inl ⟨_, _, if_pos hc, rfl, trivial⟩
    · exact .inr ⟨_, _, rfl, if_neg hc⟩
  · rw [if_neg hcode]
    exact .inl ⟨_, _, rfl, rfl, trivial⟩

theorem keyboardIrqHandler_cases (k : Keyboard) (scancode : UInt8) :
    LeavesOrEnqueues k (keyboardIrqHandler k scancode) := by
  unfold keyboardIrqHandler
  split
  · exact .inl ⟨_, _, rfl, rfl, trivial⟩
  simp only
  split
  · exact .inl ⟨_, _, rfl, rfl, trivial⟩
  split
  · exact .inl ⟨_, _, rfl, rfl, trivial⟩
  split
  · exact .inl ⟨_, _, rfl, rfl, trivial⟩
  split
  · exact .inl ⟨_, _, rfl, rfl, trivial⟩
  split
  · exact .inl ⟨_, _, rfl, rfl, trivial⟩
  split
  · exact irqExtended_cases { k with e0Mode := false } scancode
  · exact irqCharacter_cases { k with e0Mode := false } scancode

/-- **One interrupt.**  The pending characters stay, gain one that is accepted,
or are 255 and stay. -/
theorem keyboardIrqHandler_spec {k : Keyboard} (hr : k.ring.InBounds) (scancode : UInt8) :
    ∃ o k', keyboardIrqHandler k scancode = some (o, k') ∧ k'.ring.InBounds ∧
      k'.ring.kbTail = k.ring.kbTail ∧
      ((o.Quiet ∧ k'.ring = k.ring) ∨
        (∃ c, o = .accepted c ∧ k'.ring.pending = k.ring.pending ++ [c]) ∨
        ∃ c, o = .dropped c ∧ k'.ring = k.ring ∧ k.ring.pending.length = 255) := by
  rcases keyboardIrqHandler_cases k scancode with ⟨o, k', hk, hring, ho⟩ | ⟨k₁, c, hring, hk⟩
  · refine ⟨o, k', hk, ?_, by rw [hring], .inl ⟨ho, hring⟩⟩
    rw [hring]
    exact hr
  · rw [← hring] at hr
    obtain ⟨o, k', henq, h⟩ := kbEnqueue_spec hr c
    rw [← hring]
    refine ⟨o, k', hk.trans henq, ?_⟩
    rcases h with ⟨ho, hbounds, htail, hpush⟩ | ⟨ho, hk', hfull⟩
    · exact ⟨hbounds, htail, .inr (.inl ⟨c, ho, hpush⟩)⟩
    · rw [hk']
      exact ⟨hr, rfl, .inr (.inr ⟨c, ho, rfl, hfull⟩)⟩

/-! ## The invariant -/

/-- What the reader knows before its next statement. -/
def Knows (r : KbRing) : GetcharAt → Prop
  | .idle => True
  | .test => True
  | .read => r.pending ≠ []
  | .advance c => ∃ rest, r.pending = c :: rest

/-- The answers so far and the state. -/
structure FifoInv (os : List KeyboardOutput) (s : KeyboardState) : Prop where
  bounds : s.dev.ring.InBounds
  conserved : accepted os = returned os ++ s.dev.ring.pending
  reader : Knows s.dev.ring s.pc

/-- More pending characters take nothing from what the reader knows. -/
theorem Knows.append {r r' : KbRing} {pc : GetcharAt} {cs : List UInt8}
    (h : r'.pending = r.pending ++ cs) (hk : Knows r pc) : Knows r' pc := by
  cases pc with
  | idle => trivial
  | test => trivial
  | read =>
    show r'.pending ≠ []
    rw [h]
    exact List.append_ne_nil_of_left_ne_nil hk cs
  | advance c =>
    obtain ⟨rest, hrest⟩ := hk
    exact ⟨rest ++ cs, by rw [h, hrest, List.cons_append]⟩

theorem accepted_snoc (os : List KeyboardOutput) (o : KeyboardOutput) :
    accepted (os ++ [o]) = accepted os ++ o.accepted?.toList := by
  unfold accepted
  rw [List.filterMap_append]
  cases h : o.accepted? <;> simp [h]

theorem returned_snoc (os : List KeyboardOutput) (o : KeyboardOutput) :
    returned (os ++ [o]) = returned os ++ o.returned?.toList := by
  unfold returned
  rw [List.filterMap_append]
  cases h : o.returned? <;> simp [h]

/-- An answer that is neither an accepted nor a returned character. -/
theorem FifoInv.silent {os : List KeyboardOutput} {s s' : KeyboardState} {o : KeyboardOutput}
    (hi : FifoInv os s) (ha : o.accepted? = none) (hr : o.returned? = none)
    (hring : s'.dev.ring = s.dev.ring) (hk : Knows s.dev.ring s'.pc) : FifoInv (os ++ [o]) s' where
  bounds := by rw [hring]; exact hi.bounds
  conserved := by
    rw [accepted_snoc, returned_snoc, ha, hr, hring]
    simpa using hi.conserved
  reader := by rw [hring]; exact hk

theorem irq_fifoInv {os : List KeyboardOutput} {s : KeyboardState} (hi : FifoInv os s)
    {scancode : UInt8} {o : IrqEffect} {k' : Keyboard}
    (h : keyboardIrqHandler s.dev scancode = some (o, k')) :
    FifoInv (os ++ [.irq o]) { s with dev := k' } := by
  obtain ⟨o₁, k₁, hk, hbounds, _, hcases⟩ := keyboardIrqHandler_spec hi.bounds scancode
  rw [h] at hk
  cases hk
  rcases hcases with ⟨hquiet, hring⟩ | ⟨c, rfl, hpush⟩ | ⟨c, rfl, hring, _⟩
  · have ha : (KeyboardOutput.irq o).accepted? = none := by
      cases o with
      | nothing => rfl
      | scroll call => rfl
      | accepted c => exact hquiet.elim
      | dropped c => rfl
    exact hi.silent ha rfl hring hi.reader
  · refine ⟨hbounds, ?_, hi.reader.append hpush⟩
    rw [accepted_snoc, returned_snoc, hi.conserved]
    show _ ++ [c] = _ ++ [] ++ k'.ring.pending
    rw [hpush, List.append_nil, List.append_assoc]
  · exact hi.silent rfl rfl hring hi.reader

theorem getchar_fifoInv {os : List KeyboardOutput} {s : KeyboardState} (hi : FifoInv os s) :
    FifoInv (os ++ [(getcharStatement s).1]) (getcharStatement s).2 := by
  obtain ⟨dev, pc⟩ := s
  have hempty := ringItems_eq_nil_iff hi.bounds.tail_lt hi.bounds.head_lt dev.ring.kbBuf.get
  cases pc with
  | idle => exact hi.silent rfl rfl rfl trivial
  | test =>
    unfold getcharStatement
    by_cases hwait : dev.ring.kbHead = dev.ring.kbTail
    · simp only [if_pos hwait]
      exact hi.silent rfl rfl rfl trivial
    · simp only [if_neg hwait]
      exact hi.silent rfl rfl rfl (fun h => hwait (hempty.mp h))
  | read =>
    have hne : dev.ring.kbHead ≠ dev.ring.kbTail := fun h => hi.reader (hempty.mpr h)
    have hpop := ringItems_pop hi.bounds.tail_lt hi.bounds.head_lt dev.ring.kbBuf.get hne
    exact hi.silent rfl rfl rfl ⟨_, hpop⟩
  | advance c =>
    obtain ⟨rest, hrest⟩ := hi.reader
    have hne : dev.ring.kbHead ≠ dev.ring.kbTail := by
      intro h
      have hnil := hempty.mpr h
      rw [← KbRing.pending_eq] at hnil
      rw [hnil] at hrest
      cases hrest
    have hpop := ringItems_pop hi.bounds.tail_lt hi.bounds.head_lt dev.ring.kbBuf.get hne
    have hconserved := hi.conserved
    unfold getcharStatement
    simp only [and_kbBufMask]
    refine ⟨⟨hi.bounds.head_lt, Nat.mod_lt _ (Nat.zero_lt_succ 255)⟩, ?_, trivial⟩
    rw [accepted_snoc, returned_snoc, hconserved]
    show returned os ++ dev.ring.pending ++ [] = returned os ++ [c] ++ _
    -- the character read two statements ago is still the first one
    have hc : c = dev.ring.kbBuf.get dev.ring.kbTail := by
      rw [KbRing.pending_eq, hpop] at hrest
      exact (List.cons.inj hrest).1.symm
    rw [KbRing.pending_eq, hpop, hc, List.append_nil, List.append_assoc]
    rfl

/-- **One step.** -/
theorem step_fifoInv (os : List KeyboardOutput) (s : KeyboardState) (e : KeyboardEvent)
    (o : KeyboardOutput) (s' : KeyboardState) (hi : FifoInv os s)
    (hs : keyboardMachine.step s e = some (o, s')) : FifoInv (os ++ [o]) s' := by
  cases e with
  | irq scancode =>
    obtain ⟨r, hr, h⟩ := Option.map_eq_some_iff.mp hs
    cases h
    exact irq_fifoInv hi hr
  | call =>
    cases hs
    exact hi.silent rfl rfl rfl trivial
  | statement =>
    have hpair : getcharStatement s = (o, s') := Option.some.inj hs
    have hnext := getchar_fifoInv hi
    rw [hpair] at hnext
    exact hnext

theorem boot_fifoInv : FifoInv [] ⟨Keyboard.boot, .idle⟩ where
  bounds := ⟨Nat.zero_lt_succ 255, Nat.zero_lt_succ 255⟩
  conserved := rfl
  reader := trivial

/-- Nothing stops an interrupt or a statement: every store is within the ring. -/
theorem FifoInv.progress {os : List KeyboardOutput} {s : KeyboardState} (hi : FifoInv os s)
    (e : KeyboardEvent) : ∃ r, keyboardMachine.step s e = some r := by
  cases e with
  | irq scancode =>
    obtain ⟨o, k', hk, _⟩ := keyboardIrqHandler_spec hi.bounds scancode
    refine ⟨(.irq o, { s with dev := k' }), ?_⟩
    show (keyboardIrqHandler s.dev scancode).map _ = _
    rw [hk]
    rfl
  | call => exact ⟨_, rfl⟩
  | statement => exact ⟨_, rfl⟩

end MiniOS
