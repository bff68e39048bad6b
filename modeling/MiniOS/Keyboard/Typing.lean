import MiniOS.Lib.Decoder
import MiniOS.Keyboard.RingFifo
import MiniOS.Keyboard.Shift

/-!
# Typing (`keyboard_irq_handler` in `kernel/keyboard.c`)

But for the ring, the handler is a decoder of scan codes (`keyDecoder`, which
`keyboardIrqHandler_decodes`).  What it decodes is stored as long as there is
room, so the ring is a FIFO of what is typed (`keyboard_fifo`).  `strokes` are the keys to press for a character; pressed one
after the other they are decoded to what was to be typed, and the reader gets it
(`typing_arrives`).
-/

namespace MiniOS

open Lib

/-! ## The handler as a decoder -/

/-- The statics of the driver but for the ring. -/
structure KeyMods where
  e0 : Bool
  shift : Bool
  caps : Bool
  num : Bool
deriving DecidableEq

def Keyboard.mods (k : Keyboard) : KeyMods := ⟨k.e0Mode, k.shiftHeld, k.capslockOn, k.numlockOn⟩

/-- The character of a key that has one. -/
def keyLayout (upper : Bool) (scancode : UInt8) : Option UInt8 :=
  let c := (if upper then scancodeMapUpper else scancodeMapLower).getD scancode.toNat 0
  if c = 0 then none else some c

/-- The key code of an arrow; with Shift, Up and Down scroll. -/
def arrow (shift : Bool) (scancode : UInt8) : Option UInt8 :=
  if scancode = 0x48 then if shift then none else some keyUpArrow
  else if scancode = 0x50 then if shift then none else some keyDownArrow
  else if scancode = 0x4B then some keyLeftArrow
  else if scancode = 0x4D then some keyRightArrow
  else none

/-- The keys of the number pad that move something without Num Lock. -/
def navKey (scancode : UInt8) : Prop :=
  0x47 ≤ scancode ∧ scancode ≤ 0x53 ∧ scancode ≠ 0x4A ∧ scancode ≠ 0x4E

instance (scancode : UInt8) : Decidable (navKey scancode) := by
  unfold navKey
  infer_instance

/-- Scan codes and the characters they stand for. -/
def keyDecoder : Decoder KeyMods UInt8 UInt8 where
  next m scancode :=
    { e0 := scancode = 0xE0
      shift := match shiftEdge? scancode with
        | some e => e.down
        | none => m.shift
      caps := xor m.caps (scancode = scancodeCapslock)
      num := xor m.num (scancode = scancodeNumlock) }
  item m scancode :=
    if m.e0 = true ∨ (m.num = false ∧ navKey scancode) then arrow m.shift scancode
    else keyLayout (xor m.shift m.caps) scancode

/-- The character that the handler came to, stored or not. -/
def IrqEffect.typed? : IrqEffect → Option UInt8
  | .nothing => none
  | .scroll _ => none
  | .accepted c => some c
  | .dropped c => some c

/-- The end of the handler has come to `c?` and left the modifiers. -/
def ComesTo (k : Keyboard) (c? : Option UInt8) (r : Option (IrqEffect × Keyboard)) : Prop :=
  ∀ o k', r = some (o, k') → o.typed? = c? ∧ k'.mods = k.mods

theorem ComesTo.nothing (k : Keyboard) : ComesTo k none (some (.nothing, k)) := by
  intro o k' h
  cases h
  exact ⟨rfl, rfl⟩

theorem ComesTo.scroll (k : Keyboard) (call : TerminalCall) :
    ComesTo k none (some (.scroll call, k)) := by
  intro o k' h
  cases h
  exact ⟨rfl, rfl⟩

theorem kbEnqueue_comesTo (k : Keyboard) (c : UInt8) : ComesTo k (some c) (kbEnqueue k c) := by
  intro o k' h
  unfold kbEnqueue at h
  simp only at h
  split at h
  · obtain ⟨b, _, h⟩ := Option.bind_eq_some_iff.mp h
    cases h
    exact ⟨rfl, rfl⟩
  · cases h
    exact ⟨rfl, rfl⟩

theorem irqExtended_comesTo (k : Keyboard) (scancode : UInt8) :
    ComesTo k (arrow k.shiftHeld scancode) (irqExtended k scancode) := by
  unfold irqExtended arrow
  split
  · split
    · exact .scroll k _
    · exact kbEnqueue_comesTo k _
  split
  · split
    · exact .scroll k _
    · exact kbEnqueue_comesTo k _
  split
  · exact kbEnqueue_comesTo k _
  split
  · exact kbEnqueue_comesTo k _
  split
  · exact .scroll k _
  split
  · exact .scroll k _
  · exact .nothing k

/-- No character has a scan code from 128 on. -/
theorem keyLayout_eq_none {upper : Bool} {scancode : UInt8} (h : 128 ≤ scancode) :
    keyLayout upper scancode = none := by
  have hn : 128 ≤ scancode.toNat := h
  have hlower : scancodeMapLower.length ≤ 128 := by decide
  have hupper : scancodeMapUpper.length ≤ 128 := by decide
  unfold keyLayout
  cases upper with
  | true => simp [List.getElem?_eq_none (hupper.trans hn)]
  | false => simp [List.getElem?_eq_none (hlower.trans hn)]

theorem irqCharacter_comesTo (k : Keyboard) (scancode : UInt8) :
    ComesTo k (keyLayout (xor k.shiftHeld k.capslockOn) scancode) (irqCharacter k scancode) := by
  unfold irqCharacter
  by_cases hcode : scancode < 128
  · rw [if_pos hcode]
    unfold keyLayout
    simp only
    generalize List.getD (if (k.shiftHeld ^^ k.capslockOn) = true then scancodeMapUpper
      else scancodeMapLower) scancode.toNat 0 = c
    by_cases hc : c = 0
    · rw [if_pos hc, if_pos hc]
      exact .nothing k
    · rw [if_neg hc, if_neg hc]
      exact kbEnqueue_comesTo k c
  · rw [if_neg hcode, keyLayout_eq_none (UInt8.not_lt.mp hcode)]
    exact .nothing k

/-- The scan codes that the handler returns for before it looks for a character. -/
def modifierCodes : List UInt8 :=
  [0xE0, scancodeLshiftDown, scancodeRshiftDown, scancodeLshiftUp, scancodeRshiftUp,
    scancodeCapslock, scancodeNumlock]

theorem item_modifier (m : KeyMods) : ∀ scancode ∈ modifierCodes, keyDecoder.item m scancode = none := by
  intro scancode h
  have harrow : ∀ shift, ∀ c ∈ modifierCodes, arrow shift c = none := fun shift =>
    forall_of_all (by cases shift <;> decide)
  have hkey : ∀ upper, ∀ c ∈ modifierCodes, keyLayout upper c = none := fun upper =>
    forall_of_all (by cases upper <;> decide)
  show (if _ then arrow m.shift scancode else keyLayout (xor m.shift m.caps) scancode) = none
  rw [harrow _ _ h, hkey _ _ h, ite_self]

theorem shiftEdge?_eq_none {scancode : UInt8} (h : scancode ∉ modifierCodes) :
    shiftEdge? scancode = none := by
  unfold modifierCodes at h
  simp only [List.mem_cons, not_or] at h
  obtain ⟨_, hld, hrd, hlu, hru, _⟩ := h
  unfold shiftEdge?
  rw [if_neg hld, if_neg hrd, if_neg hlu, if_neg hru]

theorem next_of_notMem (m : KeyMods) {scancode : UInt8} (h : scancode ∉ modifierCodes) :
    keyDecoder.next m scancode = { m with e0 := false } := by
  have hedge := shiftEdge?_eq_none h
  unfold modifierCodes at h
  simp only [List.mem_cons, not_or] at h
  obtain ⟨he0, _, _, _, _, hcaps, hnum, _⟩ := h
  simp [keyDecoder, hedge, he0, hcaps, hnum]

/-- A release gives no character. -/
theorem item_release (m : KeyMods) {scancode : UInt8} (h : 128 ≤ scancode) :
    keyDecoder.item m scancode = none := by
  have hne : ∀ c : UInt8, c < 128 → scancode ≠ c := fun c hc he =>
    absurd (he ▸ h) (UInt8.not_le.mpr hc)
  unfold keyDecoder
  simp only
  split
  · unfold arrow
    rw [if_neg (hne _ (by decide)), if_neg (hne _ (by decide)), if_neg (hne _ (by decide)),
      if_neg (hne _ (by decide))]
  · exact keyLayout_eq_none h

theorem release_iff (scancode : UInt8) : scancode &&& 0x80 ≠ 0 ↔ 128 ≤ scancode := by
  have hall : ∀ n < 256, UInt8.ofNat n &&& 0x80 ≠ 0 ↔ 128 ≤ UInt8.ofNat n := by decide +kernel
  have hn := hall scancode.toNat scancode.toNat_lt
  rwa [UInt8.ofNat_toNat] at hn

/-- **One interrupt.**  Whatever is in the ring, the handler decodes the scan code. -/
theorem keyboardIrqHandler_decodes {k k' : Keyboard} {scancode : UInt8} {o : IrqEffect}
    (h : keyboardIrqHandler k scancode = some (o, k')) :
    o.typed? = keyDecoder.item k.mods scancode ∧ k'.mods = keyDecoder.next k.mods scancode := by
  by_cases hm : scancode ∈ modifierCodes
  · rw [item_modifier k.mods scancode hm]
    obtain ⟨ring, e0, shift, caps, num⟩ := k
    simp only [modifierCodes, List.mem_cons, List.not_mem_nil, or_false] at hm
    rcases hm with rfl | rfl | rfl | rfl | rfl | rfl | rfl
    all_goals
      cases h
      refine ⟨rfl, ?_⟩
      cases caps <;> cases num <;> rfl
  · rw [next_of_notMem k.mods hm]
    simp only [modifierCodes, List.mem_cons, not_or] at hm
    obtain ⟨he0, hld, hrd, hlu, hru, hcaps, hnum, _⟩ := hm
    unfold keyboardIrqHandler at h
    simp only [he0, hld, hrd, hlu, hru, hcaps, hnum, or_self, if_false] at h
    by_cases hrelease : scancode &&& 0x80 ≠ 0
    · rw [if_pos hrelease] at h
      cases h
      rw [item_release k.mods ((release_iff scancode).mp hrelease)]
      exact ⟨rfl, rfl⟩
    rw [if_neg hrelease] at h
    have hextended : (k.e0Mode || isNumpadNav { k with e0Mode := false } k.e0Mode scancode) = true ↔
        k.mods.e0 = true ∨ (k.mods.num = false ∧ navKey scancode) := by
      unfold isNumpadNav navKey Keyboard.mods
      cases k.e0Mode <;> cases k.numlockOn <;> simp [and_assoc]
    unfold keyDecoder
    simp only
    split at h
    · rename_i hext
      rw [if_pos (hextended.mp hext)]
      exact irqExtended_comesTo { k with e0Mode := false } scancode o k' h
    · rename_i hext
      rw [if_neg fun hp => hext (hextended.mpr hp)]
      exact irqCharacter_comesTo { k with e0Mode := false } scancode o k' h

/-- **One character.**  A scan code that stands for none leaves the pending characters, one that
stands for a character appends it, unless 255 are pending. -/
theorem keyboardIrqHandler_stores {k : Keyboard} (hr : k.ring.InBounds) (scancode : UInt8) :
    ∃ o k', keyboardIrqHandler k scancode = some (o, k') ∧
      (keyDecoder.item k.mods scancode = none → k'.ring.pending = k.ring.pending) ∧
      ∀ c, keyDecoder.item k.mods scancode = some c →
        (o = .accepted c ∧ k'.ring.pending = k.ring.pending ++ [c]) ∨
          (k'.ring.pending = k.ring.pending ∧ k.ring.pending.length = 255) := by
  obtain ⟨o, k', hk, _, _, hcases⟩ := keyboardIrqHandler_spec hr scancode
  obtain ⟨hitem, _⟩ := keyboardIrqHandler_decodes hk
  refine ⟨o, k', hk, ?_⟩
  rw [← hitem]
  rcases hcases with ⟨hquiet, hring⟩ | ⟨d, rfl, hpush⟩ | ⟨d, rfl, hring, hfull⟩
  · have hnone : o.typed? = none := by
      cases o with
      | nothing | scroll _ => rfl
      | accepted _ | dropped _ => exact hquiet.elim
    rw [hnone]
    exact ⟨fun _ => by rw [hring], nofun⟩
  · refine ⟨nofun, ?_⟩
    rintro c hc
    cases hc
    exact .inl ⟨rfl, hpush⟩
  · refine ⟨nofun, ?_⟩
    rintro c hc
    exact .inr ⟨by rw [hring], hfull⟩

/-- **The keyboard ring is a FIFO.**  After any interleaving, the characters
returned are the first of those accepted, in order, and the others are the
pending ones; and a scan code that stands for a character appends it, unless 255
are pending. -/
theorem keyboard_fifo {s₀ s : KeyboardState} {es : List KeyboardEvent} {os : List KeyboardOutput}
    (h0 : keyboardMachine.init s₀) (hr : keyboardMachine.Run s₀ es os s) :
    returned os <+: accepted os ∧ accepted os = returned os ++ s.dev.ring.pending ∧
      s.dev.ring.pending.length ≤ 255 ∧
      (∀ scancode, ∃ o k', keyboardIrqHandler s.dev scancode = some (o, k') ∧
        (keyDecoder.item s.dev.mods scancode = none → k'.ring.pending = s.dev.ring.pending) ∧
        ∀ c, keyDecoder.item s.dev.mods scancode = some c →
          (o = .accepted c ∧ k'.ring.pending = s.dev.ring.pending ++ [c]) ∨
            (k'.ring.pending = s.dev.ring.pending ∧ s.dev.ring.pending.length = 255)) ∧
      ∀ e, ∃ r, keyboardMachine.step s e = some r := by
  have h0' : FifoInv [] s₀ := by
    rw [h0]
    exact boot_fifoInv
  have hi : FifoInv os s := hr.trace (fun os s e o s' hi _ hs => step_fifoInv os s e o s' hi hs) h0'
  refine ⟨?_, hi.conserved, hi.bounds.length_pending_le, keyboardIrqHandler_stores hi.bounds,
    hi.progress⟩
  rw [hi.conserved]
  exact List.prefix_append _ _

/-- `a` is typed, `keyboard_getchar` is called and gets past its test, `b` is typed. -/
theorem keyboard_fifo_ab :
    ∃ s os,
      keyboardMachine.Run ⟨Keyboard.boot, .idle⟩ [.irq 0x1E, .call, .statement, .irq 0x30] os s ∧
        accepted os = text "ab" ∧ accepted os = returned os ++ s.dev.ring.pending := by
  have hrun : ∃ s os,
      keyboardMachine.Run ⟨Keyboard.boot, .idle⟩ [.irq 0x1E, .call, .statement, .irq 0x30] os s ∧
        accepted os = text "ab" := by
    apply Exists.intro
    apply Exists.intro
    apply And.intro
    · apply Machine.Run.cons trivial rfl
      apply Machine.Run.cons rfl rfl
      apply Machine.Run.cons GetcharAt.noConfusion rfl
      apply Machine.Run.cons trivial rfl
      apply Machine.Run.nil
    · rfl
  obtain ⟨s, os, hr, ha⟩ := hrun
  exact ⟨s, os, hr, ha, (keyboard_fifo rfl hr).2.1⟩

/-! ## Runs -/

def KeyboardEvent.scancode? : KeyboardEvent → Option UInt8
  | .irq scancode => some scancode
  | .call => none
  | .statement => none

/-- What the keyboard sent. -/
def scancodes (es : List KeyboardEvent) : List UInt8 := es.filterMap KeyboardEvent.scancode?

def KeyboardOutput.typed? : KeyboardOutput → Option UInt8
  | .irq effect => effect.typed?
  | .running => none
  | .returned _ => none

/-- The characters that the handler came to. -/
def typedChars (os : List KeyboardOutput) : List UInt8 := os.filterMap KeyboardOutput.typed?

theorem getcharStatement_mods (s : KeyboardState) :
    (getcharStatement s).1.typed? = none ∧ (getcharStatement s).2.dev.mods = s.dev.mods := by
  unfold getcharStatement
  split
  · exact ⟨rfl, rfl⟩
  · split
    · exact ⟨rfl, rfl⟩
    · exact ⟨rfl, rfl⟩
  · exact ⟨rfl, rfl⟩
  · exact ⟨rfl, rfl⟩

/-- **The driver decodes** what the keyboard sends, wherever it interrupts the reader. -/
theorem run_decodes {s s' : KeyboardState} {es : List KeyboardEvent} {os : List KeyboardOutput}
    (hr : keyboardMachine.Run s es os s') :
    typedChars os = keyDecoder.items s.dev.mods (scancodes es) := by
  induction hr with
  | nil s => rfl
  | @cons s s₁ s₂ e o es os _ hs _ ih =>
    unfold typedChars at ih ⊢
    unfold scancodes at ih ⊢
    cases e with
    | irq scancode =>
      obtain ⟨r, hr, he⟩ := Option.map_eq_some_iff.mp hs
      cases he
      obtain ⟨htyped, hnext⟩ : (KeyboardOutput.irq r.1).typed? = keyDecoder.item s.dev.mods scancode ∧
          r.2.mods = keyDecoder.next s.dev.mods scancode := keyboardIrqHandler_decodes hr
      rw [List.filterMap_cons, List.filterMap_cons_some (show (KeyboardEvent.irq scancode).scancode? =
        some scancode from rfl), Decoder.items_cons, ih, hnext, htyped]
      cases keyDecoder.item s.dev.mods scancode <;> rfl
    | call =>
      cases hs
      exact ih
    | statement =>
      have hpair : getcharStatement s = (o, s₁) := Option.some.inj hs
      obtain ⟨hnone, hmods⟩ := getcharStatement_mods s
      rw [hpair] at hnone hmods
      rw [List.filterMap_cons_none hnone, ih, hmods]
      rfl

/-! ## Strokes -/

/-- The key of a character, and whether it is the upper character on it. -/
def keyOf (c : UInt8) : Bool × UInt8 :=
  if c ∈ scancodeMapLower then (false, UInt8.ofNat (scancodeMapLower.idxOf c))
  else (true, UInt8.ofNat (scancodeMapUpper.idxOf c))

/-- There is a key for it. -/
def Typeable (c : UInt8) : Prop := c ≠ 0 ∧ (c ∈ scancodeMapLower ∨ c ∈ scancodeMapUpper)

instance (c : UInt8) : Decidable (Typeable c) := by
  unfold Typeable
  infer_instance

def ShiftKey.press : ShiftKey → UInt8
  | .left => scancodeLshiftDown
  | .right => scancodeRshiftDown

def ShiftKey.release : ShiftKey → UInt8
  | .left => scancodeLshiftUp
  | .right => scancodeRshiftUp

/-- The keys to press for `c`.  Caps Lock turns Shift around on every key, digits as well. -/
def strokes (caps : Bool) (key : ShiftKey) (c : UInt8) : List UInt8 :=
  if xor (keyOf c).1 caps then [key.press, (keyOf c).2, key.release] else [(keyOf c).2]

/-- All printable characters, Escape, Backspace, Tab and Enter. -/
theorem typeable_iff (c : UInt8) :
    Typeable c ↔ c ∈ ([8, 9, 13, 27] : List UInt8) ∨ (32 ≤ c ∧ c < 127) := by
  have hall : ∀ n < 256, Typeable (UInt8.ofNat n) ↔
      UInt8.ofNat n ∈ ([8, 9, 13, 27] : List UInt8) ∨
        (32 ≤ UInt8.ofNat n ∧ UInt8.ofNat n < 127) := by decide +kernel
  have hn := hall c.toNat c.toNat_lt
  rwa [UInt8.ofNat_toNat] at hn

/-- **One character** is decoded back, and no modifier is left over. -/
theorem strokes_decode (caps num : Bool) (key : ShiftKey) {c : UInt8} (hc : Typeable c) :
    keyDecoder.items ⟨false, false, caps, num⟩ (strokes caps key c) = [c] ∧
      keyDecoder.state ⟨false, false, caps, num⟩ (strokes caps key c) =
        ⟨false, false, caps, num⟩ := by
  have hall : ∀ n < 256, Typeable (UInt8.ofNat n) →
      ∀ caps num : Bool, ∀ key ∈ [ShiftKey.left, .right],
        keyDecoder.items ⟨false, false, caps, num⟩ (strokes caps key (UInt8.ofNat n)) =
            [UInt8.ofNat n] ∧
          keyDecoder.state ⟨false, false, caps, num⟩ (strokes caps key (UInt8.ofNat n)) =
            ⟨false, false, caps, num⟩ := by decide +kernel
  have hn := hall c.toNat c.toNat_lt
  rw [UInt8.ofNat_toNat] at hn
  exact hn hc caps num key (by cases key <;> decide)

/-- A key other than Shift goes up. -/
def IsRelease (scancode : UInt8) : Prop :=
  128 ≤ scancode ∧ scancode ≠ 0xE0 ∧ scancode ≠ scancodeLshiftUp ∧ scancode ≠ scancodeRshiftUp

instance (scancode : UInt8) : Decidable (IsRelease scancode) := by
  unfold IsRelease
  infer_instance

theorem IsRelease.notMem {scancode : UInt8} (h : IsRelease scancode) : scancode ∉ modifierCodes := by
  obtain ⟨hhigh, he0, hleft, hright⟩ := h
  have hne : ∀ c : UInt8, c < 128 → scancode ≠ c := fun c hc he =>
    absurd (he ▸ hhigh) (UInt8.not_le.mpr hc)
  simp only [modifierCodes, List.mem_cons, List.not_mem_nil, or_false, not_or]
  exact ⟨he0, hne _ (by decide), hne _ (by decide), hleft, hright, hne _ (by decide),
    hne _ (by decide)⟩

theorem strokes_ne_e0 {caps : Bool} {key : ShiftKey} {c scancode : UInt8}
    (h : scancode ∈ strokes caps key c) (hc : Typeable c) : scancode ≠ 0xE0 := by
  have hkey : (keyOf c).2 ≠ 0xE0 := by
    have hall : ∀ n < 256, Typeable (UInt8.ofNat n) → (keyOf (UInt8.ofNat n)).2 ≠ 0xE0 := by
      decide +kernel
    have hn := hall c.toNat c.toNat_lt
    rw [UInt8.ofNat_toNat] at hn
    exact hn hc
  unfold strokes at h
  split at h
  · simp only [List.mem_cons, List.not_mem_nil, or_false] at h
    rcases h with rfl | rfl | rfl
    · cases key <;> decide
    · exact hkey
    · cases key <;> decide
  · rw [List.mem_singleton.mp h]
    exact hkey

/-- What the keyboard sends while `l` is typed: the strokes of its characters, and keys that go up. -/
def Types (caps : Bool) (key : ShiftKey) (l codes : List UInt8) : Prop :=
  codes.filter (fun c => ¬ IsRelease c) = l.flatMap (strokes caps key)

/-- **A text** is decoded back. -/
theorem Types.items {caps num : Bool} {key : ShiftKey} {l codes : List UInt8}
    (hl : ∀ c ∈ l, Typeable c) (h : Types caps key l codes) :
    keyDecoder.items ⟨false, false, caps, num⟩ codes = l := by
  let I (m : KeyMods) : Prop := m.e0 = false
  have hplain : ∀ a ∈ codes, a ≠ 0xE0 := by
    intro a ha
    by_cases hrelease : IsRelease a
    · exact hrelease.2.1
    · have hmem : a ∈ codes.filter fun c => ¬ IsRelease c :=
        List.mem_filter.mpr ⟨ha, decide_eq_true hrelease⟩
      rw [h] at hmem
      obtain ⟨c, hc, ha⟩ := List.mem_flatMap.mp hmem
      exact strokes_ne_e0 ha (hl c hc)
  have hsilent : ∀ m, ∀ a ∈ codes, I m → decide (¬ IsRelease a) = false →
      keyDecoder.item m a = none ∧ keyDecoder.next m a = m := by
    rintro ⟨e0, shift, caps, num⟩ a _ rfl hp
    have hrelease : IsRelease a := not_not.mp (of_decide_eq_false hp)
    exact ⟨item_release _ hrelease.1, next_of_notMem _ hrelease.notMem⟩
  have hfilter := Decoder.items_filter (d := keyDecoder) (I := I)
    (fun m a ha _ => decide_eq_false (hplain a ha)) hsilent (s := ⟨false, false, caps, num⟩) rfl
  rw [← hfilter, h]
  exact (Decoder.items_flatMap (I := fun m => m = ⟨false, false, caps, num⟩)
    (fun c hc m hm => by
      subst hm
      exact strokes_decode caps num key (hl c hc)) rfl).1

/-! ## Nothing is lost -/

theorem typedChars_snoc (os : List KeyboardOutput) (o : KeyboardOutput) :
    typedChars (os ++ [o]) = typedChars os ++ o.typed?.toList := by
  unfold typedChars
  rw [List.filterMap_append]
  cases h : o.typed? <;> simp [h]

theorem accepted_append (os os' : List KeyboardOutput) :
    accepted (os ++ os') = accepted os ++ accepted os' := List.filterMap_append

theorem returned_append (os os' : List KeyboardOutput) :
    returned (os ++ os') = returned os ++ returned os' := List.filterMap_append

/-- What was pending, and what was accepted since, has been returned or is pending. -/
theorem FifoInv.since {os₀ os : List KeyboardOutput} {s₁ s : KeyboardState} (h₁ : FifoInv os₀ s₁)
    (h : FifoInv (os₀ ++ os) s) :
    s₁.dev.ring.pending ++ accepted os = returned os ++ s.dev.ring.pending := by
  have hall := h.conserved
  rw [accepted_append, returned_append, h₁.conserved, List.append_assoc, List.append_assoc] at hall
  exact List.append_cancel_left hall

/-- A dropped character finds 255 pending. -/
theorem step_dropped {os : List KeyboardOutput} {s s' : KeyboardState} {e : KeyboardEvent} {c : UInt8}
    (hi : FifoInv os s) (hs : keyboardMachine.step s e = some (.irq (.dropped c), s')) :
    s.dev.ring.pending.length = 255 := by
  cases e with
  | irq scancode =>
    obtain ⟨r, hr, he⟩ := Option.map_eq_some_iff.mp hs
    obtain ⟨o, k', hk, _, _, hcases⟩ := keyboardIrqHandler_spec hi.bounds scancode
    rw [hk] at hr
    cases hr
    cases he
    rcases hcases with ⟨hquiet, _⟩ | ⟨_, hacc, _⟩ | ⟨_, _, _, hfull⟩
    · exact hquiet.elim
    · cases hacc
    · exact hfull
  | call => cases hs
  | statement =>
    obtain ⟨hnone, _⟩ := getcharStatement_mods s
    have hpair : getcharStatement s = (.irq (.dropped c), s') := Option.some.inj hs
    rw [hpair] at hnone
    cases hnone

/-- While there is room, what is typed is accepted. -/
theorem run_accepts {os₀ os : List KeyboardOutput} {s s' : KeyboardState} {es : List KeyboardEvent}
    (hi : FifoInv os₀ s) (hr : keyboardMachine.Run s es os s') :
    FifoInv (os₀ ++ os) s' ∧
      (s.dev.ring.pending.length + (typedChars os).length ≤ 255 → accepted os = typedChars os) := by
  let I (os : List KeyboardOutput) (s' : KeyboardState) : Prop := FifoInv (os₀ ++ os) s' ∧
    (s.dev.ring.pending.length + (typedChars os).length ≤ 255 → accepted os = typedChars os)
  have hstep : ∀ os s₁ e o s₂, I os s₁ → keyboardMachine.legal s₁ e →
      keyboardMachine.step s₁ e = some (o, s₂) → I (os ++ [o]) s₂ := by
    rintro os s₁ e o s₂ ⟨hfifo, hroom⟩ _ hs
    refine ⟨?_, fun hlen => ?_⟩
    · rw [← List.append_assoc]
      exact step_fifoInv _ _ _ _ _ hfifo hs
    rw [typedChars_snoc] at hlen ⊢
    rw [List.length_append] at hlen
    have hbefore := hroom (by omega)
    rw [accepted_snoc, hbefore]
    congr 2
    match o with
    | .irq .nothing => rfl
    | .irq (.scroll _) => rfl
    | .irq (.accepted _) => rfl
    | .irq (.dropped c) =>
      have hfull := step_dropped hfifo hs
      have hsince := congrArg List.length (hi.since hfifo)
      have hone : (KeyboardOutput.irq (.dropped c)).typed?.toList.length = 1 := rfl
      rw [List.length_append, List.length_append, hbefore] at hsince
      omega
    | .running => rfl
    | .returned _ => rfl
  have hstart : I [] s := ⟨by rwa [List.append_nil], fun _ => rfl⟩
  exact hr.trace hstep hstart

/-! ## The reader -/

theorem run_fifoInv {os₀ os : List KeyboardOutput} {s s' : KeyboardState} {es : List KeyboardEvent}
    (hi : FifoInv os₀ s) (hr : keyboardMachine.Run s es os s') : FifoInv (os₀ ++ os) s' :=
  hr.trace (fun os s e o s' hi _ hs => step_fifoInv os s e o s' hi hs) hi

theorem reach_fifoInv {s : KeyboardState} (h : keyboardMachine.Reach s) : ∃ os, FifoInv os s := by
  obtain ⟨s₀, es, os, h₀, hr⟩ := h
  have hboot : FifoInv [] s₀ := by
    rw [h₀]
    exact boot_fifoInv
  exact ⟨os, run_fifoInv hboot hr⟩

/-- A call of `keyboard_getchar` that does not wait. -/
def getcharCall : List KeyboardEvent := [.call, .statement, .statement, .statement]

/-- It returns the first of the pending characters. -/
theorem getchar_returns {os : List KeyboardOutput} {s : KeyboardState} (hi : FifoInv os s)
    (hpc : s.pc = .idle) {c : UInt8} {rest : List UInt8} (hp : s.dev.ring.pending = c :: rest) :
    ∃ s', keyboardMachine.Run s getcharCall [.running, .running, .running, .returned c] s' ∧
      s'.pc = .idle ∧ s'.dev.ring.pending = rest := by
  obtain ⟨dev, pc⟩ := s
  have hne : dev.ring.kbHead ≠ dev.ring.kbTail := by
    intro h
    have hnil := (ringItems_eq_nil_iff hi.bounds.tail_lt hi.bounds.head_lt dev.ring.kbBuf.get).mpr h
    rw [← KbRing.pending_eq] at hnil
    rw [hnil] at hp
    cases hp
  have htest : getcharStatement ⟨dev, .test⟩ = (.running, ⟨dev, .read⟩) := by
    unfold getcharStatement
    simp only [if_neg hne]
  let x := dev.ring.kbBuf.get dev.ring.kbTail
  obtain ⟨s', hs', hidle⟩ : ∃ s', getcharStatement ⟨dev, .advance x⟩ = (.returned x, s') ∧
      s'.pc = .idle := ⟨_, rfl, rfl⟩
  have hrun : keyboardMachine.Run ⟨dev, pc⟩ getcharCall
      [.running, .running, .running, .returned x] s' := by
    refine Machine.Run.cons hpc rfl ?_
    refine Machine.Run.cons GetcharAt.noConfusion (congrArg some htest) ?_
    refine Machine.Run.cons GetcharAt.noConfusion rfl ?_
    exact Machine.Run.single GetcharAt.noConfusion (congrArg some hs')
  have hsince := hi.since (run_fifoInv hi hrun)
  rw [hp] at hsince
  obtain ⟨rfl, hrest⟩ := List.cons.inj hsince
  have hrest' : rest ++ [] = s'.dev.ring.pending := hrest
  rw [List.append_nil] at hrest'
  exact ⟨s', hrun, hidle, hrest'.symm⟩

/-- As many calls as there are characters pending return them all. -/
theorem getchar_returns_all {os : List KeyboardOutput} {s : KeyboardState} (hi : FifoInv os s)
    (hpc : s.pc = .idle) {l : List UInt8} (hp : s.dev.ring.pending = l) :
    ∃ os' s', keyboardMachine.Run s (l.flatMap fun _ => getcharCall) os' s' ∧ returned os' = l ∧
      s'.dev.ring.pending = [] := by
  induction l generalizing os s with
  | nil => exact ⟨[], s, Machine.Run.nil s, rfl, hp⟩
  | cons c l ih =>
    obtain ⟨s₁, hrun, hidle, hrest⟩ := getchar_returns hi hpc hp
    obtain ⟨os', s', hrun', hreturned, hempty⟩ := ih (run_fifoInv hi hrun) hidle hrest
    exact ⟨_, s', hrun.append hrun', congrArg (c :: ·) hreturned, hempty⟩

theorem scancodes_irqs (codes : List UInt8) : scancodes (codes.map .irq) = codes := by
  unfold scancodes
  rw [List.filterMap_map]
  exact List.filterMap_some

/-- Interrupts come at any time. -/
theorem irqs_run {os : List KeyboardOutput} {s : KeyboardState} (hi : FifoInv os s)
    (codes : List UInt8) :
    ∃ os' s', keyboardMachine.Run s (codes.map .irq) os' s' ∧ s'.pc = s.pc := by
  induction codes generalizing os s with
  | nil => exact ⟨[], s, Machine.Run.nil s, rfl⟩
  | cons c codes ih =>
    obtain ⟨⟨o, s₁⟩, hs⟩ := hi.progress (.irq c)
    have hpc : s₁.pc = s.pc := by
      obtain ⟨r, _, he⟩ := Option.map_eq_some_iff.mp hs
      cases he
      rfl
    obtain ⟨os', s', hr, hpc'⟩ := ih (step_fifoInv _ _ _ _ _ hi hs)
    exact ⟨o :: os', s', Machine.Run.cons trivial hs hr, hpc'.trans hpc⟩

/-- A text that is typed is decoded, and is in the ring unless it has been read. -/
theorem FifoInv.types {os₀ os : List KeyboardOutput} {s s' : KeyboardState} {es : List KeyboardEvent}
    (hi : FifoInv os₀ s) (hr : keyboardMachine.Run s es os s') (he0 : s.dev.e0Mode = false)
    (hshift : s.dev.shiftHeld = false) {key : ShiftKey} {l : List UInt8} (hl : ∀ c ∈ l, Typeable c)
    (ht : Types s.dev.capslockOn key l (scancodes es)) :
    typedChars os = l ∧ FifoInv (os₀ ++ os) s' ∧
      (s.dev.ring.pending.length + l.length ≤ 255 →
        s.dev.ring.pending ++ l = returned os ++ s'.dev.ring.pending) := by
  have hmods : s.dev.mods = ⟨false, false, s.dev.capslockOn, s.dev.numlockOn⟩ := by
    unfold Keyboard.mods
    rw [he0, hshift]
  have htyped : typedChars os = l := by
    rw [run_decodes hr, hmods]
    exact ht.items hl
  obtain ⟨hfifo, hroom⟩ := run_accepts hi hr
  rw [htyped] at hroom
  refine ⟨htyped, hfifo, fun hlen => ?_⟩
  rw [← hroom hlen]
  exact hi.since hfifo

/-- **Typing.**  From any state with no Shift key down: the strokes of a text, with the other keys
going up at any time and the reader at any statement, are decoded to the text; and if there is room
in the ring, the reader has got the first of what was pending and of the text, and can get the
rest. -/
theorem typing_arrives {s s' : KeyboardState} {es : List KeyboardEvent} {os : List KeyboardOutput}
    (hs : keyboardMachine.Reach s) (hr : keyboardMachine.Run s es os s')
    (he0 : s.dev.e0Mode = false) (hshift : s.dev.shiftHeld = false) {key : ShiftKey}
    {l : List UInt8} (hl : ∀ c ∈ l, Typeable c) (ht : Types s.dev.capslockOn key l (scancodes es)) :
    typedChars os = l ∧
      (s.dev.ring.pending.length + l.length ≤ 255 →
        s.dev.ring.pending ++ l = returned os ++ s'.dev.ring.pending ∧
          (s'.pc = .idle → ∃ os' s'',
            keyboardMachine.Run s' (s'.dev.ring.pending.flatMap fun _ => getcharCall) os' s'' ∧
              returned (os ++ os') = s.dev.ring.pending ++ l ∧ s''.dev.ring.pending = [])) := by
  obtain ⟨os₀, hi⟩ := reach_fifoInv hs
  obtain ⟨htyped, hfifo, harrives⟩ := hi.types hr he0 hshift hl ht
  refine ⟨htyped, fun hlen => ⟨harrives hlen, fun hidle => ?_⟩⟩
  obtain ⟨os', s'', hrun, hreturned, hempty⟩ := getchar_returns_all hfifo hidle rfl
  exact ⟨os', s'', hrun, by rw [returned_append, hreturned, harrives hlen], hempty⟩

/-- `Hi` is typed with left Shift; `h` goes up last, and the reader is past its test by then. -/
theorem typing_arrives_Hi : ∃ os s',
    keyboardMachine.Run ⟨Keyboard.boot, .idle⟩ [.irq 0x2A, .irq 0x23, .irq 0xAA, .call, .statement,
      .irq 0x17, .irq 0xA3] os s' ∧
      typedChars os = text "Hi" ∧ text "Hi" = returned os ++ s'.dev.ring.pending := by
  have hrun : ∃ os s', keyboardMachine.Run ⟨Keyboard.boot, .idle⟩ [.irq 0x2A, .irq 0x23, .irq 0xAA,
      .call, .statement, .irq 0x17, .irq 0xA3] os s' := by
    apply Exists.intro
    apply Exists.intro
    apply Machine.Run.cons trivial rfl
    apply Machine.Run.cons trivial rfl
    apply Machine.Run.cons trivial rfl
    apply Machine.Run.cons rfl rfl
    apply Machine.Run.cons GetcharAt.noConfusion rfl
    apply Machine.Run.cons trivial rfl
    apply Machine.Run.cons trivial rfl
    apply Machine.Run.nil
  obtain ⟨os, s', hr⟩ := hrun
  have hl : ∀ c ∈ text "Hi", Typeable c := forall_of_all (by decide)
  have ht : Types false .left (text "Hi") [0x2A, 0x23, 0xAA, 0x17, 0xA3] := by
    unfold Types
    decide
  obtain ⟨htyped, harrives⟩ := typing_arrives (Machine.Reach.init rfl) hr rfl rfl hl ht
  exact ⟨os, s', hr, htyped, (harrives (by decide)).1⟩

end MiniOS
