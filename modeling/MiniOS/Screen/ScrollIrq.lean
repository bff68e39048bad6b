import MiniOS.Keyboard.RingFifo
import MiniOS.Screen.Printing
import MiniOS.Screen.Scrollback

/-!
# Scrolling from an interrupt

`terminal_putchar` writes a printable character in three steps: it tests and
resets the view, stores the cell, and moves the cursor, with a scroll below the
last row.  The keyboard and the mouse (`kernel/mouse.c`) may scroll the view
between any two of them; nothing masks their interrupts.

A character stored while the view is raised goes to the rows of the history on
the screen, and is gone when the live rows come back; a scroll with the view
raised pushes off a row that is shown, and the live rows stay.  As long as
neither happens, nothing is lost (`scrollIrq_keepsOutput`).
-/

namespace MiniOS

open Lib

/-! ## The mouse -/

/-- The statics of the driver. -/
structure Mouse where
  mouseCycle : Nat
  mousePacket : Chars 4
  mousePacketSize : Nat

/-- After `mouse_install`, which finds a wheel (four bytes a packet) or none. -/
def Mouse.installed (wheel : Bool) : Mouse := ⟨0, Chars.fill 4 0, if wheel then 4 else 3⟩

/-- What the packet asks for: its fourth byte is an `int8_t`. -/
def wheelCall (z : UInt8) : Option TerminalCall :=
  if z > 0 ∧ z < 128 then some (.scrollDown 3)
  else if z ≥ 128 then some (.scrollUp 3)
  else none

/-- `mouse_irq_handler` with these bytes at the ports. -/
def mouseIrqHandler (m : Mouse) (status data : UInt8) : Option (Option TerminalCall × Mouse) :=
  if status &&& 0x20 = 0 then some (none, m)
  else if m.mouseCycle = 0 ∧ data &&& 0x08 = 0 then some (none, m)
  else do
    let mousePacket ← m.mousePacket.put m.mouseCycle data
    let m := { m with mousePacket, mouseCycle := m.mouseCycle + 1 }
    if m.mouseCycle = m.mousePacketSize then
      some (if m.mousePacketSize = 4 then wheelCall (mousePacket.get 3) else none,
        { m with mouseCycle := 0 })
    else some (none, m)

/-! ## The steps -/

/-- The end of `terminal_putchar` for a printable character. -/
def advanceCursor (t : Terminal) : Terminal :=
  let t := { t with termCol := t.termCol + 1 }
  if t.termCol ≥ vgaCols then nextLine t else t

/-- Where `terminal_putchar` is. -/
inductive PutcharAt where
  | idle
  | store (c : UInt8)
  | advance

/-- The terminal, the output in progress and the two drivers. -/
structure OutputState where
  term : Terminal
  pc : PutcharAt
  kb : Keyboard
  mouse : Mouse

/-- A printable character in three steps, another call in one, and the interrupts. -/
inductive OutputEvent where
  | test (c : UInt8)
  | store
  | advance
  | call (c : TerminalCall)
  | keyboardIrq (scancode : UInt8)
  | mouseIrq (status data : UInt8)

/-- The calls in one step. -/
def OtherCall : TerminalCall → Prop
  | .putchar c => c = ch '\n' ∨ c = ch '\r' ∨ c = 8
  | .clear | .setcursor _ _ | .setcolor _ _ => True
  | _ => False

def OutputEvent.legal (s : OutputState) : OutputEvent → Prop
  | .test c => s.pc = .idle ∧ Printable c
  | .store => ∃ c, s.pc = .store c
  | .advance => s.pc = .advance
  | .call c => s.pc = .idle ∧ OtherCall c
  | .keyboardIrq _ | .mouseIrq _ _ => True

def IrqEffect.call : IrqEffect → Option TerminalCall
  | .scroll c => some c
  | _ => none

/-- The handler's call on the terminal; without `scrolls` it is left out. -/
def onTerminal (scrolls : Bool) (t : Terminal) (call : Option TerminalCall) : Option Terminal :=
  match call with
  | some c => if scrolls then c.run 0 t else some t
  | none => some t

def OutputEvent.run (scrolls : Bool) (s : OutputState) : OutputEvent → Option OutputState
  | .test c => some { s with term := leaveScrollback s.term, pc := .store c }
  | .store =>
    match s.pc with
    | .store c => some { s with term := putCell s.term c, pc := .advance }
    | _ => none
  | .advance => some { s with term := advanceCursor s.term, pc := .idle }
  | .call c => (c.run 0 s.term).map fun term => { s with term }
  | .keyboardIrq scancode => do
    let (effect, kb) ← keyboardIrqHandler s.kb scancode
    let term ← onTerminal scrolls s.term effect.call
    some { s with term, kb }
  | .mouseIrq status data => do
    let (asked, mouse) ← mouseIrqHandler s.mouse status data
    let term ← onTerminal scrolls s.term asked
    some { s with term, mouse }

/-- The output with its interrupts, whose calls on the terminal are made or, without `scrolls`,
left out. -/
def outputMachine (scrolls : Bool) : Machine OutputState OutputEvent Unit where
  init s := ∃ vga wheel,
    s = ⟨terminalInit (Terminal.boot vga), .idle, Keyboard.boot, Mouse.installed wheel⟩
  legal := OutputEvent.legal
  step s e := (e.run scrolls s).map fun s => ((), s)

/-- The three steps are `terminal_putchar`. -/
theorem putchar_steps (fuel : Nat) (t : Terminal) {c : UInt8} (hc : Printable c) :
    terminalPutchar fuel t c = some (advanceCursor (putCell (leaveScrollback t) c)) := by
  obtain ⟨h1, h2, h3, h4⟩ := hc
  unfold terminalPutchar
  simp only [if_neg h1, if_neg h2, if_neg h3, if_neg h4]
  rfl

/-! ## What the handlers ask for -/

/-- The calls the handlers make. -/
def IrqCall (c : TerminalCall) : Prop :=
  ∃ lines, (lines = 1 ∨ lines = 3 ∨ lines = 10) ∧ (c = .scrollUp lines ∨ c = .scrollDown lines)

theorem kbEnqueue_call {k k' : Keyboard} {c : UInt8} {effect : IrqEffect}
    (h : kbEnqueue k c = some (effect, k')) : effect.call = none := by
  unfold kbEnqueue at h
  simp only at h
  split at h
  · simp only [Option.bind_eq_bind, Option.bind_eq_some_iff] at h
    obtain ⟨_, _, h⟩ := h
    cases h
    rfl
  · cases h
    rfl

theorem irqExtended_call {k k' : Keyboard} {scancode : UInt8} {effect : IrqEffect}
    (h : irqExtended k scancode = some (effect, k')) {c : TerminalCall}
    (hc : effect.call = some c) : IrqCall c := by
  have hkey : ∀ {key}, kbEnqueue k key = some (effect, k') → IrqCall c := by
    intro key hk
    rw [kbEnqueue_call hk] at hc
    cases hc
  unfold irqExtended at h
  split at h
  · split at h
    · cases h
      cases hc
      exact ⟨1, .inl rfl, .inl rfl⟩
    · exact hkey h
  split at h
  · split at h
    · cases h
      cases hc
      exact ⟨1, .inl rfl, .inr rfl⟩
    · exact hkey h
  split at h
  · exact hkey h
  split at h
  · exact hkey h
  split at h
  · cases h
    cases hc
    exact ⟨10, .inr (.inr rfl), .inl rfl⟩
  split at h
  · cases h
    cases hc
    exact ⟨10, .inr (.inr rfl), .inr rfl⟩
  · cases h
    cases hc

theorem irqCharacter_call {k k' : Keyboard} {scancode : UInt8} {effect : IrqEffect}
    (h : irqCharacter k scancode = some (effect, k')) : effect.call = none := by
  unfold irqCharacter at h
  by_cases hs : scancode < 128
  · simp only [if_pos hs] at h
    generalize List.getD _ _ _ = c at h
    by_cases hc : c = 0
    · rw [if_pos hc] at h
      cases h
      rfl
    · rw [if_neg hc] at h
      exact kbEnqueue_call h
  · rw [if_neg hs] at h
    cases h
    rfl

/-- The keyboard scrolls by 1 or 10. -/
theorem keyboardIrq_call {k k' : Keyboard} {scancode : UInt8} {effect : IrqEffect}
    (h : keyboardIrqHandler k scancode = some (effect, k')) {c : TerminalCall}
    (hc : effect.call = some c) : IrqCall c := by
  have hnothing : ∀ {k''}, some (IrqEffect.nothing, k'') = some (effect, k') → IrqCall c := by
    intro k'' hk
    cases hk
    cases hc
  unfold keyboardIrqHandler at h
  simp only at h
  split at h
  · exact hnothing h
  split at h
  · exact hnothing h
  split at h
  · exact hnothing h
  split at h
  · exact hnothing h
  split at h
  · exact hnothing h
  split at h
  · exact hnothing h
  split at h
  · exact irqExtended_call h hc
  · rw [irqCharacter_call h] at hc
    cases hc

theorem wheelCall_irqCall {z : UInt8} {c : TerminalCall} (h : wheelCall z = some c) : IrqCall c := by
  unfold wheelCall at h
  split at h
  · cases h
    exact ⟨3, .inr (.inl rfl), .inr rfl⟩
  split at h
  · cases h
    exact ⟨3, .inr (.inl rfl), .inl rfl⟩
  · cases h

/-- The wheel scrolls by 3. -/
theorem mouseIrq_call {m m' : Mouse} {status data : UInt8} {c : TerminalCall}
    (h : mouseIrqHandler m status data = some (some c, m')) : IrqCall c := by
  unfold mouseIrqHandler at h
  split at h
  · cases h
  split at h
  · cases h
  simp only [Option.bind_eq_bind, Option.bind_eq_some_iff] at h
  obtain ⟨packet, _, h⟩ := h
  split at h
  · injection h with h
    injection h with hcall _
    split at hcall
    · exact wheelCall_irqCall hcall
    · cases hcall
  · cases h

/-! ## No step gets stuck -/

/-- The next byte has its place in the packet. -/
structure Mouse.Ready (m : Mouse) : Prop where
  cycle_lt : m.mouseCycle < m.mousePacketSize
  size_le : m.mousePacketSize ≤ 4

theorem Mouse.installed_ready (wheel : Bool) : (Mouse.installed wheel).Ready := by
  cases wheel with
  | true => exact ⟨by decide, by decide⟩
  | false => exact ⟨by decide, by decide⟩

theorem mouseIrqHandler_spec {m : Mouse} (h : m.Ready) (status data : UInt8) :
    ∃ asked m', mouseIrqHandler m status data = some (asked, m') ∧ m'.Ready := by
  have hlt := h.cycle_lt
  have hle := h.size_le
  unfold mouseIrqHandler
  split
  · exact ⟨_, _, rfl, h⟩
  split
  · exact ⟨_, _, rfl, h⟩
  obtain ⟨packet, hput, _⟩ := Chars.put_eq (b := m.mousePacket) (i := m.mouseCycle) (by omega) data
  simp only [hput, Option.bind_eq_bind, Option.bind_some]
  split
  · exact ⟨_, _, rfl, show 0 < m.mousePacketSize by omega, hle⟩
  · rename_i hend
    exact ⟨_, _, rfl, show m.mouseCycle + 1 < m.mousePacketSize by omega, hle⟩

/-- The drivers store inside their buffers. -/
structure DriversReady (s : OutputState) : Prop where
  ring : s.kb.ring.InBounds
  mouse : s.mouse.Ready

theorem otherCall_any {c : TerminalCall} (h : OtherCall c) (t : Terminal) (fuel : Nat) :
    AnyViewCall t (fuel, c) := by
  cases c with
  | putchar c =>
    rintro rfl
    rcases h with h | h | h
    · exact absurd h (by decide)
    · exact absurd h (by decide)
    · exact absurd h (by decide)
  | clear | setcursor _ _ | setcolor _ _ => exact trivial
  | init | write _ | writestring _ | writecolor _ _ _ | scrollUp _ | scrollDown _ =>
    exact absurd h id

theorem onTerminal_returns (t : Terminal) {call : Option TerminalCall}
    (hc : ∀ c, call = some c → IrqCall c) : ∃ t', onTerminal true t call = some t' := by
  cases call with
  | none => exact ⟨t, rfl⟩
  | some c =>
    obtain ⟨lines, _, rfl | rfl⟩ := hc c rfl
    · exact ⟨_, rfl⟩
    · exact ⟨_, rfl⟩

/-- Every step comes back, and leaves the drivers ready. -/
theorem output_returns {s : OutputState} (h : DriversReady s) {e : OutputEvent} (hl : e.legal s) :
    ∃ s', e.run true s = some s' ∧ DriversReady s' := by
  cases e with
  | test c => exact ⟨_, rfl, h.ring, h.mouse⟩
  | store =>
    obtain ⟨c, hc⟩ := hl
    simp only [OutputEvent.run, hc]
    exact ⟨_, rfl, h.ring, h.mouse⟩
  | advance => exact ⟨_, rfl, h.ring, h.mouse⟩
  | call c =>
    obtain ⟨t', ht⟩ := viewCall_returns (otherCall_any hl.2 s.term 0)
    have ht' : c.run 0 s.term = some t' := ht
    simp only [OutputEvent.run, ht']
    exact ⟨_, rfl, h.ring, h.mouse⟩
  | keyboardIrq scancode =>
    obtain ⟨effect, kb, hirq, hring, _⟩ := keyboardIrqHandler_spec h.ring scancode
    obtain ⟨t', ht⟩ := onTerminal_returns s.term fun c hc => keyboardIrq_call hirq hc
    simp only [OutputEvent.run, hirq, ht, Option.bind_eq_bind, Option.bind_some]
    exact ⟨_, rfl, hring, h.mouse⟩
  | mouseIrq status data =>
    obtain ⟨asked, mouse, hirq, hready⟩ := mouseIrqHandler_spec h.mouse status data
    have hask : ∀ c, asked = some c → IrqCall c := by
      rintro c rfl
      exact mouseIrq_call hirq
    obtain ⟨t', ht⟩ := onTerminal_returns s.term hask
    simp only [OutputEvent.run, hirq, ht, Option.bind_eq_bind, Option.bind_some]
    exact ⟨_, rfl, h.ring, hready⟩

/-! ## What is kept -/

/-- A character is stored, and the screen scrolled, with the live rows on the screen. -/
def KeepsOutput (s : OutputState) : OutputEvent → Prop
  | .store => s.term.viewScroll = 0
  | .advance =>
    s.term.termCol + 1 ≥ vgaCols → s.term.termRow + 1 ≥ vgaRows → s.term.viewScroll = 0
  | _ => True

/-- The same output, with the same bytes at the ports, without a scrolled view. -/
structure SameOutput (s s₀ : OutputState) : Prop where
  follows : ∃ past, Follows s.term (s₀.term, past)
  pc : s.pc = s₀.pc
  kb : s.kb = s₀.kb
  mouse : s.mouse = s₀.mouse

variable {t : Terminal} {u : Terminal × List Row}

theorem leave_follows (h : Follows t u) : Follows (leaveScrollback t) (leaveScrollback u.1, u.2) := by
  have hz := leaveScrollback_zero h.view
  rw [leaveScrollback_of_le (Int.le_of_eq h.unscrolled)]
  exact ⟨leaveScrollback_same h.view h.same, h.unscrolled, ViewInv.zero hz,
    leaveScrollback_history h.history⟩

theorem store_follows (h : Follows t u) (hz : t.viewScroll = 0) (c : UInt8) :
    Follows (putCell t c) (putCell u.1 c, u.2) :=
  ⟨h.same.putCell hz c, h.unscrolled, ViewInv.zero hz,
    ⟨h.history.ring, h.history.head, h.history.count⟩⟩

/-- A cursor that moves without a scroll moves under a raised view as well. -/
theorem advance_follows (h : Follows t u)
    (hz : t.termCol + 1 ≥ vgaCols → t.termRow + 1 ≥ vgaRows → t.viewScroll = 0) :
    ∃ past, Follows (advanceCursor t) (advanceCursor u.1, past) := by
  have hmove : ∀ row col, Follows { t with termRow := row, termCol := col }
      ({ u.1 with termRow := row, termCol := col }, u.2) :=
    fun row col => ⟨⟨rfl, rfl, h.same.color, h.same.live⟩, h.unscrolled,
      ⟨h.view.nonneg, h.view.le, h.view.shown⟩, ⟨h.history.ring, h.history.head, h.history.count⟩⟩
  have hcol := h.same.col
  have hrow := h.same.row
  unfold advanceCursor
  by_cases hw : u.1.termCol + 1 ≥ vgaCols
  · simp only [hcol, if_pos hw]
    by_cases hs : u.1.termRow + 1 ≥ vgaRows
    · have hv := hz (hcol ▸ hw) (hrow ▸ hs)
      have hf := hmove t.termRow (u.1.termCol + 1)
      refine ⟨_, SameLive.nextLine ⟨h.same.row, rfl, h.same.color, h.same.live⟩ hv,
        by rw [nextLine_view]; exact h.unscrolled, ViewInv.zero (by rw [nextLine_view]; exact hv),
        nextLine_history hf.history⟩
    · unfold nextLine
      simp only [if_neg hs, hrow]
      exact ⟨_, hmove (u.1.termRow + 1) 0⟩
  · simp only [hcol, if_neg hw]
    have := hmove t.termRow (u.1.termCol + 1)
    rw [show ({ u.1 with termRow := t.termRow, termCol := u.1.termCol + 1 } : Terminal) =
      { u.1 with termCol := u.1.termCol + 1 } by rw [hrow]] at this
    exact ⟨_, this⟩

/-- A handler scrolls the view, and the live rows stay. -/
theorem irqCall_follows (h : Follows t u) {call : Option TerminalCall}
    (hc : ∀ c, call = some c → IrqCall c) {t' : Terminal} (ht : onTerminal true t call = some t') :
    Follows t' u := by
  have hle := h.view.le
  have hnn := h.view.nonneg
  have hcount := h.history.count
  have h200 : historyLines = 200 := rfl
  cases call with
  | none =>
    cases ht
    exact h
  | some c =>
    obtain ⟨lines, hlines, rfl | rfl⟩ := hc c rfl
    · cases ht
      have h0 : 0 ≤ lines := by omega
      have hint : t.viewScroll + lines < 2 ^ 31 := by omega
      exact ⟨scrollUp_same h.view h.same h0 hint, h.unscrolled, (scrollUp_inv h.view h0 hint).1,
        scrollUp_history h.history _⟩
    · cases ht
      have h0 : 0 ≤ lines := by omega
      have hint : lines < 2 ^ 31 := by omega
      exact ⟨scrollDown_same h.view h.same h0 hint (by omega), h.unscrolled,
        (scrollDown_inv h.view h0 hint (by omega)).1, scrollDown_history h.history lines⟩

theorem onTerminal_false (t : Terminal) (call : Option TerminalCall) :
    onTerminal false t call = some t := by
  cases call with
  | none => rfl
  | some c => rfl

theorem otherCall_view {c : TerminalCall} (h : OtherCall c) (t : Terminal) (fuel : Nat) :
    ViewCall t (fuel, c) := by
  refine ⟨otherCall_any h t fuel, ?_⟩
  rintro lines rfl
  exact absurd h id

/-- A call in one step is made alike. -/
theorem call_follows (h : Follows t u) {c : TerminalCall} (hc : OtherCall c) {t' : Terminal}
    (ht : c.run 0 t = some t') : ∃ t₀' past, c.run 0 u.1 = some t₀' ∧ Follows t' (t₀', past) := by
  obtain ⟨s', hs', hf⟩ := viewCall_follows h (otherCall_view hc t 0) (e := (0, c)) (o := ())
    (by show Option.map _ (c.run 0 t) = _; rw [ht]; rfl)
  have hcall : liveMachine.step u (0, c) =
      (c.run 0 u.1).map fun t => ((), (t, u.2 ++ pushed u.1 c)) := by
    cases c with
    | scrollUp _ | scrollDown _ => exact absurd hc id
    | _ => rfl
  rw [hcall] at hs'
  obtain ⟨t₀', ht₀, heq⟩ := Option.map_eq_some_iff.mp hs'
  cases heq
  exact ⟨t₀', _, ht₀, hf⟩

/-- **One step** that keeps the output. -/
theorem output_step {s s₀ s' : OutputState} (h : SameOutput s s₀) {e : OutputEvent}
    (hl : e.legal s) (hk : KeepsOutput s e) (hs : e.run true s = some s') :
    e.legal s₀ ∧ ∃ s₀', e.run false s₀ = some s₀' ∧ SameOutput s' s₀' := by
  obtain ⟨⟨past, hf⟩, hpc, hkb, hmouse⟩ := h
  cases e with
  | test c =>
    cases hs
    exact ⟨⟨hpc ▸ hl.1, hl.2⟩, _, rfl, ⟨past, leave_follows hf⟩, rfl, hkb, hmouse⟩
  | store =>
    obtain ⟨c, hc⟩ := hl
    have hc₀ : s₀.pc = .store c := hpc ▸ hc
    simp only [OutputEvent.run, hc] at hs
    cases hs
    refine ⟨⟨c, hc₀⟩, { s₀ with term := putCell s₀.term c, pc := .advance }, ?_,
      ⟨past, store_follows hf hk c⟩, rfl, hkb, hmouse⟩
    simp only [OutputEvent.run, hc₀]
  | advance =>
    cases hs
    obtain ⟨past', hf'⟩ := advance_follows hf hk
    exact ⟨hpc.symm.trans hl, _, rfl, ⟨past', hf'⟩, rfl, hkb, hmouse⟩
  | call c =>
    obtain ⟨t', ht, heq⟩ := Option.map_eq_some_iff.mp hs
    cases heq
    obtain ⟨t₀', past', ht₀, hf'⟩ := call_follows hf hl.2 ht
    refine ⟨⟨hpc ▸ hl.1, hl.2⟩, { s₀ with term := t₀' }, ?_, ⟨past', hf'⟩, hpc, hkb, hmouse⟩
    show Option.map _ (c.run 0 s₀.term) = _
    rw [ht₀]
    rfl
  | keyboardIrq scancode =>
    simp only [OutputEvent.run, Option.bind_eq_bind, Option.bind_eq_some_iff] at hs
    obtain ⟨⟨effect, kb⟩, hirq, t', ht, heq⟩ := hs
    cases heq
    refine ⟨trivial, { s₀ with kb }, ?_,
      ⟨past, irqCall_follows hf (fun c hc => keyboardIrq_call hirq hc) ht⟩, hpc, rfl, hmouse⟩
    simp only [OutputEvent.run, ← hkb, hirq, Option.bind_eq_bind, Option.bind_some,
      onTerminal_false]
  | mouseIrq status data =>
    simp only [OutputEvent.run, Option.bind_eq_bind, Option.bind_eq_some_iff] at hs
    obtain ⟨⟨call, mouse⟩, hirq, t', ht, heq⟩ := hs
    cases heq
    refine ⟨trivial, { s₀ with mouse }, ?_, ⟨past, irqCall_follows hf ?_ ht⟩, hpc, hkb, rfl⟩
    · simp only [OutputEvent.run, ← hmouse, hirq, Option.bind_eq_bind, Option.bind_some,
        onTerminal_false]
    · rintro c rfl
      exact mouseIrq_call hirq

/-- **Scrolling from interrupts.**  In every run whose characters are stored, and whose scrolls are
made, with the live rows on the screen, the live rows are those of the same run without the
handlers' calls on the terminal, and on the screen once the view is back at 0.  Every further
step comes back. -/
theorem scrollIrq_keepsOutput {s₀ s : OutputState} (hinit : (outputMachine true).init s₀)
    {es : List OutputEvent} {os : List Unit}
    (h : ((outputMachine true).restrict KeepsOutput).Run s₀ es os s) :
    ∃ q, (outputMachine false).Run s₀ es os q ∧ s.pc = q.pc ∧
      (∀ r < vgaRows, s.term.liveRow r = q.term.row r) ∧
      (s.term.viewScroll = 0 → s.term.rows = q.term.rows) ∧
      ∀ e, (outputMachine true).legal s e → ∃ s', (outputMachine true).step s e = some ((), s') := by
  have hready : DriversReady s := by
    refine h.invariant (I := DriversReady) ?_ ?_
    · intro s e o s' hd hl hs
      obtain ⟨s₁, hrun, hd'⟩ := output_returns hd hl.1
      have hs₁ : (outputMachine true).step s e = some ((), s₁) :=
        congrArg (Option.map fun s => ((), s)) hrun
      rw [show ((outputMachine true).restrict KeepsOutput).step s e =
        (outputMachine true).step s e from rfl, hs₁] at hs
      cases hs
      exact hd'
    · obtain ⟨vga, wheel, rfl⟩ := hinit
      exact ⟨boot_fifoInv.bounds, Mouse.installed_ready wheel⟩
  have hstep : ∀ s q e o s', SameOutput s q → ((outputMachine true).restrict KeepsOutput).legal s e →
      (outputMachine true).step s e = some (o, s') →
        (outputMachine false).legal q e ∧
          ∃ q', (outputMachine false).step q e = some (o, q') ∧ SameOutput s' q' := by
    intro s q e o s' hsame hl hs
    obtain ⟨s₁, hrun, heq⟩ := Option.map_eq_some_iff.mp hs
    cases heq
    obtain ⟨hl', q', hq, hsame'⟩ := output_step hsame hl.1 hl.2 hrun
    refine ⟨hl', q', ?_, hsame'⟩
    show Option.map _ (e.run false q) = _
    rw [hq]
    rfl
  obtain ⟨vga, wheel, rfl⟩ := hinit
  obtain ⟨q, hq, ⟨past, hf⟩, hpc, _, _⟩ := h.simulate hstep
    ⟨⟨[], init_follows vga⟩, rfl, rfl, rfl⟩
  refine ⟨q, hq, hpc, hf.same.live, ?_, ?_⟩
  · intro hz
    unfold Terminal.rows
    apply List.map_congr_left
    intro r hr
    rw [← liveRow_of_zero hz]
    exact hf.same.live r (List.mem_range.mp hr)
  · intro e hl
    obtain ⟨s', hrun, _⟩ := output_returns hready hl
    exact ⟨s', congrArg (Option.map fun s => ((), s)) hrun⟩

/-! ## Page Up around a character -/

def bootOutput : OutputState :=
  ⟨terminalInit (Terminal.boot fun _ => 0), .idle, Keyboard.boot, Mouse.installed false⟩

/-- A row is pushed off; Page Up before an `a`. -/
def keptCharacter : List OutputEvent :=
  [.call (.setcursor 23 0), .call (.putchar (ch '\n')), .keyboardIrq 0xE0, .keyboardIrq 0x49,
    .test (ch 'a'), .store, .advance]

theorem scrollIrq_keepsOutput_pageUp : ∃ (os : List Unit) (s q : OutputState),
    (outputMachine false).Run bootOutput keptCharacter os q ∧ s.term.viewScroll = 0 ∧
      s.term.vgaBuf (23 * 80) = makeVgaEntry (ch 'a') 7 ∧ s.term.rows = q.term.rows := by
  obtain ⟨os, s, hrun, hview, hcell⟩ : ∃ os s,
      ((outputMachine true).restrict KeepsOutput).Run bootOutput keptCharacter os s ∧
        s.term.viewScroll = 0 ∧ s.term.vgaBuf (23 * 80) = makeVgaEntry (ch 'a') 7 := by
    refine ⟨_, _,
      .cons ⟨⟨rfl, trivial⟩, trivial⟩ rfl <|
      .cons ⟨⟨rfl, .inl rfl⟩, trivial⟩ rfl <|
      .cons ⟨trivial, trivial⟩ rfl <|
      .cons ⟨trivial, trivial⟩ rfl <|
      .cons ⟨⟨rfl, by decide, by decide, by decide, by decide⟩, trivial⟩ rfl <|
      .cons ⟨⟨_, rfl⟩, rfl⟩ rfl <|
      .cons ⟨rfl, fun h => absurd h (by decide)⟩ rfl <|
      .nil _, rfl, ?_⟩
    decide +kernel
  obtain ⟨q, hq, _, _, hrows, _⟩ := scrollIrq_keepsOutput ⟨_, _, rfl⟩ hrun
  exact ⟨os, s, q, hq, hview, hcell, hrows hview⟩

/-- Page Up between the test and the store, Page Down when the character is done. -/
def lostCharacter : List OutputEvent :=
  [.call (.setcursor 23 0), .call (.putchar (ch '\n')), .test (ch 'a'), .keyboardIrq 0xE0,
    .keyboardIrq 0x49, .store, .advance, .keyboardIrq 0xE0, .keyboardIrq 0x51]

/-- The `a` is gone. -/
theorem scrollIrq_losesCharacter : ∃ os s q,
    (outputMachine true).Run bootOutput lostCharacter os s ∧
      (outputMachine false).Run bootOutput lostCharacter os q ∧ s.pc = .idle ∧
        s.term.viewScroll = 0 ∧ s.term.row 23 ≠ q.term.row 23 := by
  refine ⟨_, _, _,
    .cons ⟨rfl, trivial⟩ rfl <|
    .cons ⟨rfl, .inl rfl⟩ rfl <|
    .cons ⟨rfl, by decide, by decide, by decide, by decide⟩ rfl <|
    .cons trivial rfl <|
    .cons trivial rfl <|
    .cons ⟨_, rfl⟩ rfl <|
    .cons rfl rfl <|
    .cons trivial rfl <|
    .cons trivial rfl <|
    .nil _,
    .cons ⟨rfl, trivial⟩ rfl <|
    .cons ⟨rfl, .inl rfl⟩ rfl <|
    .cons ⟨rfl, by decide, by decide, by decide, by decide⟩ rfl <|
    .cons trivial rfl <|
    .cons trivial rfl <|
    .cons ⟨_, rfl⟩ rfl <|
    .cons rfl rfl <|
    .cons trivial rfl <|
    .cons trivial rfl <|
    .nil _, rfl, rfl, ?_⟩
  intro hrow
  exact absurd (congrFun hrow ⟨0, by decide⟩) (by decide +kernel)

end MiniOS
