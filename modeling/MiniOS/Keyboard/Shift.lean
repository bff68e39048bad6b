import MiniOS.Lib.HeldKeys
import MiniOS.Keyboard.Irq

/-!
# The Shift keys (`shift_held` in `kernel/keyboard.c`)

Two keys share the one flag `shift_held`.  Nothing but their four scan codes
touches it (`run_shiftHeld`), so it is the `flag` of their presses and releases:
it follows the keys exactly as long as neither is released while the other is
down (`shift_held_follows_iff`).
-/

namespace MiniOS

open Lib

inductive ShiftKey where
  | left
  | right
  deriving DecidableEq

/-- What a scan code says about the Shift keys. -/
def shiftEdge? (scancode : UInt8) : Option (KeyEdge ShiftKey) :=
  if scancode = scancodeLshiftDown then some ⟨.left, true⟩
  else if scancode = scancodeRshiftDown then some ⟨.right, true⟩
  else if scancode = scancodeLshiftUp then some ⟨.left, false⟩
  else if scancode = scancodeRshiftUp then some ⟨.right, false⟩
  else none

def KeyboardEvent.shiftEdge? : KeyboardEvent → Option (KeyEdge ShiftKey)
  | .irq scancode => MiniOS.shiftEdge? scancode
  | .call => none
  | .statement => none

/-- The presses and releases of the Shift keys among the events. -/
def shiftEdges (es : List KeyboardEvent) : List (KeyEdge ShiftKey) :=
  es.filterMap KeyboardEvent.shiftEdge?

/-- The driver with no extended scan code at the port. -/
def unextendedMachine : Machine KeyboardState KeyboardEvent KeyboardOutput :=
  keyboardMachine.restrict fun _ e => e ≠ .irq 0xE0

/-! ## One event -/

/-- Whatever the handler comes to, it has left `shift_held` alone. -/
def KeepsShift (k : Keyboard) (r : Option (IrqEffect × Keyboard)) : Prop :=
  ∀ o k', r = some (o, k') → k'.shiftHeld = k.shiftHeld

theorem KeepsShift.of_eq {k k' : Keyboard} (o : IrqEffect) (h : k'.shiftHeld = k.shiftHeld) :
    KeepsShift k (some (o, k')) := by
  intro o₁ k₁ he
  cases he
  exact h

theorem kbEnqueue_keepsShift (k : Keyboard) (c : UInt8) : KeepsShift k (kbEnqueue k c) := by
  unfold kbEnqueue
  simp only
  split
  · intro o k' h
    obtain ⟨b, _, h⟩ := Option.bind_eq_some_iff.mp h
    cases h
    rfl
  · exact .of_eq _ rfl

theorem irqExtended_keepsShift (k : Keyboard) (scancode : UInt8) :
    KeepsShift k (irqExtended k scancode) := by
  unfold irqExtended
  split
  · split
    · exact .of_eq _ rfl
    · exact kbEnqueue_keepsShift k _
  split
  · split
    · exact .of_eq _ rfl
    · exact kbEnqueue_keepsShift k _
  split
  · exact kbEnqueue_keepsShift k _
  split
  · exact kbEnqueue_keepsShift k _
  split
  · exact .of_eq _ rfl
  split
  · exact .of_eq _ rfl
  · exact .of_eq _ rfl

theorem irqCharacter_keepsShift (k : Keyboard) (scancode : UInt8) :
    KeepsShift k (irqCharacter k scancode) := by
  unfold irqCharacter
  split
  · simp only
    generalize List.getD (if (k.shiftHeld ^^ k.capslockOn) = true then scancodeMapUpper
      else scancodeMapLower) scancode.toNat 0 = c
    split
    · exact .of_eq _ rfl
    · exact kbEnqueue_keepsShift k c
  · exact .of_eq _ rfl

/-- **One interrupt.**  A press sets `shift_held`, a release clears it, and every
other scan code leaves it. -/
theorem keyboardIrqHandler_shiftHeld {k k' : Keyboard} {scancode : UInt8} {o : IrqEffect}
    (h : keyboardIrqHandler k scancode = some (o, k')) :
    k'.shiftHeld = match shiftEdge? scancode with
      | some e => e.down
      | none => k.shiftHeld := by
  unfold keyboardIrqHandler at h
  by_cases he0 : scancode = 0xE0
  · subst he0
    cases h
    rfl
  rw [if_neg he0] at h
  unfold shiftEdge?
  by_cases hld : scancode = scancodeLshiftDown
  · subst hld
    cases h
    rfl
  by_cases hrd : scancode = scancodeRshiftDown
  · subst hrd
    cases h
    rfl
  by_cases hlu : scancode = scancodeLshiftUp
  · subst hlu
    cases h
    rfl
  by_cases hru : scancode = scancodeRshiftUp
  · subst hru
    cases h
    rfl
  simp only [hld, hrd, hlu, hru, or_self, if_false] at h ⊢
  split at h
  · cases h
    rfl
  split at h
  · cases h
    rfl
  split at h
  · cases h
    rfl
  split at h
  · exact irqExtended_keepsShift { k with e0Mode := false } scancode o k' h
  · exact irqCharacter_keepsShift { k with e0Mode := false } scancode o k' h

/-- One event of the driver, the statements of the reader among them. -/
theorem keyboardMachine_step_shiftHeld {s s' : KeyboardState} {e : KeyboardEvent}
    {o : KeyboardOutput} (h : keyboardMachine.step s e = some (o, s')) :
    s'.dev.shiftHeld = match e.shiftEdge? with
      | some e => e.down
      | none => s.dev.shiftHeld := by
  cases e with
  | irq scancode =>
    obtain ⟨r, hr, he⟩ := Option.map_eq_some_iff.mp h
    cases he
    exact keyboardIrqHandler_shiftHeld hr
  | call =>
    cases h
    rfl
  | statement =>
    have hs : getcharStatement s = (o, s') := Option.some.inj h
    unfold getcharStatement at hs
    show s'.dev.shiftHeld = s.dev.shiftHeld
    split at hs
    · cases hs
      rfl
    · cases hs
      split
      · rfl
      · rfl
    · cases hs
      rfl
    · cases hs
      rfl

/-! ## Runs -/

theorem run_shiftHeld {s s' : KeyboardState} {es : List KeyboardEvent} {os : List KeyboardOutput}
    (hr : keyboardMachine.Run s es os s') :
    s'.dev.shiftHeld = (shiftEdges es).foldl (fun _ e => e.down) s.dev.shiftHeld := by
  induction hr with
  | nil s => rfl
  | @cons s s₁ s₂ e o es os _ hs _ ih =>
    rw [ih, keyboardMachine_step_shiftHeld hs]
    unfold shiftEdges
    cases he : e.shiftEdge? with
    | none => rw [List.filterMap_cons_none he]
    | some edge => rw [List.filterMap_cons_some he, List.foldl_cons]

/-- From the boot on, `shift_held` is the flag of the presses and releases. -/
theorem boot_run_shiftHeld {s : KeyboardState} {es : List KeyboardEvent} {os : List KeyboardOutput}
    (hr : keyboardMachine.Run ⟨Keyboard.boot, .idle⟩ es os s) :
    s.dev.shiftHeld = flag (shiftEdges es) := run_shiftHeld hr

/-- **`shift_held` and the keys.**  In a run with no extended scan code,
`shift_held` tells behind every event whether a Shift key is down, exactly when
no Shift key is released while the other one is down. -/
theorem shift_held_follows_iff {s₀ s : KeyboardState} {es : List KeyboardEvent}
    {os : List KeyboardOutput} (h0 : unextendedMachine.init s₀)
    (hr : unextendedMachine.Run s₀ es os s) :
    (∀ es' os' s', es' <+: es → unextendedMachine.Run s₀ es' os' s' →
        (s'.dev.shiftHeld = true ↔ ∃ k, held (shiftEdges es') k = true)) ↔
      ∀ p k, p ++ [⟨k, false⟩] <+: shiftEdges es → ∀ k', held p k' = true → k' = k := by
  have h0' : s₀ = ⟨Keyboard.boot, .idle⟩ := h0
  subst h0'
  rw [← flag_iff_held]
  constructor
  · intro h p hp
    obtain ⟨es', hes', rfl⟩ := List.prefix_filterMap_iff.mp hp
    obtain ⟨rest, rfl⟩ := hes'
    obtain ⟨os₁, _, s₁, _, hr₁, _⟩ := hr.split
    have hs := h es' os₁ s₁ (List.prefix_append _ _) hr₁
    rw [boot_run_shiftHeld hr₁.of_restrict] at hs
    exact hs
  · intro h es' os' s' hes' hr'
    rw [boot_run_shiftHeld hr'.of_restrict]
    exact h _ (hes'.filterMap _)

/-- A run goes on with one more interrupt. -/
theorem unextended_run_irq {s s' : KeyboardState} {scancode : UInt8} {o : IrqEffect} {k : Keyboard}
    {es : List KeyboardEvent} {os : List KeyboardOutput} (h0 : scancode ≠ 0xE0)
    (hk : keyboardIrqHandler s.dev scancode = some (o, k))
    (hr : unextendedMachine.Run { s with dev := k } es os s') :
    unextendedMachine.Run s (.irq scancode :: es) (.irq o :: os) s' := by
  refine Machine.Run.cons ⟨trivial, ?_⟩ ?_ hr
  · intro he
    cases he
    exact h0 rfl
  · show (keyboardIrqHandler s.dev scancode).map _ = _
    rw [hk]
    rfl

/-- Right Shift goes down, `a` is typed, right Shift goes up. -/
theorem shift_held_follows_A :
    ∃ os s, unextendedMachine.Run ⟨Keyboard.boot, .idle⟩ [.irq 0x36, .irq 0x1E, .irq 0xB6] os s ∧
      accepted os = text "A" ∧
      ∀ es' os' s', es' <+: [.irq 0x36, .irq 0x1E, .irq 0xB6] →
        unextendedMachine.Run ⟨Keyboard.boot, .idle⟩ es' os' s' →
        (s'.dev.shiftHeld = true ↔ ∃ k, held (shiftEdges es') k = true) := by
  have hrun : ∃ os s,
      unextendedMachine.Run ⟨Keyboard.boot, .idle⟩ [.irq 0x36, .irq 0x1E, .irq 0xB6] os s ∧
        accepted os = text "A" := by
    apply Exists.intro
    apply Exists.intro
    apply And.intro
    · apply unextended_run_irq (by decide) rfl
      apply unextended_run_irq (by decide) rfl
      apply unextended_run_irq (by decide) rfl
      apply Machine.Run.nil
    · rfl
  obtain ⟨os, s, hr, ha⟩ := hrun
  refine ⟨os, s, hr, ha, (shift_held_follows_iff rfl hr).mpr ?_⟩
  intro p k hp k' hk'
  have hedges : shiftEdges [.irq 0x36, .irq 0x1E, .irq 0xB6] =
      [⟨.right, true⟩, ⟨.right, false⟩] := rfl
  rw [hedges] at hp
  match p with
  | [] => simp at hp
  | [e] =>
    rw [List.singleton_append, List.cons_prefix_cons, List.cons_prefix_cons] at hp
    obtain ⟨rfl, hk, _⟩ := hp
    cases hk
    cases k' with
    | left => exact absurd hk' (by decide)
    | right => rfl
  | e :: e' :: p => simp at hp

/-- Both Shift keys go down and the left one goes up: `shift_held` is 0. -/
theorem shift_held_not_follows :
    ¬ ∀ es os s, unextendedMachine.Run ⟨Keyboard.boot, .idle⟩ es os s →
      (s.dev.shiftHeld = true ↔ ∃ k, held (shiftEdges es) k = true) := by
  intro h
  have hrun : ∃ os s,
      unextendedMachine.Run ⟨Keyboard.boot, .idle⟩ [.irq 0x2A, .irq 0x36, .irq 0xAA] os s ∧
        s.dev.shiftHeld = false := by
    apply Exists.intro
    apply Exists.intro
    apply And.intro
    · apply unextended_run_irq (by decide) rfl
      apply unextended_run_irq (by decide) rfl
      apply unextended_run_irq (by decide) rfl
      apply Machine.Run.nil
    · rfl
  obtain ⟨os, s, hr, hs⟩ := hrun
  have hheld : ∃ k, held (shiftEdges [.irq 0x2A, .irq 0x36, .irq 0xAA]) k = true :=
    ⟨.right, by decide⟩
  rw [(h _ os s hr).mpr hheld] at hs
  cases hs

end MiniOS
