import MiniOS.Interrupts.Drivers
import MiniOS.Screen.ScrollIrq

/-!
# Interrupts in any order

The three drivers share the interrupt controllers and the table, and nothing else.
In any sequence of interrupts that the controllers let through after
`installDrivers`, the tick count is the number of ticks, the keyboard and the mouse
driver are where the bytes of their own interrupts lead, and nothing is left in
service (`interrupts_separate`).
-/

namespace MiniOS

open Lib

/-- The controllers, `timer_ticks` and the statics of the keyboard and the mouse driver. -/
structure Running where
  chips : Chip × Chip
  ticks : UInt32
  kb : Keyboard
  mouse : Mouse

/-- A line, what the stub leaves in the `registers_t`, and what is at the keyboard controller's
ports. -/
structure Interrupt where
  irq : UInt8
  regs : Registers
  status : UInt8
  data : UInt8

def acceptChips (m : Chip × Chip) (irq : UInt8) : Chip × Chip :=
  (m.1.accept (masterLine irq), if irq < 8 then m.2 else m.2.accept (irqLine irq))

/-- The handlers in C, and what they ask of the terminal. -/
def runDriver (s : Running) (e : Interrupt) : Option Driver → Option (Option TerminalCall × Running)
  | none => some (none, s)
  | some .timer => some (none, { s with ticks := s.ticks + 1 })
  | some .keyboard => do
    let (effect, kb) ← keyboardIrqHandler s.kb e.data
    some (effect.call, { s with kb })
  | some .mouse => do
    let (asked, mouse) ← mouseIrqHandler s.mouse e.status e.data
    some (asked, { s with mouse })

/-- One interrupt from its acceptance to its end. -/
def Running.step (idt : Idt Driver) (s : Running) (e : Interrupt) :
    Option (Option TerminalCall × Running) := do
  let (handler, ops) := irqHandler idt e.regs
  let (asked, s) ← runDriver { s with chips := acceptChips s.chips e.irq } e handler
  some (asked, { s with
    chips := (ops.foldl (Chip.op pic1Command pic1Data) s.chips.1,
      ops.foldl (Chip.op pic2Command pic2Data) s.chips.2) })

/-- The handlers the drivers register. -/
def driverHandlers : List (Nat × Driver) := [(32, .timer), (33, .keyboard), (44, .mouse)]

/-- Any interrupts the controllers let through. -/
def interruptMachine (stubAddr : Nat → UInt32) (wheel : Bool) :
    Machine Running Interrupt (Option TerminalCall) where
  init s := s = ⟨readyChips, 0, Keyboard.boot, Mouse.installed wheel⟩
  legal s e := e.irq < 16 ∧ e.irq ≠ 2 ∧ maskedBy s.chips e.irq.toNat = false ∧
    (serviceOf s.chips).Free e.irq ∧ e.regs.intNo = (32 + e.irq.toNat).toUInt32
  step := Running.step (idtWith stubAddr driverHandlers)

/-- The controllers and the drivers between two interrupts. -/
structure Between (s : Running) : Prop where
  masks : ∀ n < 16, maskedBy s.chips n = maskedBy readyChips n
  service : serviceOf s.chips = served []
  ring : s.kb.ring.InBounds
  mouse : s.mouse.Ready

theorem accept_service (m : Chip × Chip) (irq : UInt8) :
    serviceOf (acceptChips m irq) = (serviceOf m).accept irq := by
  refine Prod.ext rfl ?_
  show (if irq < 8 then m.2 else m.2.accept (irqLine irq)).inService = _
  unfold Service.accept
  split
  · rfl
  · rfl

/-- Accepting and ending an interrupt leaves the masks and what was in service. -/
theorem accept_eoi {m : Chip × Chip} {irq : UInt8} (hfree : (serviceOf m).Free irq) :
    let m' := (PicCall.sendEoi irq).onChips (acceptChips m irq)
    serviceOf m' = serviceOf m ∧ ∀ n, maskedBy m' n = maskedBy m n := by
  refine ⟨sendEoi_service (accept_service m irq) hfree, ?_⟩
  intro n
  rw [sendEoi_onChips]
  unfold acceptChips maskedBy
  by_cases h8 : irq < 8
  · simp only [if_pos h8]
    split
    · rfl
    · split
      · rfl
      · rfl
  · simp only [if_neg h8]
    split
    · rfl
    · split
      · rfl
      · rfl

/-- What one interrupt does to the drivers. -/
def Advances (s s' : Running) (e : Interrupt) : Prop :=
  s'.ticks = s.ticks + (if e.irq = 0 then 1 else 0) ∧
    (if e.irq = 1 then (keyboardIrqHandler s.kb e.data).map Prod.snd = some s'.kb else s'.kb = s.kb) ∧
      if e.irq = 12 then (mouseIrqHandler s.mouse e.status e.data).map Prod.snd = some s'.mouse
      else s'.mouse = s.mouse

/-- The handler and the end of the interrupt. -/
theorem irqHandler_eq (stubAddr : Nat → UInt32) {irq : UInt8} (h16 : irq < 16) {regs : Registers}
    (hno : regs.intNo = (32 + irq.toNat).toUInt32) :
    irqHandler (idtWith stubAddr driverHandlers) regs =
      (lastHandler driverHandlers (32 + irq.toNat), picSendEoiOps irq) := by
  have hlt : irq.toNat < 16 := UInt8.lt_iff_toNat_lt.mp h16
  have hv : 32 + irq.toNat < 48 := by omega
  have hnot : ¬ 32 + irq.toNat < 32 := by omega
  have hcalled := calledHandler_eq (idtWith stubAddr driverHandlers) hv hno
  unfold calledHandler dispatcherOf at hcalled
  rw [if_neg hnot, if_neg hnot] at hcalled
  refine Eq.trans hcalled ?_
  rw [(idtWith_handler stubAddr driverHandlers hv).1, Nat.add_sub_cancel_left]
  show (_, picSendEoiOps (UInt8.ofNat irq.toNat)) = _
  rw [UInt8.ofNat_toNat]

/-- The lines the controllers let through are the drivers'. -/
theorem unmasked_irq {irq : UInt8} (h16 : irq < 16) (h2 : irq ≠ 2)
    (hmask : maskedBy readyChips irq.toNat = false) : irq = 0 ∨ irq = 1 ∨ irq = 12 := by
  have hall : ∀ n < 16, n ≠ 2 → maskedBy readyChips n = false → n = 0 ∨ n = 1 ∨ n = 12 := by decide
  have hne : irq.toNat ≠ 2 := fun h => h2 (UInt8.toNat_inj.mp h)
  rcases hall irq.toNat (UInt8.lt_iff_toNat_lt.mp h16) hne hmask with h | h | h
  · exact .inl (UInt8.toNat_inj.mp h)
  · exact .inr (.inl (UInt8.toNat_inj.mp h))
  · exact .inr (.inr (UInt8.toNat_inj.mp h))

/-- The handler of the line comes back and has changed its own statics. -/
theorem runDriver_spec {s : Running} (hring : s.kb.ring.InBounds) (hmouse : s.mouse.Ready)
    {e : Interrupt} (hirq : e.irq = 0 ∨ e.irq = 1 ∨ e.irq = 12) :
    ∃ asked s', runDriver s e (lastHandler driverHandlers (32 + e.irq.toNat)) = some (asked, s') ∧
      s'.chips = s.chips ∧ s'.kb.ring.InBounds ∧ s'.mouse.Ready ∧ Advances s s' e := by
  unfold Advances
  rcases hirq with h | h | h
  · rw [h]
    exact ⟨_, _, rfl, rfl, hring, hmouse, rfl, rfl, rfl⟩
  · obtain ⟨effect, kb, hkb, hring', _⟩ := keyboardIrqHandler_spec hring e.data
    have hrun : runDriver s e (some .keyboard) = some (effect.call, { s with kb }) := by
      unfold runDriver
      rw [hkb]
      rfl
    rw [h]
    refine ⟨_, _, hrun, rfl, hring', hmouse, (UInt32.add_zero _).symm, ?_, rfl⟩
    show (keyboardIrqHandler s.kb e.data).map Prod.snd = some kb
    rw [hkb]
    rfl
  · obtain ⟨asked, mouse, hm, hready⟩ := mouseIrqHandler_spec hmouse e.status e.data
    have hrun : runDriver s e (some .mouse) = some (asked, { s with mouse }) := by
      unfold runDriver
      rw [hm]
      rfl
    rw [h]
    refine ⟨_, _, hrun, rfl, hring, hready, (UInt32.add_zero _).symm, rfl, ?_⟩
    show (mouseIrqHandler s.mouse e.status e.data).map Prod.snd = some mouse
    rw [hm]
    rfl

/-- **One interrupt** comes back, and reaches one driver. -/
theorem interrupt_step {stubAddr : Nat → UInt32} {wheel : Bool} {s : Running} (hs : Between s)
    {e : Interrupt} (hl : (interruptMachine stubAddr wheel).legal s e) :
    ∃ asked s', (interruptMachine stubAddr wheel).step s e = some (asked, s') ∧ Between s' ∧
      Advances s s' e := by
  obtain ⟨h16, h2, hmask, hfree, hno⟩ := hl
  have hlt : e.irq.toNat < 16 := UInt8.lt_iff_toNat_lt.mp h16
  have hirq := unmasked_irq h16 h2 (by rw [← hs.masks _ hlt]; exact hmask)
  obtain ⟨asked, s₁, hrun, hchips, hring, hmouse, hadvances⟩ :=
    runDriver_spec (s := { s with chips := acceptChips s.chips e.irq }) hs.ring hs.mouse hirq
  obtain ⟨hservice, hmasks⟩ := accept_eoi hfree
  have hstep : (interruptMachine stubAddr wheel).step s e = some (asked,
      { s₁ with chips := (PicCall.sendEoi e.irq).onChips (acceptChips s.chips e.irq) }) := by
    show Running.step (idtWith stubAddr driverHandlers) s e = _
    unfold Running.step
    rw [irqHandler_eq stubAddr h16 hno]
    simp only [hrun, Option.bind_eq_bind, Option.bind_some, hchips]
    rfl
  refine ⟨asked, _, hstep, ⟨?_, ?_, hring, hmouse⟩, hadvances⟩
  · intro n hn
    rw [← hs.masks n hn]
    exact hmasks n
  · rw [← hs.service]
    exact hservice

/-- A run from between two interrupts to between two others. -/
theorem run_separate {stubAddr : Nat → UInt32} {wheel : Bool} {s s' : Running} {es : List Interrupt}
    {os : List (Option TerminalCall)} (hs : Between s)
    (h : (interruptMachine stubAddr wheel).Run s es os s') :
    Between s' ∧ s'.ticks = s.ticks + UInt32.ofNat (es.countP (·.irq = 0)) ∧
      (es.filter (·.irq = 1)).foldlM (fun k e => (keyboardIrqHandler k e.data).map Prod.snd) s.kb =
        some s'.kb ∧
      (es.filter (·.irq = 12)).foldlM
        (fun m e => (mouseIrqHandler m e.status e.data).map Prod.snd) s.mouse = some s'.mouse := by
  induction h with
  | nil s => exact ⟨hs, (UInt32.add_zero _).symm, rfl, rfl⟩
  | @cons s s₁ s' e o es os hl hstep hrun ih =>
    obtain ⟨asked, s₂, hstep', hs₂, hticks, hkb, hmouse⟩ := interrupt_step hs hl
    obtain ⟨rfl, rfl⟩ : o = asked ∧ s₁ = s₂ := by
      rw [hstep] at hstep'
      exact Prod.mk.inj (Option.some.inj hstep')
    obtain ⟨hs', ihticks, ihkb, ihmouse⟩ := ih hs₂
    refine ⟨hs', ?_, ?_, ?_⟩
    · rw [ihticks, hticks, List.countP_cons, UInt32.ofNat_add, UInt32.add_assoc,
        UInt32.add_comm (UInt32.ofNat _)]
      by_cases h0 : e.irq = 0
      · simp only [h0, if_true, decide_true]
        rfl
      · simp only [h0, if_false, decide_false]
        rfl
    · by_cases h1 : e.irq = 1
      · rw [if_pos h1] at hkb
        rw [List.filter_cons_of_pos (by simpa using h1), List.foldlM_cons, hkb]
        exact ihkb
      · rw [if_neg h1] at hkb
        rw [List.filter_cons_of_neg (by simpa using h1), ← hkb]
        exact ihkb
    · by_cases h12 : e.irq = 12
      · rw [if_pos h12] at hmouse
        rw [List.filter_cons_of_pos (by simpa using h12), List.foldlM_cons, hmouse]
        exact ihmouse
      · rw [if_neg h12] at hmouse
        rw [List.filter_cons_of_neg (by simpa using h12), ← hmouse]
        exact ihmouse

theorem boot_between (wheel : Bool) :
    Between ⟨readyChips, 0, Keyboard.boot, Mouse.installed wheel⟩ where
  masks _ _ := rfl
  service := rfl
  ring := boot_fifoInv.bounds
  mouse := Mouse.installed_ready wheel

/-- **Interrupts in any order.**  From the end of `installDrivers` on: every interrupt that is let through
comes back; the ticks are counted, modulo 2^32; the keyboard and the mouse driver have seen the bytes
of their own interrupts, in order, and no others; and nothing is left in service. -/
theorem interrupts_separate {stubAddr : Nat → UInt32} {wheel : Bool} {s₀ s : Running}
    {es : List Interrupt} {os : List (Option TerminalCall)}
    (hinit : (interruptMachine stubAddr wheel).init s₀)
    (h : (interruptMachine stubAddr wheel).Run s₀ es os s) :
    s.ticks = UInt32.ofNat (es.countP (·.irq = 0)) ∧
      (es.filter (·.irq = 1)).foldlM (fun k e => (keyboardIrqHandler k e.data).map Prod.snd)
        Keyboard.boot = some s.kb ∧
      (es.filter (·.irq = 12)).foldlM
        (fun m e => (mouseIrqHandler m e.status e.data).map Prod.snd) (Mouse.installed wheel) =
          some s.mouse ∧
      serviceOf s.chips = served [] ∧
      ∀ e, (interruptMachine stubAddr wheel).legal s e →
        ∃ asked s', (interruptMachine stubAddr wheel).step s e = some (asked, s') := by
  obtain rfl := hinit
  obtain ⟨hs, hticks, hkb, hmouse⟩ := run_separate (boot_between wheel) h
  refine ⟨?_, hkb, hmouse, hs.service, ?_⟩
  · rw [hticks]
    exact UInt32.zero_add _
  · intro e hl
    obtain ⟨asked, s', hstep, _⟩ := interrupt_step hs hl
    exact ⟨asked, s', hstep⟩

/-- A tick, the key `A` and a byte of the mouse. -/
def tickKeyMouse : List Interrupt :=
  [⟨0, { someCpu.regs with intNo := 32 }, 0, 0⟩, ⟨1, { someCpu.regs with intNo := 33 }, 0x1D, 0x1E⟩,
    ⟨12, { someCpu.regs with intNo := 44 }, 0x3D, 0x08⟩]

theorem interrupts_separate_tickKeyMouse : ∃ os s,
    (interruptMachine (fun _ => 0) true).Run ⟨readyChips, 0, Keyboard.boot, Mouse.installed true⟩
      tickKeyMouse os s ∧
    s.ticks = 1 ∧ (keyboardIrqHandler Keyboard.boot 0x1E).map Prod.snd = some s.kb ∧
    (mouseIrqHandler (Mouse.installed true) 0x3D 0x08).map Prod.snd = some s.mouse := by
  have hrun : ∃ os s, (interruptMachine (fun _ => 0) true).Run
      ⟨readyChips, 0, Keyboard.boot, Mouse.installed true⟩ tickKeyMouse os s := by
    refine ⟨_, _, .cons ?_ rfl (.cons ?_ rfl (.cons ?_ rfl (.nil _)))⟩
    · exact ⟨by decide, by decide, rfl, ⟨by decide, fun _ => by decide⟩, rfl⟩
    · exact ⟨by decide, by decide, rfl, ⟨by decide, fun _ => by decide⟩, rfl⟩
    · exact ⟨by decide, by decide, rfl, ⟨by decide, fun _ => by decide⟩, rfl⟩
  obtain ⟨os, s, hrun⟩ := hrun
  obtain ⟨hticks, hkb, hmouse, _⟩ := interrupts_separate rfl hrun
  refine ⟨os, s, hrun, hticks, ?_, ?_⟩
  · rw [← hkb]
    rfl
  · rw [← hmouse]
    rfl

end MiniOS
