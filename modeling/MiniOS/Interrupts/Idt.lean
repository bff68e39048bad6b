import Mathlib.Data.List.Induction
import MiniOS.Interrupts.Descriptors
import MiniOS.Interrupts.Pic
import MiniOS.Interrupts.Stubs

/-!
# The interrupt descriptor table and its handlers (`kernel/idt.c`)

`idt_install` gives each of the vectors 0 to 47 a gate to its stub, and
`idt_set_handler` a handler in C.  `isr_handler` and `irq_handler`, which the stubs
call, find the handler by the number in the `registers_t`.

`irq_dispatch`: whatever runs when line `irq` interrupts it, the handler registered
last for its vector is called and the interrupt is acknowledged where it has to be.
-/

namespace MiniOS

open Lib

/-- The tables, over the handlers there are. -/
structure Idt (H : Type) where
  entries : Nat → IdtEntry
  irqHandlers : Nat → Option H
  isrHandlers : Nat → Option H

/-- An entry after `memset`. -/
def noGate : IdtEntry := ⟨0, 0, 0, 0, 0⟩

/-- The gates of the stubs at `stubAddr`. -/
def idtGates (stubAddr : Nat → UInt32) : Nat → IdtEntry :=
  (List.range 48).foldl (fun entries n => idtSetGate entries n (stubAddr n) 0x08 0x8E) fun _ => noGate

/-- `idt_install`. -/
def idtInstall {H : Type} (stubAddr : Nat → UInt32) : Idt H where
  entries := idtGates stubAddr
  irqHandlers _ := none
  isrHandlers _ := none

variable {H : Type}

/-- `idt_set_handler`. -/
def idtSetHandler (idt : Idt H) (num : Nat) (handler : H) : Idt H :=
  if num < 32 then { idt with isrHandlers := Function.update idt.isrHandlers num (some handler) }
  else if num < 48 then
    { idt with irqHandlers := Function.update idt.irqHandlers (num - 32) (some handler) }
  else idt

/-- `irq_handler`: the handler it calls, and the accesses to the controllers behind it. -/
def irqHandler (idt : Idt H) (regs : Registers) : Option H × List PortOp :=
  let irqNum := regs.intNo - 32
  (if irqNum < 16 then idt.irqHandlers irqNum.toNat else none, picSendEoiOps irqNum.toUInt8)

/-- `isr_handler`: the handler it calls; `none` is the report of the exception, and the halt. -/
def isrHandler (idt : Idt H) (regs : Registers) : Option H :=
  if regs.intNo < 32 then idt.isrHandlers regs.intNo.toNat else none

/-! ## The gates -/

theorem foldl_idtSetGate (stubAddr : Nat → UInt32) (k : Nat) (n : Nat) :
    (List.range k).foldl (fun entries n => idtSetGate entries n (stubAddr n) 0x08 0x8E)
      (fun _ => noGate) n =
        if n < k then idtSetGate (fun _ => noGate) n (stubAddr n) 0x08 0x8E n else noGate := by
  induction k with
  | zero => rfl
  | succ k ih =>
    rw [List.range_succ, List.foldl_append, List.foldl_cons, List.foldl_nil]
    by_cases hn : n = k
    · rw [hn, if_pos (Nat.lt_succ_self k)]
      unfold idtSetGate
      rw [Function.update_self, Function.update_self]
    · have hother : ∀ entries : Nat → IdtEntry,
          idtSetGate entries k (stubAddr k) 0x08 0x8E n = entries n :=
        fun entries => Function.update_of_ne hn ..
      rw [hother, ih]
      by_cases hlt : n < k
      · rw [if_pos hlt, if_pos (by omega)]
      · rw [if_neg hlt, if_neg (by omega)]

/-- **The gates** of the first 48 vectors lead to their stubs, in the kernel's code segment and with
interrupts disabled; the other vectors have none. -/
theorem idtInstall_gates (stubAddr : Nat → UInt32) (v : Nat) :
    let e := (idtInstall (H := H) stubAddr).entries v
    (e.present = true ↔ v < 48) ∧
      (v < 48 → e.offset = (stubAddr v).toNat ∧ e.sel = 0x08 ∧ e.interruptGate = true) := by
  have hentry : (idtInstall (H := H) stubAddr).entries v = _ := foldl_idtSetGate stubAddr 48 v
  obtain ⟨hoffset, hsel, hflags⟩ := idtSetGate_decodes (fun _ => noGate) v (stubAddr v) 0x08 0x8E
  simp only [hentry]
  by_cases hv : v < 48
  · rw [if_pos hv]
    refine ⟨iff_of_true ?_ hv, fun _ => ⟨hoffset, hsel, ?_⟩⟩
    · unfold IdtEntry.present
      rw [hflags]
      decide
    · unfold IdtEntry.interruptGate
      rw [hflags]
      decide
  · rw [if_neg hv]
    exact ⟨iff_of_false (by decide) hv, fun h => absurd h hv⟩

/-! ## The handlers -/

/-- The table after the drivers have registered their handlers. -/
def idtWith (stubAddr : Nat → UInt32) (handlers : List (Nat × H)) : Idt H :=
  handlers.foldl (fun idt r => idtSetHandler idt r.1 r.2) (idtInstall stubAddr)

/-- The handler registered last for a vector. -/
def lastHandler (handlers : List (Nat × H)) (v : Nat) : Option H :=
  (handlers.reverse.find? fun r => r.1 == v).map Prod.snd

/-- The handler in the table. -/
def Idt.handler (idt : Idt H) (v : Nat) : Option H :=
  if v < 32 then idt.isrHandlers v else idt.irqHandlers (v - 32)

theorem setHandler_handler (idt : Idt H) (num : Nat) (h : H) {v : Nat} (hv : v < 48) :
    (idtSetHandler idt num h).handler v = if v = num then some h else idt.handler v := by
  unfold idtSetHandler Idt.handler
  by_cases h32 : num < 32
  · rw [if_pos h32]
    by_cases hv32 : v < 32
    · simp only [if_pos hv32, Function.update_apply]
    · rw [if_neg hv32, if_neg hv32, if_neg (by omega)]
  · rw [if_neg h32]
    by_cases h48 : num < 48
    · rw [if_pos h48]
      by_cases hv32 : v < 32
      · rw [if_pos hv32, if_pos hv32, if_neg (by omega)]
      · simp only [if_neg hv32, Function.update_apply]
        by_cases heq : v = num
        · rw [if_pos heq, if_pos (by omega)]
        · rw [if_neg heq, if_neg (by omega)]
    · rw [if_neg h48, if_neg (show ¬ v = num by omega)]

theorem setHandler_entries (idt : Idt H) (num : Nat) (h : H) :
    (idtSetHandler idt num h).entries = idt.entries := by
  unfold idtSetHandler
  split
  · rfl
  · split
    · rfl
    · rfl

/-- **`idt_set_handler`**: the last one counts, and the gates stay. -/
theorem idtWith_handler (stubAddr : Nat → UInt32) (handlers : List (Nat × H)) {v : Nat}
    (hv : v < 48) : (idtWith stubAddr handlers).handler v = lastHandler handlers v ∧
      (idtWith stubAddr handlers).entries = idtGates stubAddr := by
  induction handlers using List.reverseRecOn with
  | nil =>
    refine ⟨?_, rfl⟩
    show Idt.handler (idtInstall stubAddr) v = none
    unfold Idt.handler
    split
    · rfl
    · rfl
  | append_singleton handlers r ih =>
    obtain ⟨ih, hentries⟩ := ih
    have hlast : idtWith stubAddr (handlers ++ [r]) =
        idtSetHandler (idtWith stubAddr handlers) r.1 r.2 := List.foldl_append
    rw [hlast, setHandler_handler _ _ _ hv, setHandler_entries, hentries]
    refine ⟨?_, rfl⟩
    unfold lastHandler
    rw [List.reverse_append, List.reverse_singleton, List.singleton_append, List.find?_cons]
    by_cases heq : v = r.1
    · have hbeq : (r.1 == v) = true := beq_iff_eq.mpr heq.symm
      rw [if_pos heq, hbeq]
      rfl
    · have hbeq : (r.1 == v) = false := beq_eq_false_iff_ne.mpr (Ne.symm heq)
      rw [if_neg heq, hbeq]
      exact ih

/-! ## Dispatch -/

/-- What the C function that the stub of vector `v` calls does with the `registers_t`: the handler it
calls, and the accesses to the controllers. -/
def calledHandler (idt : Idt H) (v : Nat) (regs : Registers) : Option H × List PortOp :=
  match dispatcherOf v with
  | .isrHandler => (isrHandler idt regs, [])
  | .irqHandler => irqHandler idt regs

theorem calledHandler_eq (idt : Idt H) {v : Nat} (hv : v < 48) {regs : Registers}
    (hno : regs.intNo = v.toUInt32) : calledHandler idt v regs =
      (idt.handler v, if v < 32 then [] else picSendEoiOps (v - 32).toUInt8) := by
  have hval : regs.intNo.toNat = v := by
    rw [hno]
    exact UInt32.toNat_ofNat_of_lt' (Nat.lt_trans hv (by decide))
  unfold calledHandler dispatcherOf Idt.handler
  by_cases h32 : v < 32
  · have hlt : regs.intNo < 32 := UInt32.lt_iff_toNat_lt.mpr (by rw [hval]; exact h32)
    simp only [if_pos h32]
    unfold isrHandler
    rw [if_pos hlt, hval]
  · have hirq : (regs.intNo - 32).toNat = v - 32 := by
      have hle : (32 : UInt32) ≤ regs.intNo :=
        UInt32.le_iff_toNat_le.mpr (by rw [hval]; exact Nat.not_lt.mp h32)
      rw [UInt32.toNat_sub_of_le _ _ hle, hval]
      rfl
    have hlt : regs.intNo - 32 < 16 := by
      refine UInt32.lt_iff_toNat_lt.mpr ?_
      rw [hirq]
      show v - 32 < 16
      omega
    have hbyte : (regs.intNo - 32).toUInt8 = (v - 32).toUInt8 := by
      apply UInt8.toNat_inj.mp
      rw [UInt32.toNat_toUInt8, hirq]
      rfl
    simp only [if_neg h32]
    unfold irqHandler
    simp only [if_pos hlt, hirq, hbyte]

/-- **An interrupt gets to its handler.**  The CPU finds the stub of the vector through the gate, and
the C function finds the handler registered last in the `registers_t` that the stub has left it; the
controllers are told for the vectors of their lines. -/
theorem interrupt_dispatch (stubAddr : Nat → UInt32) (handlers : List (Nat × H)) {s : Cpu}
    (hlow : 64 ≤ s.stack.sp.toNat) (ret : UInt32) {v : Nat} (hv : v < 48) (err : Option UInt32)
    (he : err.isSome = decide (v ∈ errStubs)) :
    let idt := idtWith stubAddr handlers
    let gate := idt.entries v
    let called := (s.interrupt gate.sel (UInt32.ofNat gate.offset) err).called ret v
    gate.present = true ∧ called.eip = stubAddr v ∧ called.cs = 0x08 ∧
      called.eflags &&& interruptFlag = 0 ∧
        calledHandler idt v called.regs =
          (lastHandler handlers v, if v < 32 then [] else picSendEoiOps (v - 32).toUInt8) := by
  obtain ⟨hhandler, hentries⟩ := idtWith_handler stubAddr handlers hv
  obtain ⟨hpresent, hgate⟩ := idtInstall_gates (H := H) stubAddr v
  obtain ⟨hoffset, hsel, _⟩ := hgate hv
  have haddr : UInt32.ofNat ((idtGates stubAddr v).offset) = stubAddr v := by
    rw [show (idtGates stubAddr v).offset = (stubAddr v).toNat from hoffset, UInt32.ofNat_toNat]
  simp only [hentries]
  refine ⟨hpresent.mpr hv, ?_, ?_, ?_, ?_⟩
  · rw [called_eq s ret _ _ hv he]
    exact haddr
  · rw [called_eq s ret _ _ hv he]
    exact hsel
  · rw [called_eq s ret _ _ hv he]
    show (s.eflags &&& ~~~gateClears) &&& ~~~interruptFlag &&& interruptFlag = 0
    rw [UInt32.and_assoc]
    exact UInt32.and_zero
  · rw [calledHandler_eq _ hv (called_regs hlow ret _ _ hv he).1.1, hhandler]

/-- A tick with two handlers registered, and the timer's the last. -/
theorem interrupt_dispatch_tick :
    calledHandler (idtWith (fun _ => 0) [(32, 1), (33, 2), (32, 3)]) 32
      ((someCpu.interrupt 0x08 0 none).called 0 32).regs = (some 3, [.out pic1Command picEoi]) := by
  have htick := interrupt_dispatch (fun _ => 0) [(32, 1), (33, 2), (32, 3)] (s := someCpu)
    (by decide) 0 (v := 32) (by decide) none (by decide)
  exact htick.2.2.2.2

end MiniOS
