import Mathlib.Data.List.Basic
import Mathlib.Data.Nat.Bitwise
import MiniOS.Lib.Machine
import MiniOS.Lib.Pic8259

/-!
# The interrupt controllers (`kernel/pic.c`)

Two 8259A, the second one on line 2 of the first.  Whatever state they are in,
`pic_init` puts their vectors behind those of the exceptions and masks all sixteen
lines; from then on a line is masked as the last `pic_mask_irq` or `pic_unmask_irq`
for it says (`pic_masks`).

`pic_send_eoi` tells the second controller, too, for its lines.  In any nesting of
interrupts this takes exactly the interrupt out of service that has been handled
(`eoi_balanced`).
-/

namespace MiniOS

open Lib

def pic1Command : UInt16 := 0x20
def pic1Data : UInt16 := 0x21
def pic2Command : UInt16 := 0xA0
def pic2Data : UInt16 := 0xA1

/-- `PIC1_OFFSET` and `PIC2_OFFSET`. -/
def pic1Offset : UInt8 := 0x20
def pic2Offset : UInt8 := 0x28

def picEoi : UInt8 := 0x20

/-- `io_wait`. -/
def ioWait : PortOp := .out 0x80 0

def picInitOps : List PortOp :=
  [.out pic1Command 0x11, ioWait, .out pic2Command 0x11, ioWait,
    .out pic1Data pic1Offset, ioWait, .out pic2Data pic2Offset, ioWait,
    .out pic1Data 0x04, ioWait, .out pic2Data 0x02, ioWait,
    .out pic1Data 0x01, ioWait, .out pic2Data 0x01, ioWait,
    .out pic1Data 0xFF, .out pic2Data 0xFF]

def picSendEoiOps (irq : UInt8) : List PortOp :=
  (if irq ≥ 8 then [.out pic2Command picEoi] else []) ++ [.out pic1Command picEoi]

def irqPort (irq : UInt8) : UInt16 := if irq < 8 then pic1Data else pic2Data

/-- `(uint8_t)(1 << irq)`, for the line on its controller. -/
def irqBit (irq : UInt8) : UInt8 := UInt8.ofNat (1 <<< (if irq < 8 then irq else irq - 8).toNat)

def picMaskOps (irq : UInt8) : List PortOp := [.update (irqPort irq) 0xFF (irqBit irq)]

def picUnmaskOps (irq : UInt8) : List PortOp := [.update (irqPort irq) (~~~irqBit irq) 0]

/-- The calls the other drivers make. -/
inductive PicCall where
  | mask (irq : UInt8)
  | unmask (irq : UInt8)
  | sendEoi (irq : UInt8)

def PicCall.ops : PicCall → List PortOp
  | .mask irq => picMaskOps irq
  | .unmask irq => picUnmaskOps irq
  | .sendEoi irq => picSendEoiOps irq

def PicCall.irq : PicCall → UInt8
  | .mask irq | .unmask irq | .sendEoi irq => irq

/-! ## The two controllers -/

/-- The controllers behind their ports. -/
structure Pics {σ : Type} (P : Ports σ) where
  master : Pic8259 P pic1Command pic1Data
  slave : Pic8259 P pic2Command pic2Data

section

variable {σ : Type} {P : Ports σ} (d : Pics P)

/-- What `pic_init` makes of any controller. -/
def Chip.started (offset cascade : UInt8) : Chip where
  await := .mask
  single := false
  needMode := true
  offset := offset
  cascade := cascade
  mode := 1
  imr := 0xFF
  inService _ := false

theorem picInit_master (c : Chip) :
    picInitOps.foldl (Chip.op pic1Command pic1Data) c = Chip.started pic1Offset 0x04 := by
  rfl

theorem picInit_slave (c : Chip) :
    picInitOps.foldl (Chip.op pic2Command pic2Data) c = Chip.started pic2Offset 0x02 := by
  rfl

/-- **`pic_init`**, from whatever state the controllers are in. -/
theorem picInit_run (s : σ) :
    d.master.chip (P.run picInitOps s) = Chip.started pic1Offset 0x04 ∧
      d.slave.chip (P.run picInitOps s) = Chip.started pic2Offset 0x02 := by
  constructor
  · rw [d.master.chip_run (by decide), picInit_master]
  · rw [d.slave.chip_run (by decide), picInit_slave]

/-! ## The masks -/

theorem irqBit_testBit : ∀ irq < 16, ∀ n < 8,
    (irqBit (UInt8.ofNat irq)).toNat.testBit n = decide (n = irq % 8) := by decide

theorem irqBit_not_testBit : ∀ irq < 16, ∀ n < 8,
    (~~~irqBit (UInt8.ofNat irq)).toNat.testBit n = decide (n ≠ irq % 8) := by decide

theorem ones_testBit : ∀ n < 8, (0xFF : UInt8).toNat.testBit n = true := by decide

theorem mask_testBit (m : UInt8) {irq : UInt8} (hirq : irq < 16) {n : Nat} (hn : n < 8) :
    (m &&& 0xFF ||| irqBit irq).toNat.testBit n =
      if n = irq.toNat % 8 then true else m.toNat.testBit n := by
  have hbit := irqBit_testBit irq.toNat (UInt8.lt_iff_toNat_lt.mp hirq) n hn
  rw [UInt8.ofNat_toNat] at hbit
  rw [UInt8.toNat_or, UInt8.toNat_and, Nat.testBit_or, Nat.testBit_and, ones_testBit n hn, hbit]
  split
  · rename_i h
    rw [decide_eq_true h, Bool.or_true]
  · rename_i h
    rw [decide_eq_false h, Bool.or_false, Bool.and_true]

theorem unmask_testBit (m : UInt8) {irq : UInt8} (hirq : irq < 16) {n : Nat} (hn : n < 8) :
    (m &&& ~~~irqBit irq ||| 0).toNat.testBit n =
      if n = irq.toNat % 8 then false else m.toNat.testBit n := by
  have hbit := irqBit_not_testBit irq.toNat (UInt8.lt_iff_toNat_lt.mp hirq) n hn
  have hzero : (0 : UInt8).toNat = 0 := rfl
  rw [UInt8.ofNat_toNat] at hbit
  rw [UInt8.toNat_or, UInt8.toNat_and, Nat.testBit_or, Nat.testBit_and, hbit, hzero,
    Nat.zero_testBit, Bool.or_false]
  split
  · rename_i h
    rw [decide_eq_false (not_not.mpr h), Bool.and_false]
  · rename_i h
    rw [decide_eq_true h, Bool.and_true]

/-- What a call does to the lines that are masked. -/
def PicCall.onMasks (f : Nat → Bool) : PicCall → Nat → Bool
  | .mask irq => Function.update f irq.toNat true
  | .unmask irq => Function.update f irq.toNat false
  | .sendEoi _ => f

theorem PicCall.reads_data (c : PicCall) :
    ∀ op ∈ c.ops, op.reads ≠ some pic1Command ∧ op.reads ≠ some pic2Command := by
  have hport : ∀ irq : UInt8, some (irqPort irq) ≠ some pic1Command ∧
      some (irqPort irq) ≠ some pic2Command := by
    intro irq
    unfold irqPort
    split
    · decide
    · decide
  intro op hop
  cases c with
  | mask irq =>
    rw [List.mem_singleton.mp hop]
    exact hport irq
  | unmask irq =>
    rw [List.mem_singleton.mp hop]
    exact hport irq
  | sendEoi irq =>
    have hout : op.reads = none := by
      rcases List.mem_append.mp hop with hop | hop
      · split at hop
        · rw [List.mem_singleton.mp hop]
          rfl
        · exact absurd hop List.not_mem_nil
      · rw [List.mem_singleton.mp hop]
        rfl
    rw [hout]
    decide

/-- What a call does to the two controllers. -/
def PicCall.onChips (c : PicCall) (m : Chip × Chip) : Chip × Chip :=
  (c.ops.foldl (Chip.op pic1Command pic1Data) m.1, c.ops.foldl (Chip.op pic2Command pic2Data) m.2)

/-- The lines masked by two controllers. -/
def maskedBy (m : Chip × Chip) (n : Nat) : Bool :=
  if n < 8 then m.1.imr.toNat.testBit n else m.2.imr.toNat.testBit (n - 8)

/-- A write to the mask of the controller that has the line. -/
theorem update_onChips (irq : UInt8) {keep set : UInt8} {m : Chip × Chip} (h1 : m.1.await = .mask)
    (h2 : m.2.await = .mask) :
    (Chip.op pic1Command pic1Data m.1 (.update (irqPort irq) keep set),
      Chip.op pic2Command pic2Data m.2 (.update (irqPort irq) keep set)) =
      if irq < 8 then ({ m.1 with imr := m.1.imr &&& keep ||| set }, m.2)
      else (m.1, { m.2 with imr := m.2.imr &&& keep ||| set }) := by
  have h12 : pic1Data ≠ pic2Data := by decide
  unfold irqPort Chip.op
  by_cases hirq : irq < 8
  · simp only [if_pos hirq, if_true, if_neg h12, Chip.data_mask h1]
  · simp only [if_neg hirq, if_true, if_neg h12.symm, Chip.data_mask h2]

/-- Bit `irq % 8` of the right mask is line `irq`. -/
theorem maskedBy_update {irq keep set : UInt8} {b : Bool} (hirq : irq < 16)
    (hbits : ∀ v : UInt8, ∀ n < 8, (v &&& keep ||| set).toNat.testBit n =
      if n = irq.toNat % 8 then b else v.toNat.testBit n) (m : Chip × Chip) {n : Nat} (hn : n < 16) :
    maskedBy (if irq < 8 then ({ m.1 with imr := m.1.imr &&& keep ||| set }, m.2)
      else (m.1, { m.2 with imr := m.2.imr &&& keep ||| set })) n =
        Function.update (maskedBy m) irq.toNat b n := by
  have h16 := UInt8.lt_iff_toNat_lt.mp hirq
  have h16' : (16 : UInt8).toNat = 16 := rfl
  have h8' : (8 : UInt8).toNat = 8 := rfl
  have hlt : irq < 8 ↔ irq.toNat < 8 := UInt8.lt_iff_toNat_lt
  unfold maskedBy
  rw [Function.update_apply]
  by_cases h8 : irq < 8
  · have h8n := hlt.mp h8
    rw [if_pos h8]
    by_cases hn8 : n < 8
    · rw [if_pos hn8, hbits _ _ hn8, Nat.mod_eq_of_lt h8n]
      split
      · rfl
      · rfl
    · rw [if_neg hn8, if_neg (by omega), if_neg hn8]
  · have h8n : ¬ irq.toNat < 8 := fun h => h8 (hlt.mpr h)
    rw [if_neg h8]
    by_cases hn8 : n < 8
    · rw [if_pos hn8, if_neg (by omega), if_pos hn8]
    · rw [if_neg hn8, hbits _ _ (by omega)]
      by_cases hline : n = irq.toNat
      · rw [if_pos (by omega), if_pos hline]
      · rw [if_neg (by omega), if_neg hline, if_neg hn8]

theorem await_update {irq keep set : UInt8} {m : Chip × Chip} (h1 : m.1.await = .mask)
    (h2 : m.2.await = .mask) :
    (if irq < 8 then ({ m.1 with imr := m.1.imr &&& keep ||| set }, m.2)
      else (m.1, { m.2 with imr := m.2.imr &&& keep ||| set })).1.await = .mask ∧
    (if irq < 8 then ({ m.1 with imr := m.1.imr &&& keep ||| set }, m.2)
      else (m.1, { m.2 with imr := m.2.imr &&& keep ||| set })).2.await = .mask := by
  split
  · exact ⟨h1, h2⟩
  · exact ⟨h1, h2⟩

/-- **`pic_send_eoi`** ends an interrupt of the first controller, and for its lines one of the second,
too. -/
theorem sendEoi_onChips (irq : UInt8) (m : Chip × Chip) :
    (PicCall.sendEoi irq).onChips m = (m.1.eoi, if irq ≥ 8 then m.2.eoi else m.2) := by
  show ((picSendEoiOps irq).foldl (Chip.op pic1Command pic1Data) m.1,
    (picSendEoiOps irq).foldl (Chip.op pic2Command pic2Data) m.2) = _
  unfold picSendEoiOps
  by_cases h8 : irq ≥ 8
  · rw [if_pos h8, if_pos h8]
    rfl
  · rw [if_neg h8, if_neg h8]
    rfl

/-- **One call** masks or unmasks its line and no other one. -/
theorem PicCall.onChips_masks {c : PicCall} (hc : c.irq < 16) {m : Chip × Chip}
    (h1 : m.1.await = .mask) (h2 : m.2.await = .mask) :
    ((c.onChips m).1.await = .mask ∧ (c.onChips m).2.await = .mask) ∧
      ∀ n < 16, maskedBy (c.onChips m) n = c.onMasks (maskedBy m) n := by
  cases c with
  | mask irq =>
    have hchips : (PicCall.mask irq).onChips m = _ := update_onChips irq h1 h2
    rw [hchips]
    exact ⟨await_update h1 h2, fun n hn => maskedBy_update hc
      (fun v n hn => mask_testBit v hc hn) m hn⟩
  | unmask irq =>
    have hchips : (PicCall.unmask irq).onChips m = _ := update_onChips irq h1 h2
    rw [hchips]
    exact ⟨await_update h1 h2, fun n hn => maskedBy_update hc
      (fun v n hn => unmask_testBit v hc hn) m hn⟩
  | sendEoi irq =>
    rw [sendEoi_onChips]
    refine ⟨⟨h1, ?_⟩, ?_⟩
    · show (if irq ≥ 8 then m.2.eoi else m.2).await = .mask
      split
      · exact h2
      · exact h2
    · intro n _
      show maskedBy (m.1.eoi, if irq ≥ 8 then m.2.eoi else m.2) n = maskedBy m n
      split
      · rfl
      · rfl

theorem onChips_run (c : PicCall) (s : σ) :
    (d.master.chip (P.run c.ops s), d.slave.chip (P.run c.ops s)) =
      c.onChips (d.master.chip s, d.slave.chip s) := by
  rw [d.master.chip_run fun op hop => (c.reads_data op hop).1,
    d.slave.chip_run fun op hop => (c.reads_data op hop).2]
  rfl

/-- Line `n` of the sixteen is masked. -/
def Pics.masked (s : σ) : Nat → Bool := maskedBy (d.master.chip s, d.slave.chip s)

/-- **The masks.**  After `pic_init` and any calls, a line is masked as the last call for it says, or
because there was none. -/
theorem pic_masks {calls : List PicCall} (hcalls : ∀ c ∈ calls, c.irq < 16) (s : σ) {n : Nat}
    (hn : n < 16) : d.masked (P.run (picInitOps ++ calls.flatMap PicCall.ops) s) n =
      calls.foldl PicCall.onMasks (fun _ => true) n := by
  have hrun : ∀ (calls : List PicCall) (s : σ) (f : Nat → Bool), (∀ c ∈ calls, c.irq < 16) →
      (d.master.chip s).await = .mask → (d.slave.chip s).await = .mask →
      (∀ n < 16, d.masked s n = f n) →
      ∀ n < 16, d.masked (P.run (calls.flatMap PicCall.ops) s) n =
        calls.foldl PicCall.onMasks f n := by
    intro calls
    induction calls with
    | nil => exact fun s f _ _ _ hf => hf
    | cons c calls ih =>
      intro s f hc h1 h2 hf
      obtain ⟨hc, hcs⟩ := List.forall_mem_cons.mp hc
      obtain ⟨⟨h1', h2'⟩, hmasks⟩ := PicCall.onChips_masks hc (m := (d.master.chip s, d.slave.chip s))
        h1 h2
      rw [← onChips_run] at h1' h2' hmasks
      rw [List.flatMap_cons, Ports.run_append, List.foldl_cons]
      refine ih (P.run c.ops s) (c.onMasks f) hcs h1' h2' ?_
      intro n hn
      refine (hmasks n hn).trans ?_
      cases c with
      | mask irq =>
        show Function.update (d.masked s) irq.toNat true n = Function.update f irq.toNat true n
        rw [Function.update_apply, Function.update_apply, hf n hn]
      | unmask irq =>
        show Function.update (d.masked s) irq.toNat false n = Function.update f irq.toNat false n
        rw [Function.update_apply, Function.update_apply, hf n hn]
      | sendEoi irq => exact hf n hn
  obtain ⟨hmaster, hslave⟩ := picInit_run d s
  rw [Ports.run_append]
  refine hrun calls _ _ hcalls (by rw [hmaster]; rfl) (by rw [hslave]; rfl) ?_ n hn
  intro n hn
  unfold Pics.masked
  rw [hmaster, hslave]
  exact (by decide : ∀ n < 16, maskedBy (Chip.started pic1Offset 0x04, Chip.started pic2Offset 0x02) n
    = true) n hn

end

/-- The two controllers alone on the bus. -/
def picPorts : Ports (Chip × Chip) where
  outb port v m :=
    (Chip.op pic1Command pic1Data m.1 (.out port v), Chip.op pic2Command pic2Data m.2 (.out port v))
  inb port m := (if port = pic1Data then m.1.imr else if port = pic2Data then m.2.imr else 0, m)

theorem chip_op_other {cmd data port : UInt16} (hport : port ∉ [cmd, data]) (c : Chip) (v : UInt8) :
    Chip.op cmd data c (.out port v) = c := by
  simp only [List.mem_cons, List.not_mem_nil, or_false, not_or] at hport
  show (if port = cmd then _ else if port = data then _ else c) = c
  rw [if_neg hport.1, if_neg hport.2]

def picPair : Pics picPorts where
  master :=
    { chip := Prod.fst
      out_cmd := fun _ _ => rfl
      out_data := fun _ _ => rfl
      read := fun _ => rfl
      observes := ⟨fun _ hport v m => chip_op_other hport m.1 v, fun _ _ => rfl⟩ }
  slave :=
    { chip := Prod.snd
      out_cmd := fun _ _ => rfl
      out_data := fun _ _ => rfl
      read := fun _ => rfl
      observes := ⟨fun _ hport v m => chip_op_other hport m.2 v, fun _ _ => rfl⟩ }

/-- Controllers that wait for a cascade and a mode. -/
def halfStarted : Chip :=
  { Chip.started 0 0 with await := .cascade, imr := 0 }

/-- Line 12 is unmasked and masked again. -/
def unmaskTwo : List PicCall := [.unmask 0, .unmask 12, .sendEoi 12, .mask 12]

theorem pic_masks_unmaskTwo :
    picPair.masked (picPorts.run (picInitOps ++ unmaskTwo.flatMap PicCall.ops)
        (halfStarted, halfStarted)) 12 = true ∧
      picPair.masked (picPorts.run (picInitOps ++ unmaskTwo.flatMap PicCall.ops)
        (halfStarted, halfStarted)) 0 = false := by
  have hcalls : ∀ c ∈ unmaskTwo, c.irq < 16 := by decide
  rw [pic_masks picPair hcalls _ (by decide), pic_masks picPair hcalls _ (by decide)]
  decide

/-! ## The end of an interrupt -/

/-- The line of its controller. -/
def irqLine (irq : UInt8) : Fin 8 := Fin.ofNat 8 irq.toNat

/-- The line of the first controller, which for the second one's lines is the line it is on. -/
def masterLine (irq : UInt8) : Fin 8 := if irq < 8 then irqLine irq else 2

/-- The lines in service of both controllers. -/
abbrev Service : Type := (Fin 8 → Bool) × (Fin 8 → Bool)

/-- `irq` is accepted. -/
def Service.accept (f : Service) (irq : UInt8) : Service :=
  (Function.update f.1 (masterLine irq) true,
    if irq < 8 then f.2 else Function.update f.2 (irqLine irq) true)

/-- Both controllers can pass `irq` on. -/
def Service.Free (f : Service) (irq : UInt8) : Prop :=
  (∀ j ≤ masterLine irq, f.1 j = false) ∧ (8 ≤ irq → ∀ j ≤ irqLine irq, f.2 j = false)

def serviceOf (m : Chip × Chip) : Service := (m.1.inService, m.2.inService)

inductive PicEvent where
  /-- the CPU takes an interrupt, out of whatever runs -/
  | accept (irq : UInt8)
  /-- the innermost interrupt that is handled gets to its `pic_send_eoi` -/
  | handled
  /-- a driver masks or unmasks a line -/
  | call (c : PicCall)

/-- The controllers, and the interrupts that are handled, the innermost first. -/
def picMachine : Machine ((Chip × Chip) × List UInt8) PicEvent Unit where
  init s := s = ((Chip.started pic1Offset 0x04, Chip.started pic2Offset 0x02), [])
  legal s
    | .accept irq => irq < 16 ∧ irq ≠ 2 ∧ maskedBy s.1 irq.toNat = false ∧ (serviceOf s.1).Free irq
    | .handled => s.2 ≠ []
    | .call c => c.irq < 16 ∧ ∀ irq, c ≠ .sendEoi irq
  step s
    | .accept irq =>
      some ((), ((s.1.1.accept (masterLine irq),
        if irq < 8 then s.1.2 else s.1.2.accept (irqLine irq)), irq :: s.2))
    | .handled =>
      match s.2 with
      | [] => none
      | irq :: rest => some ((), ((PicCall.sendEoi irq).onChips s.1, rest))
    | .call c => some ((), (c.onChips s.1, s.2))

/-- What is in service while the interrupts `irqs` are handled. -/
def served : List UInt8 → Service
  | [] => (fun _ => false, fun _ => false)
  | irq :: irqs => (served irqs).accept irq

/-- Each was accepted while it could be. -/
def Nested : List UInt8 → Prop
  | [] => True
  | irq :: irqs => (served irqs).Free irq ∧ Nested irqs

/-- **`pic_send_eoi`** ends the interrupt accepted last. -/
theorem sendEoi_service {m : Chip × Chip} {f : Service} {irq : UInt8}
    (hm : serviceOf m = f.accept irq) (hfree : f.Free irq) :
    serviceOf ((PicCall.sendEoi irq).onChips m) = f := by
  have heoi : ∀ {c : Chip} {g : Fin 8 → Bool} {i : Fin 8}, c.inService = Function.update g i true →
      (∀ j ≤ i, g j = false) → c.eoi.inService = g := by
    intro c g i hc hg
    have hback := Chip.eoi_accept (c := { c with inService := g }) (i := i) hg
    refine Eq.trans ?_ hback
    show (fun k => c.inService k && decide (∃ j < k, c.inService j = true)) = _
    rw [hc]
    rfl
  obtain ⟨h1, h2⟩ := Prod.mk.inj hm
  rw [sendEoi_onChips]
  refine Prod.ext (heoi h1 hfree.1) ?_
  by_cases h8 : irq < 8
  · have hnot : ¬ irq ≥ 8 := UInt8.not_le.mpr h8
    rw [if_pos h8] at h2
    rw [if_neg hnot]
    exact h2
  · have hge : irq ≥ 8 := UInt8.not_lt.mp h8
    rw [if_neg h8] at h2
    rw [if_pos hge]
    exact heoi h2 (hfree.2 hge)

/-- Masking and unmasking ends nothing. -/
theorem call_service {c : PicCall} (hc : ∀ irq, c ≠ .sendEoi irq) {m : Chip × Chip}
    (h1 : m.1.await = .mask) (h2 : m.2.await = .mask) :
    serviceOf (c.onChips m) = serviceOf m := by
  cases c with
  | mask irq =>
    have hchips : (PicCall.mask irq).onChips m = _ := update_onChips irq h1 h2
    rw [hchips]
    split
    · rfl
    · rfl
  | unmask irq =>
    have hchips : (PicCall.unmask irq).onChips m = _ := update_onChips irq h1 h2
    rw [hchips]
    split
    · rfl
    · rfl
  | sendEoi irq => exact absurd rfl (hc irq)

/-- What holds in every state: the controllers take masks, and serve what is handled. -/
structure PicInv (s : (Chip × Chip) × List UInt8) : Prop where
  master : s.1.1.await = .mask
  slave : s.1.2.await = .mask
  service : serviceOf s.1 = served s.2
  nested : Nested s.2

theorem picInv_step {s s' : (Chip × Chip) × List UInt8} {e : PicEvent} {o : Unit} (hi : PicInv s)
    (hl : picMachine.legal s e) (hs : picMachine.step s e = some (o, s')) : PicInv s' := by
  obtain ⟨h1, h2, hservice, hnested⟩ := hi
  cases e with
  | accept irq =>
    cases hs
    obtain ⟨_, _, _, hfree⟩ := hl
    refine ⟨h1, ?_, ?_, hservice ▸ hfree, hnested⟩
    · show (if irq < 8 then s.1.2 else _).await = .mask
      split
      · exact h2
      · exact h2
    · show _ = (served s.2).accept irq
      rw [← hservice]
      refine Prod.ext rfl ?_
      show (if irq < 8 then s.1.2 else s.1.2.accept (irqLine irq)).inService = _
      unfold Service.accept
      split
      · rfl
      · rfl
  | handled =>
    obtain ⟨m, irqs⟩ := s
    cases irqs with
    | nil => exact absurd rfl hl
    | cons irq irqs =>
      cases hs
      have heoi := sendEoi_service hservice hnested.1
      refine ⟨?_, ?_, heoi, hnested.2⟩
      · rw [sendEoi_onChips]
        exact h1
      · rw [sendEoi_onChips]
        show (if irq ≥ 8 then m.2.eoi else m.2).await = .mask
        split
        · exact h2
        · exact h2
  | call c =>
    cases hs
    obtain ⟨⟨h1', h2'⟩, _⟩ := PicCall.onChips_masks hl.1 h1 h2
    exact ⟨h1', h2', (call_service hl.2 h1 h2).trans hservice, hnested⟩

theorem served_iff (irqs : List UInt8) :
    (∀ i, (served irqs).1 i = true ↔ ∃ irq ∈ irqs, masterLine irq = i) ∧
      ∀ i, (served irqs).2 i = true ↔ ∃ irq ∈ irqs, 8 ≤ irq ∧ irqLine irq = i := by
  induction irqs with
  | nil =>
    have hnone : ∀ {p : UInt8 → Prop}, false = true ↔ ∃ irq ∈ ([] : List UInt8), p irq := by
      intro p
      refine iff_of_false Bool.false_ne_true ?_
      rintro ⟨_, h, _⟩
      exact absurd h List.not_mem_nil
    exact ⟨fun _ => hnone, fun _ => hnone⟩
  | cons irq irqs ih =>
    obtain ⟨ih1, ih2⟩ := ih
    simp only [List.exists_mem_cons_iff, ← ih1, ← ih2]
    constructor
    · intro i
      show Function.update (served irqs).1 (masterLine irq) true i = true ↔ _
      rw [Function.update_apply]
      split
      · rename_i h
        exact iff_of_true rfl (.inl h.symm)
      · rename_i h
        exact ⟨.inr, fun h' => h'.resolve_left fun heq => h heq.symm⟩
    · intro i
      show (if irq < 8 then (served irqs).2
        else Function.update (served irqs).2 (irqLine irq) true) i = true ↔ _
      split
      · rename_i h8
        exact ⟨.inr, fun h' => h'.resolve_left fun hge => absurd h8 (UInt8.not_lt.mpr hge.1)⟩
      · rename_i h8
        rw [Function.update_apply]
        split
        · rename_i h
          exact iff_of_true rfl (.inl ⟨UInt8.not_lt.mp h8, h.symm⟩)
        · rename_i h
          exact ⟨.inr, fun h' => h'.resolve_left fun heq => h heq.2.symm⟩

/-- **Every interrupt is ended.**  In any nesting of interrupts, the lines in service are those of the
interrupts that are being handled. -/
theorem eoi_balanced {m : Chip × Chip} {irqs : List UInt8} (h : picMachine.Reach (m, irqs)) :
    (∀ i, m.1.inService i = true ↔ ∃ irq ∈ irqs, masterLine irq = i) ∧
      ∀ i, m.2.inService i = true ↔ ∃ irq ∈ irqs, 8 ≤ irq ∧ irqLine irq = i := by
  have hinv : PicInv (m, irqs) := by
    refine h.invariant (I := PicInv) ?_ fun s e o s' hi hl hs => picInv_step hi hl hs
    rintro _ rfl
    exact ⟨rfl, rfl, rfl, trivial⟩
  have hservice := hinv.service
  have hserved := served_iff irqs
  rw [← show serviceOf m = served irqs from hservice] at hserved
  exact hserved

/-- The mouse, and a tick in between: when the tick is done the mouse is still in service. -/
def tickInMouse : List PicEvent :=
  [.call (.unmask 0), .call (.unmask 12), .accept 12, .accept 0, .handled]

theorem eoi_balanced_tickInMouse : ∃ m, picMachine.Reach (m, [12]) ∧
    (∀ i, m.1.inService i = true ↔ i = 2) ∧ ∀ i, m.2.inService i = true ↔ i = 4 := by
  have hrun : ∃ os m, picMachine.Run ((Chip.started pic1Offset 0x04, Chip.started pic2Offset 0x02), [])
      tickInMouse os (m, [12]) := by
    refine ⟨_, _, .cons ?_ rfl (.cons ?_ rfl (.cons ?_ rfl (.cons ?_ rfl (.cons ?_ rfl (.nil _)))))⟩
    · exact ⟨by decide, fun _ h => nomatch h⟩
    · exact ⟨by decide, fun _ h => nomatch h⟩
    · refine ⟨by decide, by decide, by decide, ?_⟩
      exact ⟨by decide, fun _ => by decide⟩
    · refine ⟨by decide, by decide, by decide, ?_⟩
      exact ⟨by decide, fun _ => by decide⟩
    · exact fun h => nomatch h
  obtain ⟨os, m, hrun⟩ := hrun
  have hreach : picMachine.Reach (m, [12]) := ⟨_, _, os, rfl, hrun⟩
  obtain ⟨hmaster, hslave⟩ := eoi_balanced hreach
  refine ⟨m, hreach, ?_, ?_⟩
  · intro i
    rw [hmaster i]
    simp only [List.mem_singleton, exists_eq_left]
    exact eq_comm
  · intro i
    rw [hslave i]
    simp only [List.mem_singleton, exists_eq_left]
    exact ⟨fun h => h.2.symm, fun h => ⟨by decide, h.symm⟩⟩

end MiniOS
