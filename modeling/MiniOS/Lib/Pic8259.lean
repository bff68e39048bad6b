import MiniOS.Lib.Ports

/-!
# The 8259A interrupt controller

One chip: eight lines, a mask, the lines that are in service, and the number of the
vector of its first line.  A command with bit 4 set starts an initialisation, after
which the next writes to the data port are not masks but the offset, the cascade
and the mode.  `Pic8259 P cmd data` is such a chip behind two ports.

The end of an interrupt that does not name a line takes the one with the highest
priority, the lowest number, out of service.  That is the line accepted last
(`Chip.eoi_accept`), as a line is only accepted while none of its priority or a
higher one is in service.
-/

namespace Lib

universe u

/-- What the next write to the data port is. -/
inductive Await where
  | mask | offset | cascade | mode
deriving DecidableEq

structure Chip where
  await : Await
  /-- no cascade is awaited -/
  single : Bool
  /-- a mode is awaited -/
  needMode : Bool
  offset : UInt8
  cascade : UInt8
  mode : UInt8
  imr : UInt8
  inService : Fin 8 → Bool

namespace Chip

/-- The in-service line with the lowest number is cleared. -/
def eoi (c : Chip) : Chip :=
  { c with inService := fun i => c.inService i && decide (∃ j < i, c.inService j = true) }

/-- A write to the command port.  Of the commands that are no initialisation only the end of
interrupt that names no line is described. -/
def command (c : Chip) (v : UInt8) : Chip :=
  if v &&& 0x10 ≠ 0 then
    { c with
      await := .offset
      single := v &&& 0x02 ≠ 0
      needMode := v &&& 0x01 ≠ 0
      mode := 0
      imr := 0
      inService := fun _ => false }
  else if v = 0x20 then c.eoi
  else c

def data (c : Chip) (v : UInt8) : Chip :=
  match c.await with
  | .mask => { c with imr := v }
  | .offset =>
    { c with
      offset := v &&& 0xF8
      await := if c.single then if c.needMode then .mode else .mask else .cascade }
  | .cascade => { c with cascade := v, await := if c.needMode then .mode else .mask }
  | .mode => { c with mode := v, await := .mask }

/-- Line `i` is accepted. -/
def accept (c : Chip) (i : Fin 8) : Chip :=
  { c with inService := Function.update c.inService i true }

/-- Nothing of the priority of line `i` or a higher one is in service. -/
def Free (c : Chip) (i : Fin 8) : Prop := ∀ j ≤ i, c.inService j = false

instance (c : Chip) (i : Fin 8) : Decidable (c.Free i) := by
  unfold Free
  infer_instance

/-- **The end of an interrupt** takes the line accepted last out of service. -/
theorem eoi_accept {c : Chip} {i : Fin 8} (h : c.Free i) :
    (c.accept i).eoi.inService = c.inService := by
  funext k
  show (Function.update c.inService i true k &&
    decide (∃ j < k, Function.update c.inService i true j = true)) = c.inService k
  rcases Nat.lt_trichotomy k i with hlt | heq | hgt
  · -- a line of higher priority is not in service
    rw [Function.update_of_ne (Fin.ne_of_lt hlt), h k (Fin.le_of_lt hlt), Bool.false_and]
  · -- the line itself has none before it
    obtain rfl : k = i := Fin.ext heq
    have hfirst : ¬ ∃ j < k, Function.update c.inService k true j = true := by
      rintro ⟨j, hj, hs⟩
      rw [Function.update_of_ne (Fin.ne_of_lt hj), h j (Fin.le_of_lt hj)] at hs
      cases hs
    rw [decide_eq_false hfirst, Bool.and_false, h k (Fin.le_refl k)]
  · have hsome : ∃ j < k, Function.update c.inService i true j = true :=
      ⟨i, hgt, Function.update_self ..⟩
    rw [decide_eq_true hsome, Bool.and_true, Function.update_of_ne (Fin.ne_of_gt hgt)]

/-- What one access to the ports does to the chip. -/
def op (cmd data : UInt16) (c : Chip) : PortOp → Chip
  | .out port v => if port = cmd then c.command v else if port = data then c.data v else c
  | .update port keep set => if port = data then c.data (c.imr &&& keep ||| set) else c

theorem data_mask {c : Chip} (h : c.await = .mask) (v : UInt8) :
    c.data v = { c with imr := v } := by
  unfold data
  rw [h]

end Chip

/-- A chip behind the ports `cmd` and `data`; a read of the data port gives the mask. -/
structure Pic8259 {σ : Type u} (P : Ports σ) (cmd data : UInt16) where
  chip : σ → Chip
  out_cmd : ∀ v s, chip (P.outb cmd v s) = (chip s).command v
  out_data : ∀ v s, chip (P.outb data v s) = (chip s).data v
  read : ∀ s, (P.inb data s).1 = (chip s).imr
  observes : Observes P [cmd, data] chip

variable {σ : Type u} {P : Ports σ} {cmd data : UInt16}

theorem Pic8259.chip_op (d : Pic8259 P cmd data) {op : PortOp}
    (hread : op.reads ≠ some cmd) (s : σ) :
    d.chip (P.op s op) = Chip.op cmd data (d.chip s) op := by
  cases op with
  | out port v =>
    show d.chip (P.outb port v s) = if port = cmd then _ else _
    split
    · rename_i h
      rw [h, d.out_cmd]
    · rename_i hcmd
      split
      · rename_i h
        rw [h, d.out_data]
      · rename_i hdata
        exact d.observes.outb port (by simp [hcmd, hdata]) v s
  | update port keep set =>
    have hcmd : port ≠ cmd := fun h => hread (congrArg some h)
    show d.chip (P.outb port ((P.inb port s).1 &&& keep ||| set) (P.inb port s).2) =
      if port = data then _ else _
    split
    · rename_i h
      rw [h, d.out_data, d.read, d.observes.inb]
    · rename_i hdata
      rw [d.observes.outb port (by simp [hcmd, hdata]), d.observes.inb]

/-- **A chip sees the accesses to its own ports**, whatever else is written in between. -/
theorem Pic8259.chip_run (d : Pic8259 P cmd data) {ops : List PortOp}
    (hread : ∀ op ∈ ops, op.reads ≠ some cmd) (s : σ) :
    d.chip (P.run ops s) = ops.foldl (Chip.op cmd data) (d.chip s) := by
  induction ops generalizing s with
  | nil => rfl
  | cons op ops ih =>
    obtain ⟨hop, hops⟩ := List.forall_mem_cons.mp hread
    rw [Ports.run_cons, ih hops, d.chip_op hop, List.foldl_cons]

end Lib
