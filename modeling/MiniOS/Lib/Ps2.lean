import MiniOS.Lib.Ports

/-!
# A keyboard controller with a mouse

The controller (an 8042) takes a command at its status port and a byte at its data
port, and passes bytes on to the mouse and back.  Both directions take time: it
takes nothing while its input is full, and what it answers is there only after a
while.  A status read shows both, bit 1 and bit 0.  How long they take is a
parameter, `delay`, counted in status reads.

What a driver gets wrong is a byte written too early, which is lost, and a byte
read too early, which is not there.  A driver that waits for the status is in
lockstep with the part that has no time in it, `Ps2Core` (`Ps2.write_core`,
`Ps2.read_core`).

The mouse answers each byte with an acknowledgement.  A mouse with a wheel changes
its identity, and its packets, when the rates 200, 100 and 80 are set in a row.
-/

namespace Lib

structure PsMouse where
  wheel : Bool
  identity : UInt8
  /-- the rates set, the last one first -/
  rates : List UInt8
  /-- the next byte is a rate -/
  awaitRate : Bool
  reporting : Bool

/-- The bytes of a packet. -/
def PsMouse.packetSize (m : PsMouse) : Nat := if m.identity = 3 then 4 else 3

def PsMouse.ack : UInt8 := 0xFA

/-- The mouse gets a byte and answers. -/
def PsMouse.receive (m : PsMouse) (b : UInt8) : PsMouse × List UInt8 :=
  if m.awaitRate then
    let rates := b :: m.rates
    ({ m with
        rates
        awaitRate := false
        identity := if m.wheel ∧ rates.take 3 = [80, 100, 200] then 3 else m.identity }, [ack])
  else if b = 0xF6 then ({ m with reporting := false }, [ack])
  else if b = 0xF3 then ({ m with awaitRate := true }, [ack])
  else if b = 0xF2 then (m, [ack, m.identity])
  else if b = 0xF4 then ({ m with reporting := true }, [ack])
  else (m, [ack])

/-- Where the next byte at the data port goes. -/
inductive Ps2Await where
  | keyboard | config | mouse
deriving DecidableEq

/-- Everything but the time it takes. -/
structure Ps2Core where
  await : Ps2Await
  config : UInt8
  auxEnabled : Bool
  /-- what is to be read, the next byte first -/
  out : List UInt8
  mouse : PsMouse

/-- A command. -/
def Ps2Core.command (c : Ps2Core) (v : UInt8) : Ps2Core :=
  if v = 0xA8 then { c with auxEnabled := true }
  else if v = 0x20 then { c with out := c.out ++ [c.config] }
  else if v = 0x60 then { c with await := .config }
  else if v = 0xD4 then { c with await := .mouse }
  else c

/-- A byte at the data port. -/
def Ps2Core.data (c : Ps2Core) (v : UInt8) : Ps2Core :=
  match c.await with
  | .keyboard => c
  | .config => { c with await := .keyboard, config := v }
  | .mouse =>
    let (mouse, reply) := c.mouse.receive v
    { c with await := .keyboard, mouse, out := c.out ++ reply }

structure Ps2 where
  core : Ps2Core
  /-- status reads until the next byte is there -/
  readDelay : Nat
  /-- status reads until the input is empty -/
  writeDelay : Nat
  /-- the delays that have been used -/
  time : Nat

/-- Bit 0: there is a byte; bit 1: the input is full. -/
def Ps2.status (s : Ps2) : UInt8 :=
  (if s.core.out ≠ [] ∧ s.readDelay = 0 then 1 else 0) ||| (if s.writeDelay = 0 then 0 else 2)

/-- A byte is taken, if the input is empty, and what it does to `core` is `f`. -/
def Ps2.take (delay : Nat → Nat) (s : Ps2) (f : Ps2Core → Ps2Core) : Ps2 :=
  if s.writeDelay = 0 then
    { core := f s.core, readDelay := delay s.time, writeDelay := delay (s.time + 1), time := s.time + 2 }
  else s

/-- The controller behind its two ports. -/
def ps2Ports (dataPort statusPort : UInt16) (delay : Nat → Nat) : Ports Ps2 where
  outb port v s :=
    if port = statusPort then s.take delay fun c => c.command v
    else if port = dataPort then s.take delay fun c => c.data v
    else s
  inb port s :=
    if port = statusPort then
      (s.status, { s with readDelay := s.readDelay - 1, writeDelay := s.writeDelay - 1 })
    else if port = dataPort then
      match s.core.out with
      | b :: out =>
        if s.readDelay = 0 then
          (b, { s with core := { s.core with out }, readDelay := delay s.time, time := s.time + 1 })
        else (0, s)
      | [] => (0, s)
    else (0, s)

variable {dataPort statusPort : UInt16} {delay : Nat → Nat}

theorem ps2Ports_command (v : UInt8) (s : Ps2) :
    (ps2Ports dataPort statusPort delay).outb statusPort v s = s.take delay fun c => c.command v := by
  show (if statusPort = statusPort then _ else _) = _
  rw [if_pos rfl]

theorem ps2Ports_data (hne : dataPort ≠ statusPort) (v : UInt8) (s : Ps2) :
    (ps2Ports dataPort statusPort delay).outb dataPort v s = s.take delay fun c => c.data v := by
  show (if dataPort = statusPort then _ else if dataPort = dataPort then _ else _) = _
  rw [if_neg hne, if_pos rfl]

theorem ps2Ports_status (s : Ps2) : (ps2Ports dataPort statusPort delay).inb statusPort s =
    (s.status, { s with readDelay := s.readDelay - 1, writeDelay := s.writeDelay - 1 }) := by
  show (if statusPort = statusPort then _ else _) = _
  rw [if_pos rfl]

/-- A byte that is there is read. -/
theorem ps2Ports_read (hne : dataPort ≠ statusPort) {s : Ps2} {b : UInt8} {out : List UInt8}
    (hout : s.core.out = b :: out) (hr : s.readDelay = 0) :
    (ps2Ports dataPort statusPort delay).inb dataPort s =
      (b, { s with core := { s.core with out }, readDelay := delay s.time, time := s.time + 1 }) := by
  show (if dataPort = statusPort then _ else if dataPort = dataPort then
    (match s.core.out with | b :: out => _ | [] => _) else _) = _
  rw [if_neg hne, if_pos rfl, hout]
  exact if_pos hr

/-- Accesses to other ports do not reach the controller. -/
theorem ps2Ports_run_other {ops : List PortOp}
    (hops : ∀ op ∈ ops, op.port ∉ [dataPort, statusPort]) (s : Ps2) :
    (ps2Ports dataPort statusPort delay).run ops s = s := by
  induction ops with
  | nil => rfl
  | cons op ops ih =>
    obtain ⟨hop, hops⟩ := List.forall_mem_cons.mp hops
    simp only [List.mem_cons, List.not_mem_nil, or_false, not_or] at hop
    have hone : (ps2Ports dataPort statusPort delay).op s op = s := by
      cases op with
      | out port v =>
        obtain ⟨hdata, hstatus⟩ : port ≠ dataPort ∧ port ≠ statusPort := hop
        show (if port = statusPort then _ else if port = dataPort then _ else s) = s
        rw [if_neg hstatus, if_neg hdata]
      | update port keep set =>
        obtain ⟨hdata, hstatus⟩ : port ≠ dataPort ∧ port ≠ statusPort := hop
        have hread : (ps2Ports dataPort statusPort delay).inb port s = (0, s) := by
          show (if port = statusPort then _ else if port = dataPort then _ else (0, s)) = _
          rw [if_neg hstatus, if_neg hdata]
        show (ps2Ports dataPort statusPort delay).outb port
          (((ps2Ports dataPort statusPort delay).inb port s).1 &&& keep ||| set)
            ((ps2Ports dataPort statusPort delay).inb port s).2 = s
        rw [hread]
        show (if port = statusPort then _ else if port = dataPort then _ else s) = s
        rw [if_neg hstatus, if_neg hdata]
    rw [Ports.run_cons, hone, ih hops]

end Lib
