import MiniOS.Interrupts.Drivers
import MiniOS.Lib.Ps2

/-!
# The driver and the mouse agree

`mouse_install` asks the mouse for its wheel, and from then on reads packets of the
size it has been told.  With a controller that takes less than 100000 status reads
for anything, every byte gets through, and the driver and the mouse end up with the
same size (`mouse_handshake`).
-/

namespace MiniOS

open Lib

/-- The machine with the controller at its ports. -/
abbrev ps2Machine (delay : Nat → Nat) : Ports Ps2 := ps2Ports ps2Data ps2Status delay

/-- Nothing takes longer than the driver waits. -/
structure Bounded (s : Ps2) : Prop where
  read : s.readDelay < mouseTimeout
  write : s.writeDelay < mouseTimeout

variable {delay : Nat → Nat} {s : Ps2}

theorem ps2Data_ne : ps2Data ≠ ps2Status := by decide

theorem ready_write (s : Ps2) : mouseReady true s.status ↔ s.writeDelay = 0 := by
  unfold mouseReady Ps2.status
  rw [if_pos rfl]
  by_cases hw : s.writeDelay = 0
  · rw [if_pos hw]
    refine iff_of_true ?_ hw
    split
    · decide
    · decide
  · rw [if_neg hw]
    refine iff_of_false ?_ hw
    split
    · decide
    · decide

theorem ready_read (s : Ps2) (hout : s.core.out ≠ []) :
    mouseReady false s.status ↔ s.readDelay = 0 := by
  unfold mouseReady Ps2.status
  rw [if_neg Bool.false_ne_true]
  by_cases hr : s.readDelay = 0
  · rw [if_pos ⟨hout, hr⟩]
    refine iff_of_true ?_ hr
    split
    · decide
    · decide
  · rw [if_neg fun h => hr h.2]
    refine iff_of_false ?_ hr
    split
    · decide
    · decide

/-! ## Waiting -/

section

variable (delay)

/-- **Before a write** the driver waits until the input is empty. -/
theorem wait_write {timeout : Nat} (h : s.writeDelay < timeout) :
    ∃ r ≤ s.readDelay, mouseWait (ps2Machine delay) true timeout s =
      { s with readDelay := r, writeDelay := 0 } := by
  induction timeout generalizing s with
  | zero => exact absurd h (Nat.not_lt_zero _)
  | succ timeout ih =>
    unfold mouseWait
    rw [ps2Ports_status]
    simp only [ready_write]
    by_cases hw : s.writeDelay = 0
    · rw [if_pos hw]
      exact ⟨s.readDelay - 1, Nat.sub_le _ _, by rw [hw]⟩
    · rw [if_neg hw]
      obtain ⟨r, hr, hwait⟩ := ih (s := { s with
        readDelay := s.readDelay - 1, writeDelay := s.writeDelay - 1 }) (show s.writeDelay - 1 < _ by omega)
      exact ⟨r, Nat.le_trans hr (Nat.sub_le _ _), hwait⟩

/-- **Before a read** it waits until there is a byte. -/
theorem wait_read {timeout : Nat} (hout : s.core.out ≠ []) (h : s.readDelay < timeout) :
    ∃ w ≤ s.writeDelay, mouseWait (ps2Machine delay) false timeout s =
      { s with readDelay := 0, writeDelay := w } := by
  induction timeout generalizing s with
  | zero => exact absurd h (Nat.not_lt_zero _)
  | succ timeout ih =>
    unfold mouseWait
    rw [ps2Ports_status]
    simp only [ready_read s hout]
    by_cases hr : s.readDelay = 0
    · rw [if_pos hr]
      exact ⟨s.writeDelay - 1, Nat.sub_le _ _, by rw [hr]⟩
    · rw [if_neg hr]
      obtain ⟨w, hw, hwait⟩ := ih (s := { s with
        readDelay := s.readDelay - 1, writeDelay := s.writeDelay - 1 }) hout
          (show s.readDelay - 1 < _ by omega)
      exact ⟨w, Nat.le_trans hw (Nat.sub_le _ _), hwait⟩

end

/-! ## One byte -/

section

variable (hdelay : ∀ i, delay i < mouseTimeout)
include hdelay

theorem take_core (hw : s.writeDelay = 0) (f : Ps2Core → Ps2Core) :
    (s.take delay f).core = f s.core ∧ Bounded (s.take delay f) := by
  unfold Ps2.take
  rw [if_pos hw]
  exact ⟨rfl, hdelay _, hdelay _⟩

theorem command_core (hb : Bounded s) (v : UInt8) :
    (controllerWrite (ps2Machine delay) ps2Status v s).core = s.core.command v ∧
      Bounded (controllerWrite (ps2Machine delay) ps2Status v s) := by
  obtain ⟨r, _, hwait⟩ := wait_write delay hb.write
  unfold controllerWrite
  rw [hwait, ps2Ports_command]
  exact take_core hdelay (s := { s with readDelay := r, writeDelay := 0 }) rfl _

theorem data_core (hb : Bounded s) (v : UInt8) :
    (controllerWrite (ps2Machine delay) ps2Data v s).core = s.core.data v ∧
      Bounded (controllerWrite (ps2Machine delay) ps2Data v s) := by
  obtain ⟨r, _, hwait⟩ := wait_write delay hb.write
  unfold controllerWrite
  rw [hwait, ps2Ports_data ps2Data_ne]
  exact take_core hdelay (s := { s with readDelay := r, writeDelay := 0 }) rfl _

theorem read_core (hb : Bounded s) {b : UInt8} {out : List UInt8} (hout : s.core.out = b :: out) :
    (mouseRead (ps2Machine delay) s).1 = b ∧
      (mouseRead (ps2Machine delay) s).2.core = { s.core with out } ∧
        Bounded (mouseRead (ps2Machine delay) s).2 := by
  obtain ⟨w, hw, hwait⟩ := wait_read delay (by rw [hout]; exact List.cons_ne_nil _ _) hb.read
  have hinb : mouseRead (ps2Machine delay) s =
      (b, { s with
        core := { s.core with out }
        readDelay := delay s.time
        writeDelay := w
        time := s.time + 1 }) := by
    unfold mouseRead
    rw [hwait]
    exact ps2Ports_read (s := { s with readDelay := 0, writeDelay := w }) ps2Data_ne hout rfl
  rw [hinb]
  exact ⟨rfl, rfl, hdelay _, Nat.lt_of_le_of_lt hw hb.write⟩

omit hdelay in
theorem receive_ack (m : PsMouse) (b : UInt8) :
    (m.receive b).2 = PsMouse.ack :: (m.receive b).2.tail := by
  unfold PsMouse.receive
  simp only
  split
  · rfl
  split
  · rfl
  split
  · rfl
  split
  · rfl
  split
  · rfl
  · rfl

/-- **A byte to the mouse** gets there, and the acknowledgement is taken. -/
theorem writeAck_core (hb : Bounded s) (hout : s.core.out = []) (v : UInt8) :
    (mouseWriteAck (ps2Machine delay) v s).core = { s.core with
        await := .keyboard
        mouse := (s.core.mouse.receive v).1
        out := (s.core.mouse.receive v).2.tail } ∧
      Bounded (mouseWriteAck (ps2Machine delay) v s) := by
  obtain ⟨hcommand, hb₁⟩ := command_core hdelay hb 0xD4
  obtain ⟨hdata, hb₂⟩ := data_core hdelay hb₁ v
  have hawait : s.core.command 0xD4 = { s.core with await := .mouse } := rfl
  have hsent : (mouseWrite (ps2Machine delay) v s).core = { s.core with
      await := .keyboard
      mouse := (s.core.mouse.receive v).1
      out := PsMouse.ack :: (s.core.mouse.receive v).2.tail } := by
    refine hdata.trans ?_
    rw [hcommand, hawait, ← receive_ack]
    show ({ s.core with await := _, mouse := _, out := s.core.out ++ _ } : Ps2Core) = _
    rw [hout]
    rfl
  obtain ⟨_, hcore, hb₃⟩ := read_core hdelay (s := mouseWrite (ps2Machine delay) v s) hb₂
    (congrArg Ps2Core.out hsent)
  refine ⟨?_, hb₃⟩
  show (mouseRead (ps2Machine delay) (mouseWrite (ps2Machine delay) v s)).2.core = _
  rw [hcore, hsent]

/-- The controller between two bytes for the mouse. -/
def idleCore (config : UInt8) (m : PsMouse) : Ps2Core where
  await := .keyboard
  config := config
  auxEnabled := true
  out := []
  mouse := m

/-- **The controller** is told to pass the mouse's interrupts on, and its other bits stay. -/
theorem configure_core (hb : Bounded s) (hout : s.core.out = []) :
    (mouseConfigure (ps2Machine delay) s).core =
        idleCore ((s.core.config ||| 2) &&& ~~~0x20) s.core.mouse ∧
      Bounded (mouseConfigure (ps2Machine delay) s) := by
  obtain ⟨hc1, hb1⟩ := command_core hdelay hb 0xA8
  obtain ⟨hc2, hb2⟩ := command_core hdelay hb1 0x20
  have hout2 : (controllerWrite (ps2Machine delay) ps2Status 0x20
      (controllerWrite (ps2Machine delay) ps2Status 0xA8 s)).core.out = [s.core.config] := by
    rw [hc2, hc1]
    show s.core.out ++ [s.core.config] = _
    rw [hout]
    rfl
  obtain ⟨hconfig, hc3, hb3⟩ := read_core hdelay hb2 hout2
  obtain ⟨hc4, hb4⟩ := command_core hdelay hb3 0x60
  obtain ⟨hc5, hb5⟩ := data_core hdelay hb4 ((s.core.config ||| 2) &&& ~~~0x20)
  unfold mouseConfigure
  simp only [hconfig]
  refine ⟨?_, hb5⟩
  rw [hc5, hc4, hc3, hc2, hc1]
  rfl

theorem ack_idle (hb : Bounded s) {config : UInt8} {m m' : PsMouse} (hs : s.core = idleCore config m)
    (v : UInt8) (hm : m.receive v = (m', [PsMouse.ack])) :
    (mouseWriteAck (ps2Machine delay) v s).core = idleCore config m' ∧
      Bounded (mouseWriteAck (ps2Machine delay) v s) := by
  obtain ⟨hcore, hb'⟩ := writeAck_core hdelay hb (by rw [hs]; rfl) v
  have hmouse : (idleCore config m).mouse.receive v = (m', [PsMouse.ack]) := hm
  refine ⟨?_, hb'⟩
  rw [hcore, hs, hmouse]
  rfl

omit hdelay in
/-- A command, while no rate is awaited. -/
theorem receive_command {m : PsMouse} (hm : m.awaitRate = false) (b : UInt8) : m.receive b =
    if b = 0xF6 then ({ m with reporting := false }, [PsMouse.ack])
    else if b = 0xF3 then ({ m with awaitRate := true }, [PsMouse.ack])
    else if b = 0xF2 then (m, [PsMouse.ack, m.identity])
    else if b = 0xF4 then ({ m with reporting := true }, [PsMouse.ack])
    else (m, [PsMouse.ack]) := by
  have hnot : ¬ m.awaitRate = true := by
    rw [hm]
    exact Bool.false_ne_true
  unfold PsMouse.receive
  rw [if_neg hnot]

/-- The mouse after a rate. -/
def withRate (m : PsMouse) (rate : UInt8) : PsMouse :=
  { m with
    rates := rate :: m.rates
    awaitRate := false
    identity :=
      if m.wheel ∧ (rate :: m.rates).take 3 = [80, 100, 200] then 3 else m.identity }

/-- **A rate** is set in two bytes. -/
theorem rate_idle (hb : Bounded s) {config : UInt8} {m : PsMouse} (hs : s.core = idleCore config m)
    (hm : m.awaitRate = false) (rate : UInt8) :
    (mouseWriteAck (ps2Machine delay) rate (mouseWriteAck (ps2Machine delay) 0xF3 s)).core =
        idleCore config (withRate m rate) ∧
      Bounded (mouseWriteAck (ps2Machine delay) rate (mouseWriteAck (ps2Machine delay) 0xF3 s)) := by
  obtain ⟨hcore, hb'⟩ := ack_idle hdelay hb hs 0xF3 (receive_command hm 0xF3)
  exact ack_idle hdelay hb' hcore rate rfl

omit hdelay in
/-- The rates 200, 100 and 80 show the wheel. -/
theorem withRate_wheel (m : PsMouse) : (withRate (withRate (withRate m 200) 100) 80).identity =
    if m.wheel then 3 else m.identity := by
  have h200 : (200 : UInt8) ≠ 80 := by decide
  have h100 : (100 : UInt8) ≠ 80 := by decide
  unfold withRate
  simp only [List.take_succ_cons, List.take_zero, List.cons.injEq, h200, h100, false_and, and_false,
    if_false, and_true]

/-- **The bytes to the mouse**, up to its identity, which is to be read. -/
theorem enable_core (hb : Bounded s) {config : UInt8} {m : PsMouse} (hs : s.core = idleCore config m)
    (hm : m.awaitRate = false) :
    let m' := withRate (withRate (withRate { m with reporting := false } 200) 100) 80
    (mouseEnable (ps2Machine delay) s).core = { idleCore config m' with out := [m'.identity] } ∧
      Bounded (mouseEnable (ps2Machine delay) s) := by
  obtain ⟨hc1, hb1⟩ := ack_idle hdelay hb hs 0xF6 (receive_command hm 0xF6)
  obtain ⟨hc2, hb2⟩ := rate_idle hdelay hb1 hc1 hm 200
  obtain ⟨hc3, hb3⟩ := rate_idle hdelay hb2 hc2 rfl 100
  obtain ⟨hc4, hb4⟩ := rate_idle hdelay hb3 hc3 rfl 80
  obtain ⟨hc5, hb5⟩ := writeAck_core hdelay hb4 (congrArg Ps2Core.out hc4) 0xF2
  unfold mouseEnable
  refine ⟨?_, hb5⟩
  rw [hc5, hc4]
  rfl

/-- **The set-up**, without its times. -/
theorem setup_core (hb : Bounded s) (hout : s.core.out = [])
    (hrate : s.core.mouse.awaitRate = false) :
    let m := withRate (withRate (withRate { s.core.mouse with reporting := false } 200) 100) 80
    (mouseSetup (ps2Machine delay) s).1 = m.identity ∧
      (mouseSetup (ps2Machine delay) s).2.core =
        idleCore ((s.core.config ||| 2) &&& ~~~0x20) { m with reporting := true } := by
  obtain ⟨hc1, hb1⟩ := configure_core hdelay hb hout
  obtain ⟨hc2, hb2⟩ := enable_core hdelay hb1 hc1 hrate
  obtain ⟨hid, hc3, hb3⟩ := read_core hdelay hb2 (congrArg Ps2Core.out hc2)
  rw [mouseSetup_eq]
  refine ⟨hid, ?_⟩
  rw [hc2] at hc3
  refine (ack_idle hdelay hb3 hc3 0xF4 (receive_command rfl 0xF4)).1

/-- **The driver and the mouse agree.**  With a controller that is slow, but not slower than the driver
waits: the driver reads packets of the size the mouse sends, four bytes exactly where there is a
wheel; the mouse reports, its interrupt is on and its clock runs, and no answer is left over for the
interrupt handler to take for a movement. -/
theorem mouse_handshake {k : Kernel Ps2} (hb : Bounded k.io) (hout : k.io.core.out = [])
    (hrate : k.io.core.mouse.awaitRate = false)
    (hwheel : k.io.core.mouse.identity = 3 → k.io.core.mouse.wheel = true) :
    let k' := mouseInstall (ps2Machine delay) k
    k'.mousePacketSize = k'.io.core.mouse.packetSize ∧
      (k'.mousePacketSize = 4 ↔ k.io.core.mouse.wheel = true) ∧
        k'.io.core.mouse.reporting = true ∧ k'.io.core.out = [] ∧
          k'.io.core.config = (k.io.core.config ||| 2) &&& ~~~0x20 := by
  obtain ⟨hid, hcore⟩ := setup_core hdelay hb hout hrate
  have hshown := withRate_wheel { k.io.core.mouse with reporting := false }
  have hio : (mouseInstall (ps2Machine delay) k).io = (mouseSetup (ps2Machine delay) k.io).2 :=
    ps2Ports_run_other (by decide) _
  have hsize : (mouseInstall (ps2Machine delay) k).mousePacketSize =
      if (mouseSetup (ps2Machine delay) k.io).1 = 3 then 4 else 3 := rfl
  simp only [hio, hsize]
  generalize withRate (withRate (withRate { k.io.core.mouse with reporting := false } 200) 100) 80 = m
    at *
  generalize mouseSetup (ps2Machine delay) k.io = r at *
  rw [hcore, hid]
  refine ⟨rfl, ?_, rfl, rfl, rfl⟩
  rw [hshown]
  by_cases hw : k.io.core.mouse.wheel = true
  · rw [if_pos hw]
    exact iff_of_true rfl hw
  · have h3 : k.io.core.mouse.identity ≠ 3 := fun h => hw (hwheel h)
    rw [if_neg hw, if_neg h3]
    exact iff_of_false (by decide) hw

end

/-- A mouse with a wheel, behind a controller that takes 5 reads for every byte. -/
def wheelMouse : Ps2 where
  core := idleCore 0x21 ⟨true, 0, [], false, false⟩
  readDelay := 0
  writeDelay := 0
  time := 0

theorem mouse_handshake_wheel :
    let k' := mouseInstall (ps2Machine fun _ => 5) ⟨wheelMouse, idtInstall fun _ => 0, 3⟩
    k'.mousePacketSize = 4 ∧ k'.io.core.mouse.packetSize = 4 ∧ k'.io.core.config = 0x03 := by
  have hbounded : Bounded wheelMouse := ⟨by decide, by decide⟩
  have hfive : ∀ i, (fun _ => 5 : Nat → Nat) i < mouseTimeout :=
    fun _ => show 5 < mouseTimeout by decide
  obtain ⟨hsize, hwheel, _, _, hconfig⟩ := mouse_handshake
    (k := ⟨wheelMouse, idtInstall fun _ => 0, 3⟩) hfive hbounded rfl rfl fun _ => rfl
  have hfour := hwheel.mpr rfl
  exact ⟨hfour, hsize.symm.trans hfour, hconfig⟩

end MiniOS
