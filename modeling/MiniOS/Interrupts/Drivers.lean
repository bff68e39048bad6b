import MiniOS.Interrupts.Idt
import MiniOS.Lib.Loop

/-!
# The drivers' set-up (`timer_install`, `keyboard_install`, `mouse_install`)

What `kernel_main` does between the controllers and the shell: the three drivers
program their devices, register their handlers and unmask their lines.  The timer
only writes; the keyboard and the mouse driver also wait for what they read, so they
are functions on whatever is behind the ports.

`drivers_ready`: on any machine with the two interrupt controllers, and whatever the
keyboard controller answers, a line that can interrupt afterwards has a gate and a
handler.
-/

namespace MiniOS

open Lib

/-- `timer_irq_handler`, `keyboard_irq_handler` and `mouse_irq_handler`. -/
inductive Driver where
  | timer | keyboard | mouse
deriving DecidableEq

/-! ## The timer -/

def pitChannel0 : UInt16 := 0x40
def pitCommand : UInt16 := 0x43

/-- `PIT_INTERNAL_FREQ`. -/
def pitInternalFreq : Nat := 1193180

/-- The divisor `timer_install` computes. -/
def timerDivisor (frequency : Nat) : Nat :=
  let divisor := pitInternalFreq / frequency
  let divisor := if divisor > 65535 then 65535 else divisor
  if divisor = 0 then 1 else divisor

def timerOps (frequency : Nat) : List PortOp :=
  let divisor := timerDivisor frequency
  [.out pitCommand 0x36, .out pitChannel0 (UInt8.ofNat (divisor &&& 0xFF)),
    .out pitChannel0 (UInt8.ofNat ((divisor >>> 8) &&& 0xFF))]

/-! ## The keyboard controller -/

def ps2Data : UInt16 := 0x60
def ps2Status : UInt16 := 0x64

section

variable {σ : Type} (P : Ports σ)

/-- One round of the loop that flushes what was typed before. -/
def flushBody (s : σ) : σ ⊕ σ :=
  let (status, s) := P.inb ps2Status s
  if status &&& 1 ≠ 0 then .inl (P.inb ps2Data s).2 else .inr s

/-- There is a byte to read, or one can be written. -/
def mouseReady (write : Bool) (status : UInt8) : Prop :=
  if write then status &&& 2 = 0 else status &&& 1 = 1

instance (write : Bool) (status : UInt8) : Decidable (mouseReady write status) := by
  unfold mouseReady
  infer_instance

/-- `mouse_wait`: until there is a byte, or until one can be written, for at most `timeout` reads. -/
def mouseWait (write : Bool) : Nat → σ → σ
  | 0, s => s
  | timeout + 1, s =>
    let (status, s) := P.inb ps2Status s
    if mouseReady write status then s else mouseWait write timeout s

/-- `int timeout = 100000`. -/
def mouseTimeout : Nat := 100000

def mouseWrite (data : UInt8) (s : σ) : σ :=
  let s := P.outb ps2Status 0xD4 (mouseWait P true mouseTimeout s)
  P.outb ps2Data data (mouseWait P true mouseTimeout s)

def mouseRead (s : σ) : UInt8 × σ := P.inb ps2Data (mouseWait P false mouseTimeout s)

def mouseWriteAck (data : UInt8) (s : σ) : σ := (mouseRead P (mouseWrite P data s)).2

/-- A byte to the controller itself. -/
def controllerWrite (port : UInt16) (data : UInt8) (s : σ) : σ :=
  P.outb port data (mouseWait P true mouseTimeout s)

/-- The first two steps of `mouse_install`: the controller. -/
def mouseConfigure (s : σ) : σ :=
  let s := controllerWrite P ps2Status 0xA8 s
  let s := controllerWrite P ps2Status 0x20 s
  let status := mouseRead P s
  let s := controllerWrite P ps2Status 0x60 status.2
  controllerWrite P ps2Data ((status.1 ||| 2) &&& ~~~0x20) s

/-- `mouse_install` up to the handler: the identity of the mouse, and the machine. -/
def mouseSetup (s : σ) : UInt8 × σ :=
  let s := mouseConfigure P s
  let s := mouseWriteAck P 0xF6 s
  let s := mouseWriteAck P 0xF3 s
  let s := mouseWriteAck P 200 s
  let s := mouseWriteAck P 0xF3 s
  let s := mouseWriteAck P 100 s
  let s := mouseWriteAck P 0xF3 s
  let s := mouseWriteAck P 80 s
  let s := mouseWriteAck P 0xF2 s
  let mouseId := mouseRead P s
  (mouseId.1, mouseWriteAck P 0xF4 mouseId.2)

/-- The bytes to the mouse before its identity is read. -/
def mouseEnable (s : σ) : σ :=
  let s := mouseWriteAck P 0xF6 s
  let s := mouseWriteAck P 200 (mouseWriteAck P 0xF3 s)
  let s := mouseWriteAck P 100 (mouseWriteAck P 0xF3 s)
  let s := mouseWriteAck P 80 (mouseWriteAck P 0xF3 s)
  mouseWriteAck P 0xF2 s

theorem mouseSetup_eq (s : σ) : mouseSetup P s =
    let s₁ := mouseRead P (mouseEnable P (mouseConfigure P s))
    (s₁.1, mouseWriteAck P 0xF4 s₁.2) := rfl

end

/-! ## The installation -/

/-- The machine, the handlers and `mouse_packet_size`. -/
structure Kernel (σ : Type) where
  io : σ
  idt : Idt Driver
  mousePacketSize : Nat

section

variable {σ : Type} (P : Ports σ)

def timerInstall (frequency : Nat) (k : Kernel σ) : Kernel σ :=
  { k with
    idt := idtSetHandler k.idt 32 .timer
    io := P.run (timerOps frequency ++ picUnmaskOps 0) k.io }

/-- `keyboard_install`, its loop for at most `fuel` rounds. -/
def keyboardInstall (fuel : Nat) (k : Kernel σ) : Option (Kernel σ) := do
  let io ← loop (flushBody P) fuel k.io
  some { k with idt := idtSetHandler k.idt 33 .keyboard, io := P.run (picUnmaskOps 1) io }

def mouseInstall (k : Kernel σ) : Kernel σ :=
  let mouse := mouseSetup P k.io
  { io := P.run (picUnmaskOps 12 ++ picUnmaskOps 2) mouse.2
    idt := idtSetHandler k.idt 44 .mouse
    mousePacketSize := if mouse.1 = 3 then 4 else 3 }

/-- The part of `kernel_main` from `idt_install` to `mouse_install`. -/
def installDrivers (stubAddr : Nat → UInt32) (fuel : Nat) (s : σ) : Option (Kernel σ) := do
  let k : Kernel σ := ⟨P.run picInitOps s, idtInstall stubAddr, 3⟩
  let k := timerInstall P 100 k
  let k ← keyboardInstall P fuel k
  some (mouseInstall P k)

end

/-! ## What the keyboard controller does not reach -/

section

variable {σ α : Type} {P : Ports σ} {ports : List UInt16} {f : σ → α} (h : Observes P ports f)
include h

theorem flush_frame {fuel : Nat} {s s' : σ} (hr : loop (flushBody P) fuel s = some s') :
    f s' = f s := by
  induction fuel generalizing s with
  | zero => cases hr
  | succ fuel ih =>
    by_cases hfull : (P.inb ps2Status s).1 &&& 1 ≠ 0
    · rw [loop_next (show flushBody P s = .inl _ from if_pos hfull)] at hr
      rw [ih hr, h.inb, h.inb]
    · rw [loop_done (show flushBody P s = .inr _ from if_neg hfull)] at hr
      cases hr
      exact h.inb _ s

theorem wait_frame (write : Bool) (timeout : Nat) (s : σ) :
    f (mouseWait P write timeout s) = f s := by
  induction timeout generalizing s with
  | zero => rfl
  | succ timeout ih =>
    unfold mouseWait
    simp only
    split
    · exact h.inb _ s
    · rw [ih, h.inb]

theorem read_frame (s : σ) : f (mouseRead P s).2 = f s := by
  unfold mouseRead
  rw [h.inb, wait_frame h]

variable (hdata : ps2Data ∉ ports) (hstatus : ps2Status ∉ ports)
include hdata hstatus

theorem controllerWrite_frame (port : UInt16) (hport : port = ps2Data ∨ port = ps2Status)
    (data : UInt8) (s : σ) : f (controllerWrite P port data s) = f s := by
  unfold controllerWrite
  rcases hport with rfl | rfl
  · rw [h.outb _ hdata, wait_frame h]
  · rw [h.outb _ hstatus, wait_frame h]

theorem writeAck_frame (data : UInt8) (s : σ) : f (mouseWriteAck P data s) = f s := by
  unfold mouseWriteAck mouseWrite
  simp only
  rw [read_frame h, h.outb _ hdata, wait_frame h, h.outb _ hstatus, wait_frame h]

/-- **`mouse_install`** leaves alone what the keyboard controller does not reach. -/
theorem setup_frame (s : σ) : f (mouseSetup P s).2 = f s := by
  have hack := writeAck_frame h hdata hstatus
  have hwrite := fun {port} => controllerWrite_frame h hdata hstatus port
  unfold mouseSetup mouseConfigure
  simp only
  rw [hack, read_frame h, hack, hack, hack, hack, hack, hack, hack, hack, hwrite (.inl rfl),
    hwrite (.inr rfl), read_frame h, hwrite (.inr rfl), hwrite (.inr rfl)]

end

/-! ## After the installation -/

section

variable {σ : Type} {P : Ports σ} (d : Pics P)

def Pics.chips (s : σ) : Chip × Chip := (d.master.chip s, d.slave.chip s)

theorem pics_observes :
    Observes P [pic1Command, pic1Data, pic2Command, pic2Data] d.chips where
  outb port hport v s := by
    simp only [List.mem_cons, List.not_mem_nil, or_false, not_or] at hport
    obtain ⟨h1, h2, h3, h4⟩ := hport
    exact Prod.ext (d.master.observes.outb port (by simp [h1, h2]) v s)
      (d.slave.observes.outb port (by simp [h3, h4]) v s)
  inb port s := Prod.ext (d.master.observes.inb port s) (d.slave.observes.inb port s)

/-- The two controllers after `pic_init` and the drivers' calls. -/
def driversUnmask : List PicCall := [.unmask 0, .unmask 1, .unmask 12, .unmask 2]

def readyChips : Chip × Chip :=
  driversUnmask.foldl (fun m c => c.onChips m)
    (Chip.started pic1Offset 0x04, Chip.started pic2Offset 0x02)

theorem installDrivers_chips {stubAddr : Nat → UInt32} {fuel : Nat} {s : σ} {k : Kernel σ}
    (hr : installDrivers P stubAddr fuel s = some k) : d.chips k.io = readyChips := by
  obtain ⟨k₁, hk₁, hk⟩ := Option.bind_eq_some_iff.mp hr
  obtain ⟨io, hflush, hio⟩ := Option.bind_eq_some_iff.mp hk₁
  cases hio
  cases hk
  have hobs := pics_observes d
  have hinit : d.chips (P.run picInitOps s) =
      (Chip.started pic1Offset 0x04, Chip.started pic2Offset 0x02) :=
    Prod.ext (picInit_run d s).1 (picInit_run d s).2
  have hunmask : ∀ irq s, d.chips (P.run (picUnmaskOps irq) s) =
      (PicCall.unmask irq).onChips (d.chips s) := fun irq s => onChips_run d (.unmask irq) s
  have htimer : ∀ s, d.chips (P.run (timerOps 100) s) = d.chips s := hobs.run (by decide)
  have hflushed : d.chips io =
      (PicCall.unmask 0).onChips (Chip.started pic1Offset 0x04, Chip.started pic2Offset 0x02) := by
    rw [flush_frame hobs hflush]
    show d.chips (P.run (timerOps 100 ++ picUnmaskOps 0) (P.run picInitOps s)) = _
    rw [Ports.run_append, hunmask, htimer, hinit]
  show d.chips (P.run (picUnmaskOps 12 ++ picUnmaskOps 2)
    (mouseSetup P (P.run (picUnmaskOps 1) io)).2) = _
  rw [Ports.run_append, hunmask, hunmask, setup_frame hobs (by decide) (by decide), hunmask, hflushed]
  rfl

theorem installDrivers_idt {stubAddr : Nat → UInt32} {fuel : Nat} {s : σ} {k : Kernel σ}
    (hr : installDrivers P stubAddr fuel s = some k) :
    k.idt = idtWith stubAddr [(32, .timer), (33, .keyboard), (44, .mouse)] := by
  obtain ⟨k₁, hk₁, hk⟩ := Option.bind_eq_some_iff.mp hr
  obtain ⟨io, _, hio⟩ := Option.bind_eq_some_iff.mp hk₁
  cases hio
  cases hk
  rfl

/-- **The drivers are ready.**  Whatever the machine was like, and whatever the keyboard controller
answers: the lines 0, 1, 2 and 12 are not masked, and no other one is; nothing is in service; line 2
is the second controller; and a line that interrupts comes to the CPU with a vector that has a gate
and, but for line 2, a handler. -/
theorem drivers_ready {stubAddr : Nat → UInt32} {fuel : Nat} {s : σ} {k : Kernel σ}
    (hr : installDrivers P stubAddr fuel s = some k) :
    (∀ n < 16, d.masked k.io n = false ↔ n = 0 ∨ n = 1 ∨ n = 2 ∨ n = 12) ∧
      serviceOf (d.chips k.io) = served [] ∧ (d.chips k.io).1.cascade = 0x04 ∧
        ∀ n < 16, n ≠ 2 → d.masked k.io n = false →
          let v := if n < 8 then (d.chips k.io).1.offset.toNat + n
            else (d.chips k.io).2.offset.toNat + (n - 8)
          v < 48 ∧ (k.idt.entries v).present = true ∧ (k.idt.handler v).isSome = true := by
  have hchips := installDrivers_chips d hr
  have hidt := installDrivers_idt hr
  have hmasked : ∀ n, d.masked k.io n = maskedBy readyChips n := by
    intro n
    rw [← hchips]
    rfl
  have hlines : ∀ n < 16, maskedBy readyChips n = false ↔ n = 0 ∨ n = 1 ∨ n = 2 ∨ n = 12 := by decide
  refine ⟨fun n hn => (hmasked n).symm ▸ hlines n hn, by rw [hchips]; rfl, by rw [hchips]; rfl, ?_⟩
  intro n hn h2 hunmasked
  rw [hmasked] at hunmasked
  have hn' := (hlines n hn).mp hunmasked
  have hgate := fun v => (idtInstall_gates (H := Driver) stubAddr v).1
  simp only [hchips]
  have hvector : ∀ v < 48, (lastHandler [(32, Driver.timer), (33, .keyboard), (44, .mouse)] v).isSome →
      v < 48 ∧ (k.idt.entries v).present = true ∧ (k.idt.handler v).isSome = true := by
    intro v hv hsome
    obtain ⟨hhandler, hentries⟩ :=
      idtWith_handler stubAddr [(32, Driver.timer), (33, .keyboard), (44, .mouse)] hv
    rw [hidt, hhandler, hentries]
    exact ⟨hv, (hgate v).mpr hv, hsome⟩
  rcases hn' with rfl | rfl | rfl | rfl
  · exact hvector 32 (by decide) (by decide)
  · exact hvector 33 (by decide) (by decide)
  · exact absurd rfl h2
  · exact hvector 44 (by decide) (by decide)

end

/-- On a machine whose keyboard controller never has or takes a byte, too. -/
theorem drivers_ready_silent : ∃ k : Kernel (Chip × Chip),
    installDrivers picPorts (fun v => UInt32.ofNat v) 1 (halfStarted, halfStarted) = some k ∧
      picPair.masked k.io 12 = false ∧ (k.idt.handler 44).isSome = true := by
  have hstatus : ∀ m, picPorts.inb ps2Status m = (0, m) := by
    intro m
    show ((if ps2Status = pic1Data then _ else if ps2Status = pic2Data then _ else (0 : UInt8)), m) = _
    rw [if_neg (by decide), if_neg (by decide)]
  have hflush : ∀ m : Chip × Chip, loop (flushBody picPorts) 1 m = some m := by
    intro m
    refine loop_done ?_ 0
    unfold flushBody
    rw [hstatus]
    rfl
  have hinstall : ∃ k : Kernel (Chip × Chip),
      installDrivers picPorts (fun v => UInt32.ofNat v) 1 (halfStarted, halfStarted) = some k := by
    unfold installDrivers keyboardInstall
    simp only [hflush]
    exact ⟨_, rfl⟩
  obtain ⟨k, hk⟩ := hinstall
  obtain ⟨hlines, _, _, hready⟩ := drivers_ready picPair hk
  have h12 : picPair.masked k.io 12 = false := (hlines 12 (by decide)).mpr (by decide)
  obtain ⟨_, _, hhandler⟩ := hready 12 (by decide) (by decide) h12
  have hoffset : (picPair.chips k.io).2.offset.toNat + (12 - 8) = 44 := by
    rw [installDrivers_chips picPair hk]
    decide
  refine ⟨k, hk, h12, ?_⟩
  have hvector : (if 12 < 8 then (picPair.chips k.io).1.offset.toNat + 12
      else (picPair.chips k.io).2.offset.toNat + (12 - 8)) = 44 := hoffset
  rw [hvector] at hhandler
  exact hhandler

end MiniOS
