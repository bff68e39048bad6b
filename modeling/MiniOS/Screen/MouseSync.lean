import MiniOS.Lib.Framing
import MiniOS.Screen.ScrollIrq

/-!
# Mouse packets (`mouse_irq_handler` in `kernel/mouse.c`)

With a wheel the bytes of the mouse are frames of four, the first with bit 3
set.  The handler is a receiver of such frames (`mouseIrqs_receiveAll`) that
looks at the fourth byte of a frame.

After the loss of a byte its packets are cut one byte late, and bit 3 is all it
has to tell: it is in step again once the bytes that it takes for first bytes
have had the bit clear three times (`mouse_resyncs_iff`).  In a stream with bit
3 set in every byte this never happens (`mouse_no_resync`).
-/

namespace MiniOS

open Lib

/-- `data & 0x08`. -/
def startsPacket (data : UInt8) : Bool := data &&& 0x08 ≠ 0

/-- A packet as the mouse sends it. -/
abbrev MousePacket := Frame 4 startsPacket

/-- The byte of the wheel. -/
def MousePacket.wheel (P : MousePacket) : UInt8 := P.symbols.getD 3 0

/-- The interrupts with the bytes at the two ports, and the calls they make. -/
def mouseIrqs (m : Mouse) : List (UInt8 × UInt8) → Option (List TerminalCall × Mouse)
  | [] => some ([], m)
  | (status, data) :: es => do
    let (asked, m) ← mouseIrqHandler m status data
    let (calls, m) ← mouseIrqs m es
    some (asked.toList ++ calls, m)

/-- The bytes that are from the mouse. -/
def received (es : List (UInt8 × UInt8)) : List UInt8 :=
  (es.filter fun e => e.1 &&& 0x20 ≠ 0).map Prod.snd

/-! ## The receiver -/

/-- The handler has the bytes `buf` of a packet. -/
structure Collects (m : Mouse) (buf : List UInt8) : Prop where
  size : m.mousePacketSize = 4
  cycle : m.mouseCycle = buf.length
  room : buf.length < 4
  packet : m.mousePacket.bytes.take buf.length = buf

theorem collects_installed : Collects (Mouse.installed true) [] :=
  ⟨rfl, rfl, by decide, rfl⟩

theorem mouseIrq_receive {m : Mouse} {buf : List UInt8} (h : Collects m buf) {status : UInt8}
    (hstatus : status &&& 0x20 ≠ 0) (data : UInt8) :
    ∃ m', mouseIrqHandler m status data =
        some ((receive 4 startsPacket buf data).2.bind fun F => wheelCall (F.getD 3 0), m') ∧
      Collects m' (receive 4 startsPacket buf data).1 := by
  obtain ⟨hsize, hcycle, hroom, hpacket⟩ := h
  have hsync : (m.mouseCycle = 0 ∧ data &&& 0x08 = 0) ↔ (buf = [] ∧ startsPacket data = false) := by
    simp [hcycle, startsPacket]
  unfold mouseIrqHandler receive
  rw [if_neg hstatus]
  by_cases hdrop : buf = [] ∧ startsPacket data = false
  · rw [if_pos hdrop, if_pos (hsync.mpr hdrop)]
    obtain ⟨rfl, _⟩ := hdrop
    exact ⟨m, rfl, hsize, hcycle, hroom, hpacket⟩
  · rw [if_neg hdrop, if_neg (fun hm => hdrop (hsync.mp hm))]
    obtain ⟨packet, hput, hbytes⟩ := Chars.put_eq (b := m.mousePacket) (i := m.mouseCycle)
      (by omega) data
    have htake : packet.bytes.take (buf.length + 1) = buf ++ [data] := by
      rw [hbytes, hcycle, List.take_add_one, List.take_set_of_le (Nat.le_refl _), hpacket]
      simp [m.mousePacket.length_eq, hroom]
    rw [hcycle] at hput
    simp only [hput, Option.bind_eq_bind, Option.bind_some, hsize, hcycle]
    by_cases hfull : buf.length + 1 = 4
    · have hget : packet.get 3 = (buf ++ [data]).getD 3 0 := by
        rw [← htake, hfull, Chars.get, List.take_of_length_le (by rw [packet.length_eq])]
      rw [if_pos hfull, if_pos hfull, hget]
      exact ⟨_, rfl, rfl, rfl, show 0 < 4 by decide, rfl⟩
    · rw [if_neg hfull, if_neg hfull]
      refine ⟨_, rfl, rfl, ?_, ?_, ?_⟩
      · simp
      · simp
        omega
      · simpa using htake

/-- **The run.**  The handler follows the receiver. -/
theorem mouseIrqs_receiveAll {m : Mouse} {buf : List UInt8} (h : Collects m buf)
    (es : List (UInt8 × UInt8)) :
    ∃ m', mouseIrqs m es =
        some ((receiveAll 4 startsPacket buf (received es)).2.filterMap
          fun F => wheelCall (F.getD 3 0), m') ∧
      Collects m' (receiveAll 4 startsPacket buf (received es)).1 := by
  induction es generalizing m buf with
  | nil => exact ⟨m, rfl, h⟩
  | cons e es ih =>
    obtain ⟨status, data⟩ := e
    by_cases hstatus : status &&& 0x20 = 0
    · obtain ⟨m', hrun, hm'⟩ := ih h
      have hskip : received ((status, data) :: es) = received es := by
        simp [received, hstatus]
      have hirq : mouseIrqHandler m status data = some (none, m) := if_pos hstatus
      rw [hskip, mouseIrqs, hirq]
      exact ⟨m', by simp [hrun], hm'⟩
    · obtain ⟨m₁, hirq, hm₁⟩ := mouseIrq_receive h hstatus data
      obtain ⟨m', hrun, hm'⟩ := ih hm₁
      have htaken : received ((status, data) :: es) = data :: received es := by
        simp [received, hstatus]
      rw [htaken, mouseIrqs, hirq]
      refine ⟨m', ?_, hm'⟩
      simp only [Option.bind_eq_bind, Option.bind_some, hrun, receiveAll, List.filterMap_append]
      cases (receive 4 startsPacket buf data).2 with
      | none => rfl
      | some F =>
        simp only [Option.bind_some, Option.toList_some, List.filterMap_cons, List.filterMap_nil]
        cases wheelCall (F.getD 3 0) with
        | none => rfl
        | some c => rfl

/-! ## In step -/

/-- In step, the handler asks once for each packet with a turn of the wheel. -/
theorem mouseIrqs_inStep {m : Mouse} (h : Collects m []) (more : List MousePacket)
    {Q : MousePacket} {part : List UInt8} (hpart : part <+: Q.symbols) (hlt : part.length < 4)
    {es : List (UInt8 × UInt8)} (hes : received es = more.flatMap Frame.symbols ++ part) :
    ∃ m', mouseIrqs m es = some (more.filterMap fun P => wheelCall P.wheel, m') ∧
      m'.mouseCycle = part.length := by
  obtain ⟨m', hrun, hm'⟩ := mouseIrqs_receiveAll h es
  rw [hes, receiveAll_frames (by decide), receiveAll_part Q hpart hlt] at hrun hm'
  refine ⟨m', ?_, hm'.cycle⟩
  rw [hrun, List.append_nil, List.filterMap_map]
  rfl

/-- The handler behind the loss of a byte. -/
theorem mouseIrqs_lost (before : List MousePacket) (P : MousePacket) (lost : Fin 4)
    (after : List MousePacket) {es : List (UInt8 × UInt8)}
    (hes : received es = before.flatMap Frame.symbols ++
      (P.symbols.eraseIdx lost ++ after.flatMap Frame.symbols)) :
    ∃ calls m buf, mouseIrqs (Mouse.installed true) es = some (calls, m) ∧ Collects m buf ∧
      (m.mouseCycle = 0 ↔ Slips 1 (if lost = 0 then P :: after else after)) := by
  obtain ⟨m, hrun, hm⟩ := mouseIrqs_receiveAll collects_installed es
  refine ⟨_, m, _, hrun, hm, ?_⟩
  have hif : (if lost = 0 then P :: after else after) =
      if lost.val = 0 then P :: after else after := by
    have hzero : lost = 0 ↔ lost.val = 0 := Fin.ext_iff
    simp only [hzero]
  rw [hm.cycle, List.length_eq_zero_iff, hes, hif]
  exact receiveAll_lost_iff (by decide) before P lost.isLt after

/-- Packet `i` has bit 3 clear in its byte `s`. -/
def ClearAt (Ps : List MousePacket) (i s : ℕ) : Prop :=
  ∃ P b, Ps[i]? = some P ∧ P.symbols[s]? = some b ∧ b &&& 0x08 = 0

theorem slips_iff_clearAt (Ps : List MousePacket) :
    Slips 1 Ps ↔ ∃ i₁ i₂ i₃, i₁ ≤ i₂ ∧ i₂ ≤ i₃ ∧
      ClearAt Ps i₁ 1 ∧ ClearAt Ps i₂ 2 ∧ ClearAt Ps i₃ 3 := by
  have hclear : ∀ b, startsPacket b = false ↔ b &&& 0x08 = 0 := by simp [startsPacket]
  unfold Slips ClearAt
  simp only [hclear]
  constructor
  · rintro ⟨f, hmono, hf⟩
    exact ⟨f 1, f 2, f 3, hmono (by decide), hmono (by decide), hf 1 (by decide) (by decide),
      hf 2 (by decide) (by decide), hf 3 (by decide) (by decide)⟩
  · rintro ⟨i₁, i₂, i₃, h12, h23, h1, h2, h3⟩
    refine ⟨fun s => if s ≤ 1 then i₁ else if s = 2 then i₂ else i₃, ?_, ?_⟩
    · intro s t hst
      simp only
      split
      · split
        · omega
        split
        · omega
        · omega
      split
      · rw [if_neg (by omega)]
        split
        · omega
        · omega
      · rw [if_neg (by omega), if_neg (by omega)]
    · intro s hs hlt
      obtain rfl | rfl | rfl : s = 1 ∨ s = 2 ∨ s = 3 := by omega
      · exact h1
      · exact h2
      · exact h3

/-- **A lost byte.**  The handler is in step again behind some packets exactly if these have
bit 3 clear in a second byte, then (or in the same packet) in a third and then in a fourth
byte; the packet with the loss counts if it was its first byte.  It stays in step, and asks
for a scroll once for each packet with a turn of the wheel. -/
theorem mouse_resyncs_iff (before : List MousePacket) (P : MousePacket) (lost : Fin 4)
    (after : List MousePacket) {es : List (UInt8 × UInt8)}
    (hes : received es = before.flatMap Frame.symbols ++
      (P.symbols.eraseIdx lost ++ after.flatMap Frame.symbols)) :
    ∃ calls m, mouseIrqs (Mouse.installed true) es = some (calls, m) ∧
      (m.mouseCycle = 0 ↔
        let Ps := if lost = 0 then P :: after else after
        ∃ i₁ i₂ i₃, i₁ ≤ i₂ ∧ i₂ ≤ i₃ ∧ ClearAt Ps i₁ 1 ∧ ClearAt Ps i₂ 2 ∧ ClearAt Ps i₃ 3) ∧
      (m.mouseCycle = 0 → ∀ (more : List MousePacket) (Q : MousePacket) (part : List UInt8)
        (es' : List (UInt8 × UInt8)), part <+: Q.symbols → part.length < 4 →
          received es' = more.flatMap Frame.symbols ++ part →
            ∃ m', mouseIrqs m es' = some (more.filterMap fun P => wheelCall P.wheel, m') ∧
              m'.mouseCycle = part.length) := by
  obtain ⟨calls, m, buf, hrun, hm, hiff⟩ := mouseIrqs_lost before P lost after hes
  refine ⟨calls, m, hrun, hiff.trans (slips_iff_clearAt _), ?_⟩
  intro h0 more Q part es' hpart hlt hes'
  have hnil : buf = [] := by
    rw [← List.length_eq_zero_iff, ← hm.cycle]
    exact h0
  exact mouseIrqs_inStep (hnil ▸ hm) more hpart hlt hes'

/-- Bytes with the status of the mouse. -/
def fromMouse (l : List UInt8) : List (UInt8 × UInt8) := l.map fun b => (0x20, b)

theorem received_fromMouse (l : List UInt8) : received (fromMouse l) = l := by
  induction l with
  | nil => rfl
  | cons b l ih =>
    rw [received, fromMouse] at ih ⊢
    simpa using ih

/-- A packet without movement or wheel. -/
def restPacket : MousePacket := ⟨[0x08, 0, 0, 0], rfl, by decide +kernel⟩

theorem mouse_resyncs_iff_rest : ∃ calls m,
    mouseIrqs (Mouse.installed true)
      (fromMouse (restPacket.symbols.eraseIdx 2 ++ restPacket.symbols)) = some (calls, m) ∧
        m.mouseCycle = 0 := by
  obtain ⟨calls, m, hrun, hiff, _⟩ := mouse_resyncs_iff [] restPacket 2 [restPacket]
    (received_fromMouse (restPacket.symbols.eraseIdx 2 ++ restPacket.symbols))
  refine ⟨calls, m, hrun, hiff.mpr ⟨0, 0, 0, by decide, by decide, ?_⟩⟩
  exact ⟨⟨restPacket, 0, rfl, rfl, rfl⟩, ⟨restPacket, 0, rfl, rfl, rfl⟩,
    ⟨restPacket, 0, rfl, rfl, rfl⟩⟩

/-- A packet of four bytes with bit 3 set. -/
def busyPacket : MousePacket := ⟨[0x08, 0x08, 0x08, 0x08], rfl, by decide +kernel⟩

/-- No number of packets is enough for all streams. -/
theorem mouse_no_resync : ¬ ∃ K, ∀ (before : List MousePacket) (P : MousePacket) (lost : Fin 4)
    (after : List MousePacket), K ≤ after.length → ∃ k, k ≤ K ∧
      ∀ es, received es = before.flatMap Frame.symbols ++
        (P.symbols.eraseIdx lost ++ (after.take k).flatMap Frame.symbols) →
          ∃ calls m, mouseIrqs (Mouse.installed true) es = some (calls, m) ∧ m.mouseCycle = 0 := by
  rintro ⟨K, hK⟩
  obtain ⟨k, _, hk⟩ := hK [] busyPacket 1 (List.replicate K busyPacket) (by simp)
  have hes := received_fromMouse (([] : List MousePacket).flatMap Frame.symbols ++
    (busyPacket.symbols.eraseIdx 1 ++
      ((List.replicate K busyPacket).take k).flatMap Frame.symbols))
  obtain ⟨calls, m, hrun, h0⟩ := hk _ hes
  obtain ⟨calls', m', _, hrun', _, hiff⟩ := mouseIrqs_lost [] busyPacket 1
    ((List.replicate K busyPacket).take k) hes
  rw [hrun] at hrun'
  cases hrun'
  obtain ⟨f, _, hf⟩ := hiff.mp h0
  obtain ⟨F, a, hF, ha, hclear⟩ := hf 1 (by decide) (by decide)
  have hmem : F ∈ List.replicate K busyPacket := List.mem_of_mem_take (List.mem_of_getElem? hF)
  rw [List.eq_of_mem_replicate hmem] at ha
  obtain rfl : (0x08 : UInt8) = a := Option.some.inj ha
  exact absurd hclear (by decide)

end MiniOS
