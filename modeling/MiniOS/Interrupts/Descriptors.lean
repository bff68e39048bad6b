import Mathlib.Data.Nat.Bitwise

/-!
# Segment descriptors and interrupt gates (`kernel/gdt.c`, `kernel/idt.c`)

The CPU wants a base, a limit and an address in pieces.  `gdt_set_gate` and
`idt_set_gate` take them apart; `GdtEntry.base`, `GdtEntry.limit` and
`IdtEntry.offset` put them together again as the CPU does.
-/

namespace MiniOS

/-- `gdt_entry_t`. -/
structure GdtEntry where
  limitLow : UInt16
  baseLow : UInt16
  baseMiddle : UInt8
  access : UInt8
  granularity : UInt8
  baseHigh : UInt8

/-- `gdt_set_gate`. -/
def gdtSetGate (entries : Nat → GdtEntry) (idx : Nat) (base limit : UInt32) (access gran : UInt8) :
    Nat → GdtEntry :=
  Function.update entries idx
    { limitLow := (limit &&& 0xFFFF).toUInt16
      baseLow := (base &&& 0xFFFF).toUInt16
      baseMiddle := ((base >>> 16) &&& 0xFF).toUInt8
      access := access
      granularity := ((limit >>> 16) &&& 0x0F).toUInt8 ||| (gran &&& 0xF0)
      baseHigh := ((base >>> 24) &&& 0xFF).toUInt8 }

/-- The table `gdt_install` loads. -/
def gdtInstall (entries : Nat → GdtEntry) : Nat → GdtEntry :=
  let entries := gdtSetGate entries 0 0 0 0 0
  let entries := gdtSetGate entries 1 0 0xFFFFFFFF 0x9A 0xCF
  gdtSetGate entries 2 0 0xFFFFFFFF 0x92 0xCF

/-- `idt_entry_t`. -/
structure IdtEntry where
  baseLow : UInt16
  sel : UInt16
  always0 : UInt8
  flags : UInt8
  baseHigh : UInt16

/-- `idt_set_gate`. -/
def idtSetGate (entries : Nat → IdtEntry) (num : Nat) (base : UInt32) (sel : UInt16) (flags : UInt8) :
    Nat → IdtEntry :=
  Function.update entries num
    { baseLow := (base &&& 0xFFFF).toUInt16
      sel := sel
      always0 := 0
      flags := flags
      baseHigh := ((base >>> 16) &&& 0xFFFF).toUInt16 }

/-! ## As the CPU reads them -/

def GdtEntry.base (e : GdtEntry) : Nat :=
  e.baseLow.toNat + e.baseMiddle.toNat * 2 ^ 16 + e.baseHigh.toNat * 2 ^ 24

/-- The 20 bits of the limit. -/
def GdtEntry.limit (e : GdtEntry) : Nat :=
  e.limitLow.toNat + e.granularity.toNat % 16 * 2 ^ 16

/-- `G`: the limit counts pages. -/
def GdtEntry.pages (e : GdtEntry) : Bool := e.granularity.toNat.testBit 7

/-- `D`: a segment of 32-bit code or data. -/
def GdtEntry.big (e : GdtEntry) : Bool := e.granularity.toNat.testBit 6

/-- The last offset in the segment. -/
def GdtEntry.lastOffset (e : GdtEntry) : Nat :=
  if e.pages then e.limit * 2 ^ 12 + (2 ^ 12 - 1) else e.limit

def GdtEntry.present (e : GdtEntry) : Bool := e.access.toNat.testBit 7

/-- The privilege level. -/
def GdtEntry.dpl (e : GdtEntry) : Nat := e.access.toNat / 32 % 4

/-- A code segment. -/
def GdtEntry.executable (e : GdtEntry) : Bool := e.access.toNat.testBit 3

def IdtEntry.offset (e : IdtEntry) : Nat := e.baseLow.toNat + e.baseHigh.toNat * 2 ^ 16

def IdtEntry.present (e : IdtEntry) : Bool := e.flags.toNat.testBit 7

/-- A 32-bit interrupt gate, which disables interrupts. -/
def IdtEntry.interruptGate (e : IdtEntry) : Bool := e.flags.toNat % 32 = 14

/-! ## Round trips -/

theorem lowHalf (w : UInt32) : (w &&& 0xFFFF).toUInt16.toNat = w.toNat % 2 ^ 16 := by
  have h : (65535 : Nat) = 2 ^ 16 - 1 := rfl
  rw [UInt32.toNat_toUInt16, UInt32.toNat_and]
  simp only [UInt32.reduceToNat]
  rw [h, Nat.and_two_pow_sub_one_eq_mod, Nat.mod_mod]

theorem highHalf (w : UInt32) : ((w >>> 16) &&& 0xFFFF).toUInt16.toNat = w.toNat / 2 ^ 16 := by
  have hw := w.toNat_lt
  have h : (65535 : Nat) = 2 ^ 16 - 1 := rfl
  have h16 : (2 : Nat) ^ (16 % 32) = 2 ^ 16 := rfl
  rw [UInt32.toNat_toUInt16, UInt32.toNat_and, UInt32.toNat_shiftRight]
  simp only [UInt32.reduceToNat]
  rw [h, Nat.and_two_pow_sub_one_eq_mod, Nat.mod_mod, Nat.shiftRight_eq_div_pow, h16]
  omega

theorem byteAt (w : UInt32) {k : Nat} (hk : k < 32) :
    ((w >>> UInt32.ofNat k) &&& 0xFF).toUInt8.toNat = w.toNat / 2 ^ k % 2 ^ 8 := by
  have h : (255 : Nat) = 2 ^ 8 - 1 := rfl
  have hk' : (UInt32.ofNat k).toNat = k := UInt32.toNat_ofNat_of_lt' (Nat.lt_trans hk (by decide))
  rw [UInt32.toNat_toUInt8, UInt32.toNat_and, UInt32.toNat_shiftRight, hk', Nat.mod_eq_of_lt hk]
  simp only [UInt32.reduceToNat]
  rw [h, Nat.and_two_pow_sub_one_eq_mod, Nat.mod_mod, Nat.shiftRight_eq_div_pow]

theorem highNibble : ∀ g < 256, g &&& 240 = 2 ^ 4 * (g / 16) := by decide +kernel

/-- The limit's bits and the flags share a byte. -/
theorem granularity_toNat (limit : UInt32) (gran : UInt8) :
    (((limit >>> 16) &&& 0x0F).toUInt8 ||| (gran &&& 0xF0)).toNat =
      limit.toNat / 2 ^ 16 % 16 + gran.toNat / 16 * 16 := by
  have hlow : (15 : Nat) = 2 ^ 4 - 1 := rfl
  have h16 : (2 : Nat) ^ (16 % 32) = 2 ^ 16 := rfl
  have hmod : limit.toNat / 2 ^ 16 % 2 ^ 4 < 2 ^ 8 :=
    Nat.lt_trans (Nat.mod_lt _ (by decide)) (by decide)
  rw [UInt8.toNat_or, UInt8.toNat_and, UInt32.toNat_toUInt8, UInt32.toNat_and,
    UInt32.toNat_shiftRight]
  simp only [UInt8.reduceToNat, UInt32.reduceToNat]
  rw [hlow, Nat.and_two_pow_sub_one_eq_mod, highNibble _ gran.toNat_lt, Nat.shiftRight_eq_div_pow,
    h16, Nat.mod_eq_of_lt hmod, Nat.or_comm,
    ← Nat.two_pow_add_eq_or_of_lt (Nat.mod_lt _ (by decide))]
  omega

/-- **A segment descriptor** gives back what it was made of: the base, the low 20 bits of the limit,
the access byte and the flags. -/
theorem gdtSetGate_decodes (entries : Nat → GdtEntry) (idx : Nat) (base limit : UInt32)
    (access gran : UInt8) :
    let e := gdtSetGate entries idx base limit access gran idx
    e.base = base.toNat ∧ e.limit = limit.toNat % 2 ^ 20 ∧ e.access = access ∧
      e.granularity.toNat / 16 = gran.toNat / 16 := by
  have hbase := base.toNat_lt
  have hmid : ((base >>> 16) &&& 0xFF).toUInt8.toNat = base.toNat / 2 ^ 16 % 2 ^ 8 :=
    byteAt base (k := 16) (by decide)
  have hhigh : ((base >>> 24) &&& 0xFF).toUInt8.toNat = base.toNat / 2 ^ 24 % 2 ^ 8 :=
    byteAt base (k := 24) (by decide)
  have hgran := granularity_toNat limit gran
  unfold gdtSetGate GdtEntry.base GdtEntry.limit
  rw [Function.update_self]
  simp only [lowHalf, hmid, hhigh, hgran]
  refine ⟨by omega, by omega, trivial, by omega⟩

/-- **An interrupt gate** leads to the address it was made of. -/
theorem idtSetGate_decodes (entries : Nat → IdtEntry) (num : Nat) (base : UInt32) (sel : UInt16)
    (flags : UInt8) :
    let e := idtSetGate entries num base sel flags num
    e.offset = base.toNat ∧ e.sel = sel ∧ e.flags = flags := by
  unfold idtSetGate IdtEntry.offset
  rw [Function.update_self]
  refine ⟨?_, rfl, rfl⟩
  show (base &&& 0xFFFF).toUInt16.toNat + ((base >>> 16) &&& 0xFFFF).toUInt16.toNat * 2 ^ 16 = _
  rw [lowHalf, highHalf]
  omega

/-- The segment of a selector. -/
def segmentOf (entries : Nat → GdtEntry) (sel : UInt16) : GdtEntry := entries (sel.toNat / 8)

/-- Both segments of the kernel but for their access. -/
def flatSegment (access : UInt8) : GdtEntry where
  limitLow := 0xFFFF
  baseLow := 0
  baseMiddle := 0
  access := access
  granularity := 0xCF
  baseHigh := 0

theorem gdtInstall_entry (entries : Nat → GdtEntry) :
    gdtInstall entries 1 = flatSegment 0x9A ∧ gdtInstall entries 2 = flatSegment 0x92 := by
  have h12 : (1 : Nat) ≠ 2 := by decide
  unfold gdtInstall
  constructor
  · rw [show gdtSetGate (gdtSetGate (gdtSetGate entries 0 0 0 0 0) 1 0 0xFFFFFFFF 0x9A 0xCF) 2 0
      0xFFFFFFFF 0x92 0xCF 1 = gdtSetGate (gdtSetGate entries 0 0 0 0 0) 1 0 0xFFFFFFFF 0x9A 0xCF 1
        from Function.update_of_ne h12 _ _]
    exact Function.update_self ..
  · exact Function.update_self ..

/-- **Flat memory.**  In the table of `gdt_install` both segments of the kernel are present, in ring 0, of
32 bits, start at address 0 and hold every address; the code segment is executable, and the data
segment is not. -/
theorem gdtInstall_flat (entries : Nat → GdtEntry) {sel : UInt16} (hsel : sel = 0x08 ∨ sel = 0x10) :
    let e := segmentOf (gdtInstall entries) sel
    e.base = 0 ∧ (∀ a < 2 ^ 32, a ≤ e.lastOffset) ∧ e.present = true ∧ e.dpl = 0 ∧ e.big = true ∧
      (e.executable = true ↔ sel = 0x08) := by
  obtain ⟨hcode, hdata⟩ := gdtInstall_entry entries
  have hcodeLast : (flatSegment 0x9A).lastOffset = 2 ^ 32 - 1 := by decide
  have hdataLast : (flatSegment 0x92).lastOffset = 2 ^ 32 - 1 := by decide
  rcases hsel with rfl | rfl
  · have hsegment : segmentOf (gdtInstall entries) 0x08 = flatSegment 0x9A := hcode
    simp only [hsegment, hcodeLast]
    refine ⟨by decide, fun a ha => by omega, by decide, by decide, by decide, by decide⟩
  · have hsegment : segmentOf (gdtInstall entries) 0x10 = flatSegment 0x92 := hdata
    simp only [hsegment, hdataLast]
    refine ⟨by decide, fun a ha => by omega, by decide, by decide, by decide, by decide⟩

end MiniOS
