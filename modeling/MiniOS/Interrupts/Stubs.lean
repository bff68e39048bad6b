import MiniOS.Lib.Stack

/-!
# The interrupt stubs (`boot/interrupts.asm`)

An interrupt comes between two instructions of whatever runs.  The CPU pushes
`eflags`, `cs`, `eip` and, for some exceptions, an error code, and goes to the stub
of the vector (`Cpu.interrupt`).  The stub pushes the rest of a `registers_t`, calls
the C handler with a pointer to it and takes everything off again (`exec`).

`stub_resumes_iff`: whatever the C function does, the interrupted program goes on as
if nothing had happened exactly where the stub pushes a dummy error code if and only
if the CPU has not pushed one.  What the C function sees of it is
`stub_registers`.
-/

namespace MiniOS

open Lib

/-! ## The CPU -/

inductive Seg where
  | ds | es | fs | gs
deriving DecidableEq

/-- What a stub saves, loads or clobbers; `esp` is the pointer of `stack`. -/
structure Cpu where
  eax : UInt32
  ecx : UInt32
  edx : UInt32
  ebx : UInt32
  ebp : UInt32
  esi : UInt32
  edi : UInt32
  stack : Stack
  seg : Seg → UInt16
  cs : UInt16
  ss : UInt16
  eip : UInt32
  eflags : UInt32

/-- `IF`. -/
def interruptFlag : UInt32 := 0x200

/-- The two C functions the stubs call. -/
inductive Dispatcher where
  | isrHandler | irqHandler
deriving DecidableEq

inductive Instr where
  | cli
  | sti
  | pushByte (v : UInt8)
  | pusha
  | popa
  | movAxDs
  | movAx (v : UInt16)
  | movSegAx (seg : Seg)
  | pushEax
  | popEax
  | pushEsp
  | addEsp (n : UInt32)
  | call (f : Dispatcher)
  | iret

/-- The low half of `r` is set. -/
def setLow (r : UInt32) (v : UInt16) : UInt32 := r &&& 0xFFFF0000 ||| v.toUInt32

/-- One instruction; `C` is what the C functions do, from their first instruction to behind their
`ret`, and `ret` the address they return to. -/
def exec (C : Dispatcher → Cpu → Cpu) (ret : UInt32) (s : Cpu) : Instr → Cpu
  | .cli => { s with eflags := s.eflags &&& ~~~interruptFlag }
  | .sti => { s with eflags := s.eflags ||| interruptFlag }
  | .pushByte v => { s with stack := s.stack.push v.toInt8.toInt32.toUInt32 }
  | .pusha =>
    { s with
      stack := s.stack.pushes [s.eax, s.ecx, s.edx, s.ebx, s.stack.sp, s.ebp, s.esi, s.edi] }
  | .popa =>
    let edi := s.stack
    let esi := edi.drop 4
    let ebp := esi.drop 4
    -- the stack pointer that `pusha` pushed is skipped
    let ebx := (ebp.drop 4).drop 4
    let edx := ebx.drop 4
    let ecx := edx.drop 4
    let eax := ecx.drop 4
    { s with
      edi := edi.top
      esi := esi.top
      ebp := ebp.top
      ebx := ebx.top
      edx := edx.top
      ecx := ecx.top
      eax := eax.top
      stack := eax.drop 4 }
  | .movAxDs => { s with eax := setLow s.eax (s.seg .ds) }
  | .movAx v => { s with eax := setLow s.eax v }
  | .movSegAx seg => { s with seg := Function.update s.seg seg s.eax.toUInt16 }
  | .pushEax => { s with stack := s.stack.push s.eax }
  | .popEax => { s with eax := s.stack.top, stack := s.stack.drop 4 }
  | .pushEsp => { s with stack := s.stack.push s.stack.sp }
  | .addEsp n => { s with stack := s.stack.drop n }
  | .call f => C f { s with stack := s.stack.push ret }
  | .iret =>
    { s with
      eip := s.stack.top
      cs := (s.stack.drop 4).top.toUInt16
      eflags := ((s.stack.drop 4).drop 4).top
      stack := ((s.stack.drop 4).drop 4).drop 4 }

def runStub (C : Dispatcher → Cpu → Cpu) (ret : UInt32) (prog : List Instr) (s : Cpu) : Cpu :=
  prog.foldl (exec C ret) s

/-! ## The stubs -/

/-- `isr_common_stub` and `irq_common_stub` up to the call. -/
def commonSave : List Instr :=
  [.pusha, .movAxDs, .pushEax, .movAx 0x10, .movSegAx .ds, .movSegAx .es, .movSegAx .fs,
    .movSegAx .gs, .pushEsp]

/-- Behind the call. -/
def commonRestore : List Instr :=
  [.addEsp 4, .popEax, .movSegAx .ds, .movSegAx .es, .movSegAx .fs, .movSegAx .gs, .popa,
    .addEsp 8, .sti, .iret]

def isrCommonStub : List Instr := commonSave ++ .call .isrHandler :: commonRestore
def irqCommonStub : List Instr := commonSave ++ .call .irqHandler :: commonRestore

/-- `ISR_NO_ERR`. -/
def isrNoErr (v : UInt8) : List Instr := [.cli, .pushByte 0, .pushByte v] ++ isrCommonStub

/-- `ISR_ERR`. -/
def isrErr (v : UInt8) : List Instr := [.cli, .pushByte v] ++ isrCommonStub

/-- `IRQ`. -/
def irqStub (v : UInt8) : List Instr := [.cli, .pushByte 0, .pushByte v] ++ irqCommonStub

/-- The vectors whose stub is an `ISR_ERR`. -/
def errStubs : List Nat := [8, 10, 11, 12, 13, 14]

/-- The stub of the vectors 0 to 47. -/
def stub (v : Nat) : List Instr :=
  if v < 32 then
    if v ∈ errStubs then isrErr v.toUInt8 else isrNoErr v.toUInt8
  else irqStub v.toUInt8

def dispatcherOf (v : Nat) : Dispatcher := if v < 32 then .isrHandler else .irqHandler

/-- The flags an interrupt gate clears: `TF`, `IF`, `NT`, `RF` and `VM`. -/
def gateClears : UInt32 := 0x34300

/-- The CPU goes through the gate of an interrupt, in the ring it is in. -/
def Cpu.interrupt (s : Cpu) (sel : UInt16) (base : UInt32) (err : Option UInt32) : Cpu :=
  { s with
    stack := s.stack.pushes ([s.eflags, s.cs.toUInt32, s.eip] ++ err.toList)
    eflags := s.eflags &&& ~~~gateClears
    cs := sel
    eip := base }

/-! ## What the C function sees -/

/-- `registers_t`. -/
structure Registers where
  ds : UInt32
  edi : UInt32
  esi : UInt32
  ebp : UInt32
  esp : UInt32
  ebx : UInt32
  edx : UInt32
  ecx : UInt32
  eax : UInt32
  intNo : UInt32
  errCode : UInt32
  eip : UInt32
  cs : UInt32
  eflags : UInt32
  useresp : UInt32
  ss : UInt32

/-- The word at `p[k]`. -/
def wordAt (m : Mem) (p : UInt32) (k : Nat) : UInt32 :=
  UInt32.ofNat (m.load32 (p + 4 * UInt32.ofNat k).toNat)

/-- The `registers_t` at the address `p`. -/
def registersAt (m : Mem) (p : UInt32) : Registers where
  ds := wordAt m p 0
  edi := wordAt m p 1
  esi := wordAt m p 2
  ebp := wordAt m p 3
  esp := wordAt m p 4
  ebx := wordAt m p 5
  edx := wordAt m p 6
  ecx := wordAt m p 7
  eax := wordAt m p 8
  intNo := wordAt m p 9
  errCode := wordAt m p 10
  eip := wordAt m p 11
  cs := wordAt m p 12
  eflags := wordAt m p 13
  useresp := wordAt m p 14
  ss := wordAt m p 15

/-- The first argument of a C function that is entered: the word above its return address. -/
def Cpu.argument (s : Cpu) : UInt32 := (s.stack.drop 4).top

def Cpu.regs (s : Cpu) : Registers := registersAt s.stack.mem s.argument

/-- A C function of one argument has returned to `s'`: the return address is off the stack, `ebx`,
`ebp`, `esi`, `edi` and the segment registers are as they were, and so is the stack above the
argument, up to `top`. -/
structure Returned (top : Nat) (s s' : Cpu) : Prop where
  sp : s'.stack.sp = s.stack.sp + 4
  ebx : s'.ebx = s.ebx
  ebp : s'.ebp = s.ebp
  esi : s'.esi = s.esi
  edi : s'.edi = s.edi
  seg : s'.seg = s.seg
  cs : s'.cs = s.cs
  ss : s'.ss = s.ss
  bytes : ∀ x, s.stack.sp.toNat + 8 ≤ x → x < top → s'.stack.mem.byte x = s.stack.mem.byte x

/-- The interrupted program goes on: everything is as it was, but for `es`, `fs` and `gs`, which
come back as `ds`, and for what is below the stack or outside of it. -/
structure Resumes (top : Nat) (s s' : Cpu) : Prop where
  eax : s'.eax = s.eax
  ecx : s'.ecx = s.ecx
  edx : s'.edx = s.edx
  ebx : s'.ebx = s.ebx
  ebp : s'.ebp = s.ebp
  esi : s'.esi = s.esi
  edi : s'.edi = s.edi
  sp : s'.stack.sp = s.stack.sp
  eip : s'.eip = s.eip
  cs : s'.cs = s.cs
  ss : s'.ss = s.ss
  eflags : s'.eflags = s.eflags
  seg : ∀ g, s'.seg g = s.seg .ds
  bytes : ∀ x, s.stack.sp.toNat ≤ x → x < top → s'.stack.mem.byte x = s.stack.mem.byte x

/-! ## Up to the call -/

/-- The instructions of the stub's macro before the common part. -/
def stubEntry (v : Nat) : List Instr :=
  if v ∈ errStubs then [.cli, .pushByte v.toUInt8] else [.cli, .pushByte 0, .pushByte v.toUInt8]

theorem stub_eq {v : Nat} (hv : v < 48) :
    stub v = stubEntry v ++ (commonSave ++ .call (dispatcherOf v) :: commonRestore) := by
  unfold stub stubEntry dispatcherOf
  by_cases h32 : v < 32
  · rw [if_pos h32, if_pos h32]
    split
    · rfl
    · rfl
  · have hmem : v ∉ errStubs := by
      intro h
      simp only [errStubs, List.mem_cons, List.not_mem_nil, or_false] at h
      omega
    rw [if_neg h32, if_neg h32, if_neg hmem]
    rfl

/-- The C function is entered. -/
def Cpu.called (s : Cpu) (ret : UInt32) (v : Nat) : Cpu :=
  let s := runStub (fun _ s => s) ret (stubEntry v ++ commonSave) s
  { s with stack := s.stack.push ret }

theorem runStub_stub (C : Dispatcher → Cpu → Cpu) (ret : UInt32) {v : Nat} (hv : v < 48)
    (s : Cpu) : runStub C ret (stub v) s =
      runStub C ret commonRestore (C (dispatcherOf v) (s.called ret v)) := by
  rw [stub_eq hv]
  unfold stubEntry Cpu.called stubEntry
  split
  · rfl
  · rfl

theorem setLow_toUInt16 (r : UInt32) (v : UInt16) : (setLow r v).toUInt16 = v := by
  have hv := v.toNat_lt
  have hmask : (4294901760 : Nat) % 2 ^ 16 = 0 := rfl
  apply UInt16.toNat_inj.mp
  unfold setLow
  simp only [UInt32.toNat_toUInt16, UInt32.toNat_or, UInt32.toNat_and, UInt32.reduceToNat,
    UInt16.toNat_toUInt32, Nat.or_mod_two_pow, Nat.and_mod_two_pow, hmask, Nat.and_zero,
    Nat.zero_or]
  exact Nat.mod_eq_of_lt hv

theorem update_segs (f : Seg → UInt16) (v : UInt16) :
    Function.update (Function.update (Function.update (Function.update f .ds v) .es v) .fs v) .gs v =
      fun _ => v := by
  funext g
  cases g with
  | ds => rfl
  | es => rfl
  | fs => rfl
  | gs => rfl

/-- The words that the common part pushes. -/
def saveWords (s : Cpu) : List UInt32 :=
  [s.eax, s.ecx, s.edx, s.ebx, s.stack.sp, s.ebp, s.esi, s.edi, setLow s.eax (s.seg .ds)]

theorem save_run (C : Dispatcher → Cpu → Cpu) (ret : UInt32) (t : Cpu) :
    runStub C ret commonSave t =
      { t with
        stack := (t.stack.pushes (saveWords t)).push (t.stack.pushes (saveWords t)).sp
        eax := setLow (setLow t.eax (t.seg .ds)) 0x10
        seg := fun _ => 0x10 } := by
  unfold commonSave runStub
  simp only [List.foldl_cons, List.foldl_nil, exec, setLow_toUInt16, update_segs]
  rfl

/-- The words that the CPU and the stub's macro push, `e` for an error code. -/
def entryWords (s : Cpu) (e : UInt32) (v : Nat) : List UInt32 :=
  [s.eflags, s.cs.toUInt32, s.eip, e, v.toUInt32]

theorem pushByte_val : ∀ v < 48, v.toUInt8.toInt8.toInt32.toUInt32 = v.toUInt32 := by decide

/-- Where the stub pushes a dummy error code for the CPU, the stack is the same for all vectors. -/
theorem entry_run (C : Dispatcher → Cpu → Cpu) (ret : UInt32) (s : Cpu) (sel : UInt16)
    (base : UInt32) {v : Nat} (hv : v < 48) {err : Option UInt32}
    (he : err.isSome = decide (v ∈ errStubs)) :
    runStub C ret (stubEntry v) (s.interrupt sel base err) =
      { s with
        stack := s.stack.pushes (entryWords s (err.getD 0) v)
        eflags := (s.eflags &&& ~~~gateClears) &&& ~~~interruptFlag
        cs := sel
        eip := base } := by
  have hzero : (0 : UInt8).toInt8.toInt32.toUInt32 = 0 := by decide
  unfold stubEntry runStub entryWords
  cases err with
  | none =>
    rw [if_neg (of_decide_eq_false he.symm)]
    simp only [List.foldl_cons, List.foldl_nil, exec, pushByte_val v hv, hzero]
    rfl
  | some e =>
    rw [if_pos (of_decide_eq_true he.symm)]
    simp only [List.foldl_cons, List.foldl_nil, exec, pushByte_val v hv]
    rfl

/-- **Behind the call**: the words of the `registers_t` go back to where they came from. -/
theorem restore_run (C : Dispatcher → Cpu → Cpu) (ret : UInt32) (t : Cpu)
    {ds edi esi ebp esp ebx edx ecx eax intNo errCode eip cs eflags : UInt32}
    (h : (t.stack.drop 4).Holds [ds, edi, esi, ebp, esp, ebx, edx, ecx, eax, intNo, errCode, eip,
      cs, eflags]) :
    runStub C ret commonRestore t =
      { t with
        eax := eax
        ecx := ecx
        edx := edx
        ebx := ebx
        ebp := ebp
        esi := esi
        edi := edi
        stack := t.stack.drop 60
        seg := fun _ => ds.toUInt16
        eip := eip
        cs := cs.toUInt16
        eflags := eflags } := by
  obtain ⟨h0, h1, h2, h3, h4, h5, h6, h7, h8, h9, h10, h11, h12, h13, _⟩ := h
  simp only [Stack.drop_drop, UInt32.reduceAdd] at h0 h1 h2 h3 h4 h5 h6 h7 h8 h9 h10 h11 h12 h13
  unfold commonRestore runStub
  simp only [List.foldl_cons, List.foldl_nil, exec, update_segs, Stack.drop_drop, UInt32.reduceAdd,
    h0, h1, h2, h3, h5, h6, h7, h8, h11, h12, h13]

theorem restore_sp (C : Dispatcher → Cpu → Cpu) (ret : UInt32) (t : Cpu) :
    (runStub C ret commonRestore t).stack = t.stack.drop 60 := by
  unfold commonRestore runStub
  simp only [List.foldl_cons, List.foldl_nil, exec, update_segs, Stack.drop_drop]
  rfl

/-! ## Interrupts -/

/-- The words below an interrupted stack when the C function is called, without its argument. -/
def frameWords (s : Cpu) (e : UInt32) (v : Nat) : List UInt32 :=
  entryWords s e v ++ [s.eax, s.ecx, s.edx, s.ebx, (s.stack.pushes (entryWords s e v)).sp, s.ebp,
    s.esi, s.edi, setLow s.eax (s.seg .ds)]

/-- **The C function is called** with the kernel's segments, on the same stack for all vectors. -/
theorem called_eq (s : Cpu) (ret : UInt32) (sel : UInt16) (base : UInt32) {v : Nat} (hv : v < 48)
    {err : Option UInt32} (he : err.isSome = decide (v ∈ errStubs)) :
    (s.interrupt sel base err).called ret v =
      { s with
        stack := s.stack.pushes (frameWords s (err.getD 0) v ++
          [(s.stack.pushes (frameWords s (err.getD 0) v)).sp, ret])
        eax := setLow (setLow s.eax (s.seg .ds)) 0x10
        seg := fun _ => 0x10
        eflags := (s.eflags &&& ~~~gateClears) &&& ~~~interruptFlag
        cs := sel
        eip := base } := by
  have hrun : runStub (fun _ s => s) ret (stubEntry v ++ commonSave) (s.interrupt sel base err) =
      runStub (fun _ s => s) ret commonSave
        (runStub (fun _ s => s) ret (stubEntry v) (s.interrupt sel base err)) := List.foldl_append
  unfold Cpu.called
  simp only
  rw [hrun, entry_run _ _ _ _ _ hv he, save_run]
  unfold frameWords saveWords
  simp only [Stack.pushes_append]
  rfl

/-- The words of the stack when the C function is entered. -/
theorem called_holds {s : Cpu} (hlow : 64 ≤ s.stack.sp.toNat) (ret : UInt32) (sel : UInt16)
    (base : UInt32) {v : Nat} (hv : v < 48) {err : Option UInt32}
    (he : err.isSome = decide (v ∈ errStubs)) :
    ((s.interrupt sel base err).called ret v).stack.Holds
      (ret :: (s.stack.pushes (frameWords s (err.getD 0) v)).sp ::
        (frameWords s (err.getD 0) v).reverse) := by
  have hsp := s.stack.sp.toNat_lt
  have hnil : s.stack.Holds [] := trivial
  have hall := hnil.pushes (frameWords s (err.getD 0) v ++
    [(s.stack.pushes (frameWords s (err.getD 0) v)).sp, ret]) hlow (Nat.le_of_lt hsp)
  rw [called_eq s ret sel base hv he]
  rw [List.append_nil, List.reverse_append] at hall
  exact hall

/-- The place of the `registers_t`. -/
theorem called_sp {s : Cpu} (hlow : 64 ≤ s.stack.sp.toNat) (ret : UInt32) (sel : UInt16)
    (base : UInt32) {v : Nat} (hv : v < 48) {err : Option UInt32}
    (he : err.isSome = decide (v ∈ errStubs)) :
    ((s.interrupt sel base err).called ret v).stack.sp.toNat + 64 = s.stack.sp.toNat := by
  rw [called_eq s ret sel base hv he]
  have hsp := Stack.pushes_sp (s := s.stack) (frameWords s (err.getD 0) v ++
    [(s.stack.pushes (frameWords s (err.getD 0) v)).sp, ret]) hlow
  have hlen : (frameWords s (err.getD 0) v ++
    [(s.stack.pushes (frameWords s (err.getD 0) v)).sp, ret]).length = 16 := rfl
  rw [hlen] at hsp
  show (s.stack.pushes (frameWords s (err.getD 0) v ++
    [(s.stack.pushes (frameWords s (err.getD 0) v)).sp, ret])).sp.toNat + 64 = _
  omega

/-- The `registers_t` is the frame. -/
theorem called_regs {s : Cpu} (hlow : 64 ≤ s.stack.sp.toNat) (ret : UInt32) (sel : UInt16)
    (base : UInt32) {v : Nat} (hv : v < 48) {err : Option UInt32}
    (he : err.isSome = decide (v ∈ errStubs)) :
    let r := ((s.interrupt sel base err).called ret v).regs
    (r.intNo = v.toUInt32 ∧ r.errCode = err.getD 0) ∧
      (r.eip = s.eip ∧ r.cs = s.cs.toUInt32 ∧ r.eflags = s.eflags) ∧
      (r.eax = s.eax ∧ r.ecx = s.ecx ∧ r.edx = s.edx ∧ r.ebx = s.ebx ∧ r.ebp = s.ebp ∧
        r.esi = s.esi ∧ r.edi = s.edi ∧ r.ds.toUInt16 = s.seg .ds) := by
  obtain ⟨_, harg, hframe⟩ := called_holds hlow ret sel base hv he
  have hsp : ((((s.interrupt sel base err).called ret v).stack.drop 4).drop 4).sp =
      ((s.interrupt sel base err).called ret v).argument := by
    unfold Cpu.argument
    rw [harg, called_eq s ret sel base hv he, Stack.pushes_append]
    show (Stack.sp (s.stack.pushes (frameWords s (err.getD 0) v)) - 4 - 4) + 4 + 4 = _
    rw [UInt32.sub_add_cancel, UInt32.sub_add_cancel]
  have hword : ∀ {k : Nat} {w : UInt32}, (frameWords s (err.getD 0) v).reverse[k]? = some w →
      wordAt ((s.interrupt sel base err).called ret v).stack.mem
        ((s.interrupt sel base err).called ret v).argument k = w := by
    intro k w hw
    obtain ⟨hk, hw⟩ := List.getElem?_eq_some_iff.mp hw
    rw [← hw, ← hframe.get hk, ← hsp]
    rfl
  have hds : (setLow s.eax (s.seg .ds)).toUInt16 = s.seg .ds := setLow_toUInt16 _ _
  refine ⟨⟨hword rfl, hword rfl⟩, ⟨hword rfl, hword rfl, hword rfl⟩, hword rfl, hword rfl,
    hword rfl, hword rfl, hword rfl, hword rfl, hword rfl, ?_⟩
  rw [← hds]
  exact congrArg UInt32.toUInt16 (hword rfl)

/-- With the error code where the stub expects it, the program goes on. -/
theorem stub_resumes {C : Dispatcher → Cpu → Cpu} {s : Cpu} (top : Nat)
    (hlow : 64 ≤ s.stack.sp.toNat) (htop : s.stack.sp.toNat ≤ top) (ret : UInt32) (sel : UInt16)
    (base : UInt32) {v : Nat} (hv : v < 48) {err : Option UInt32}
    (he : err.isSome = decide (v ∈ errStubs))
    (hC : Returned top ((s.interrupt sel base err).called ret v)
      (C (dispatcherOf v) ((s.interrupt sel base err).called ret v))) :
    Resumes top s (runStub C ret (stub v) (s.interrupt sel base err)) := by
  obtain ⟨_, harg, hframe⟩ := called_holds hlow ret sel base hv he
  have hcsp := called_sp hlow ret sel base hv he
  have hbelow := s.stack.sp.toNat_lt
  have hlen : (frameWords s (err.getD 0) v).reverse.length = 14 := rfl
  have hss : ((s.interrupt sel base err).called ret v).ss = s.ss := by
    rw [called_eq s ret sel base hv he]
  have hpushed : ∀ x, s.stack.sp.toNat ≤ x →
      ((s.interrupt sel base err).called ret v).stack.mem.byte x = s.stack.mem.byte x := by
    intro x hx
    rw [called_eq s ret sel base hv he]
    exact Stack.pushes_byte (frameWords s (err.getD 0) v ++
      [(s.stack.pushes (frameWords s (err.getD 0) v)).sp, ret]) hlow hx
  rw [runStub_stub C ret hv]
  generalize hc : (s.interrupt sel base err).called ret v = c at *
  generalize ht : C (dispatcherOf v) c = t at *
  have hdrop : (c.stack.drop 4).sp.toNat = c.stack.sp.toNat + 4 := Stack.drop_sp (by omega)
  have hdrop' : ((c.stack.drop 4).drop 4).sp.toNat = c.stack.sp.toNat + 8 := by
    rw [Stack.drop_sp (by omega), hdrop]
  -- the frame is as it was
  have hrest : (t.stack.drop 4).Holds (frameWords s (err.getD 0) v).reverse := by
    refine hframe.congr (congrArg (· + 4) hC.sp) (by omega) ?_
    intro x h1 h2
    exact hC.bytes x (by omega) (by omega)
  have hcsw : s.cs.toUInt32.toUInt16 = s.cs := UInt16.toUInt16_toUInt32 s.cs
  have hsp : (c.stack.sp + 4 + 60).toNat = s.stack.sp.toNat := by
    have h4 : (4 : UInt32).toNat = 4 := rfl
    have h60 : (60 : UInt32).toNat = 60 := rfl
    rw [UInt32.toNat_add, UInt32.toNat_add, h4, h60]
    omega
  rw [restore_run C ret t hrest]
  exact {
    eax := rfl
    ecx := rfl
    edx := rfl
    ebx := rfl
    ebp := rfl
    esi := rfl
    edi := rfl
    sp := (congrArg (· + 60) hC.sp).trans (UInt32.toNat_inj.mp hsp)
    eip := rfl
    cs := hcsw
    ss := hC.ss.trans hss
    eflags := rfl
    seg := fun _ => setLow_toUInt16 _ _
    bytes := fun x h1 h2 => (hC.bytes x (by omega) h2).trans (hpushed x h1) }

theorem called_offset (r : Cpu) (ret : UInt32) (v : Nat) : (r.called ret v).stack.sp =
    (runStub (fun _ s => s) ret (stubEntry v) r).stack.sp - 44 := by
  have hrun : runStub (fun _ s => s) ret (stubEntry v ++ commonSave) r =
      runStub (fun _ s => s) ret commonSave (runStub (fun _ s => s) ret (stubEntry v) r) :=
    List.foldl_append
  unfold Cpu.called
  simp only
  rw [hrun, save_run]
  generalize runStub (fun _ s => s) ret (stubEntry v) r = t
  have hsaved := t.stack.pushes_offset (saveWords t)
  have hlen : (4 : UInt32) * UInt32.ofNat (saveWords t).length = 36 := rfl
  rw [hlen] at hsaved
  show (t.stack.pushes (saveWords t)).sp - 4 - 4 = _
  rw [hsaved]
  grind

/-- Otherwise the stack ends up a word off. -/
theorem stub_misses {C : Dispatcher → Cpu → Cpu} (s : Cpu) (top : Nat) (ret : UInt32) (sel : UInt16)
    (base : UInt32) {v : Nat} (hv : v < 48) {err : Option UInt32}
    (he : err.isSome ≠ decide (v ∈ errStubs))
    (hC : Returned top ((s.interrupt sel base err).called ret v)
      (C (dispatcherOf v) ((s.interrupt sel base err).called ret v))) :
    (runStub C ret (stub v) (s.interrupt sel base err)).stack.sp ≠ s.stack.sp := by
  have hpushed := s.stack.pushes_offset ([s.eflags, s.cs.toUInt32, s.eip] ++ err.toList)
  rw [runStub_stub C ret hv, restore_sp]
  show (C (dispatcherOf v) ((s.interrupt sel base err).called ret v)).stack.sp + 60 ≠ s.stack.sp
  rw [hC.sp, called_offset]
  unfold stubEntry
  cases err with
  | none =>
    have hmem : v ∈ errStubs := by
      by_contra h
      exact he (decide_eq_false h).symm
    have hsp : (s.stack.pushes [s.eflags, s.cs.toUInt32, s.eip]).sp = s.stack.sp - 12 := hpushed
    rw [if_pos hmem]
    show (s.stack.pushes [s.eflags, s.cs.toUInt32, s.eip]).sp - 4 - 44 + 4 + 60 ≠ _
    rw [hsp]
    grind
  | some e =>
    have hmem : v ∉ errStubs := by
      intro h
      exact he (decide_eq_true h).symm
    have hsp : (s.stack.pushes [s.eflags, s.cs.toUInt32, s.eip, e]).sp = s.stack.sp - 16 := hpushed
    rw [if_neg hmem]
    show (s.stack.pushes [s.eflags, s.cs.toUInt32, s.eip, e]).sp - 4 - 4 - 44 + 4 + 60 ≠ _
    rw [hsp]
    grind

/-- **An interrupt is not noticed** if and only if the stub and the CPU agree on the error code. -/
theorem stub_resumes_iff {C : Dispatcher → Cpu → Cpu} {s : Cpu} (top : Nat)
    (hlow : 64 ≤ s.stack.sp.toNat) (htop : s.stack.sp.toNat ≤ top) (ret : UInt32) (sel : UInt16)
    (base : UInt32) {v : Nat} (hv : v < 48) (err : Option UInt32)
    (hC : Returned top ((s.interrupt sel base err).called ret v)
      (C (dispatcherOf v) ((s.interrupt sel base err).called ret v))) :
    Resumes top s (runStub C ret (stub v) (s.interrupt sel base err)) ↔
      (err.isSome ↔ v ∈ errStubs) := by
  have hagree : (err.isSome ↔ v ∈ errStubs) ↔ err.isSome = decide (v ∈ errStubs) :=
    Iff.trans (iff_congr Iff.rfl decide_eq_true_iff.symm) Bool.eq_iff_iff.symm
  rw [hagree]
  constructor
  · intro h
    by_contra he
    exact stub_misses s top ret sel base hv he hC h.sp
  · exact fun he => stub_resumes top hlow htop ret sel base hv he hC

/-- A C function that only clobbers `eax`. -/
def clobbersEax (_ : Dispatcher) (s : Cpu) : Cpu := { s with eax := 7, stack := s.stack.drop 4 }

theorem clobbersEax_returned (top : Nat) (f : Dispatcher) (c : Cpu) :
    Returned top c (clobbersEax f c) :=
  ⟨rfl, rfl, rfl, rfl, rfl, rfl, rfl, rfl, fun _ _ _ => rfl⟩

/-- Some program, with its stack at 4096. -/
def someCpu : Cpu where
  eax := 1
  ecx := 2
  edx := 3
  ebx := 4
  ebp := 5
  esi := 6
  edi := 7
  stack := ⟨⟨fun _ => 0, []⟩, 4096⟩
  seg _ := 0x10
  cs := 0x08
  ss := 0x10
  eip := 0x100000
  eflags := 0x202

/-- A timer interrupt is not noticed; an alignment check, whose error code its stub does not expect,
is. -/
theorem stub_resumes_iff_timer :
    Resumes 8192 someCpu (runStub clobbersEax 0 (stub 32) (someCpu.interrupt 0x08 0 none)) ∧
      ¬ Resumes 8192 someCpu
        (runStub clobbersEax 0 (stub 17) (someCpu.interrupt 0x08 0 (some 0))) := by
  have htimer := stub_resumes_iff (s := someCpu) 8192 (by decide) (by decide) 0 0x08 0
    (v := 32) (by decide) none (clobbersEax_returned _ .irqHandler _)
  have halign := stub_resumes_iff (s := someCpu) 8192 (by decide) (by decide) 0 0x08 0
    (v := 17) (by decide) (some 0) (clobbersEax_returned _ .isrHandler _)
  rw [htimer, halign]
  decide

end MiniOS
