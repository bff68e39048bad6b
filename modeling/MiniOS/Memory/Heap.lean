import MiniOS.Lib.Loop
import MiniOS.Lib.Machine
import MiniOS.Lib.WordMemory
import MiniOS.Lib.BlockList
import MiniOS.Target

/-!
# The kernel heap (`kernel/memory.c`)

`kmalloc` and `kfree` over the byte memory of the 32-bit target.  A block
header is three words (`size`, `free`, `next`) stored in the heap itself, so
it stands in the same bytes as the payloads; `NULL` is the address 0.
`size_t` arithmetic is modulo 2^32 (`u32`).

`heapMachine` is the allocator as its callers use it: any request below 2^32,
and `kfree` of `NULL` or of a pointer that is live, that is, returned by
`kmalloc` and not freed since.
-/

namespace MiniOS

open Lib

/-- `HEAP_SIZE`. -/
def heapSize : Nat := 1024 * 256

/-- `ALIGN_BYTES`. -/
def alignBytes : Nat := 8

/-- `sizeof(block_header_t)` on the 32-bit target. -/
def headerSize : Nat := 12

/-- Where the linker puts `heap_storage`: not at 0, aligned, inside the address space. -/
structure HeapStorage where
  addr : Nat
  pos : 0 < addr
  aligned : addr % alignBytes = 0
  fits : addr + heapSize ≤ 2 ^ 32

/-! ## `block_header_t` -/

def hdrSize (m : Mem) (b : Nat) : Nat := m.load32 b
def hdrFree (m : Mem) (b : Nat) : Nat := m.load32 (b + 4)
def hdrNext (m : Mem) (b : Nat) : Nat := m.load32 (b + 8)
def setSize (m : Mem) (b v : Nat) : Mem := m.store32 b v
def setFree (m : Mem) (b v : Nat) : Mem := m.store32 (b + 4) v
def setNext (m : Mem) (b v : Nat) : Mem := m.store32 (b + 8) v

structure Heap where
  mem : Mem
  heapHead : Nat
  heapUsed : Nat

/-- `(n + ALIGN_BYTES - 1) & ~(size_t)(ALIGN_BYTES - 1)`. -/
def alignUp (n : Nat) : Nat := u32 (n + alignBytes - 1) &&& (2 ^ 32 - 1 - (alignBytes - 1))

/-- `memory_init`, from any contents of the memory. -/
def memoryInit (S : HeapStorage) (m : Mem) : Heap where
  mem := setNext (setFree (setSize m S.addr (heapSize - headerSize)) S.addr 1) S.addr 0
  heapHead := S.addr
  heapUsed := 0

/-- `kmalloc` on the block it has found: split it if the rest is large enough, and take it. -/
def takeBlock (h : Heap) (size cur : Nat) : Heap :=
  let leftover := hdrSize h.mem cur - size
  let mem :=
    if headerSize + alignBytes ≤ leftover then
      let newBlock := cur + headerSize + size
      let mem := setSize h.mem newBlock (leftover - headerSize)
      let mem := setFree mem newBlock 1
      let mem := setNext mem newBlock (hdrNext mem cur)
      let mem := setSize mem cur size
      setNext mem cur newBlock
    else h.mem
  let mem := setFree mem cur 0
  { h with mem := mem, heapUsed := u32 (h.heapUsed + (hdrSize mem cur + headerSize)) }

/-- One round of the search in `kmalloc`. -/
def kmallocBody (h : Heap) (size cur : Nat) : Nat ⊕ (Nat × Heap) :=
  if cur = 0 then .inr (0, h)
  else if hdrFree h.mem cur ≠ 0 ∧ size ≤ hdrSize h.mem cur then
    .inr (cur + headerSize, takeBlock h size cur)
  else .inl (hdrNext h.mem cur)

/-- The pointer and the heap afterwards; `none` if the search does not end. -/
def kmalloc (h : Heap) (size : Nat) : Option (Nat × Heap) :=
  if size = 0 then some (0, h)
  else loop (kmallocBody h (alignUp size)) heapSize h.heapHead

/-- One round of the coalescing loop in `kfree`: `cur` stays after a merge. -/
def kfreeBody (s : Mem × Nat) : (Mem × Nat) ⊕ Mem :=
  let m := s.1
  let cur := s.2
  if cur = 0 ∨ hdrNext m cur = 0 then .inr m
  else if hdrFree m cur ≠ 0 ∧ hdrFree m (hdrNext m cur) ≠ 0 then
    let m := setSize m cur (u32 (hdrSize m cur + (headerSize + hdrSize m (hdrNext m cur))))
    let m := setNext m cur (hdrNext m (hdrNext m cur))
    .inl (m, cur)
  else .inl (m, hdrNext m cur)

def kfree (h : Heap) (ptr : Nat) : Option Heap :=
  if ptr = 0 then some h
  else
    let hdr := ptr - headerSize
    let mem := setFree h.mem hdr 1
    let used := u32 (h.heapUsed + 2 ^ 32 - u32 (hdrSize mem hdr + headerSize))
    (loop kfreeBody heapSize (mem, h.heapHead)).map fun mem =>
      { h with mem := mem, heapUsed := used }

/-- The three numbers `memory_print_stats` prints: total, used, free. -/
def memoryPrintStats (h : Heap) : Nat × Nat × Nat :=
  (heapSize, h.heapUsed, u32 (heapSize + 2 ^ 32 - h.heapUsed))

/-! ## Walking the block list -/

/-- The blocks met along the `next` links from `p`, with the addresses of their headers. -/
def walk (m : Mem) : Nat → Nat → Option (List (Nat × Block))
  | 0, _ => none
  | n + 1, p =>
    if p = 0 then some []
    else (walk m n (hdrNext m p)).map ((p, ⟨hdrSize m p, hdrFree m p != 0⟩) :: ·)

def Heap.blocks (h : Heap) : Option (List (Nat × Block)) := walk h.mem heapSize h.heapHead

/-! ## The allocator and its callers -/

/-- The heap, and the pointers returned and not freed since. -/
structure HeapState where
  heap : Heap
  live : List Nat

inductive HeapCall where
  | kmalloc (size : Nat)
  | kfree (ptr : Nat)

/-- A call answers the pointer returned (0 for `kfree`). -/
def HeapState.step (s : HeapState) : HeapCall → Option (Nat × HeapState)
  | .kmalloc size =>
    (kmalloc s.heap size).map fun r => (r.1, ⟨r.2, if r.1 = 0 then s.live else r.1 :: s.live⟩)
  | .kfree ptr => (kfree s.heap ptr).map fun h => (0, ⟨h, s.live.erase ptr⟩)

def HeapState.legal (s : HeapState) : HeapCall → Prop
  | .kmalloc size => size < 2 ^ 32
  | .kfree ptr => ptr = 0 ∨ ptr ∈ s.live

def heapMachine (S : HeapStorage) : Machine HeapState HeapCall Nat where
  init s := s.live = [] ∧ ∃ m, s.heap = memoryInit S m
  legal := HeapState.legal
  step := HeapState.step

end MiniOS
