import Gnos.Pmm.Model

/-! The kernel heap of `src/mm/heap.c`.  A pointer is an address, with 0 for `NULL`.  The region
ends below `2^64`, so the sums of the source that stay inside it are plain sums; `size_t` has 32
bits, so the size of a request never makes `need` wrap.  An operation that ends in `panic` returns
`none`. -/

namespace Gnos

open ProofKit

/-- The heap: the memory that it lives in, and its three static variables. -/
structure Heap where
  mem : Mem
  gBase : ℕ := 0
  gSize : ℕ := 0
  gFreeHead : ℕ := 0

variable (h : Heap) (b : ℕ)

namespace Heap

def minBlock : ℕ := 48

/-- `KHEAP_ALIGN`. -/
def alignment : ℕ := 16
def magic : BitVec 32 := 0x4B484541

/-- `HDR_SIZE`: `sizeof(kheap_hdr_t)`. -/
def hdrSize : ℕ := 40
def footSize : ℕ := 8

def sizeOf : ℕ := (h.mem.read64 b).toNat

def freeOf : ℕ := (h.mem.read64 (b + 8)).toNat

def magicOf : BitVec 32 := h.mem.read32 (b + 16)

def prevOf : ℕ := (h.mem.read64 (b + 24)).toNat

def nextOf : ℕ := (h.mem.read64 (b + 32)).toNat

def put (a v : ℕ) : Heap := { h with mem := h.mem.write64 a (BitVec.ofNat 64 v) }

def setSize (b v : ℕ) : Heap := h.put b v

def setFree (b v : ℕ) : Heap := h.put (b + 8) v

def setMagic : Heap := { h with mem := h.mem.write32 (b + 16) magic }

def setPrev (b v : ℕ) : Heap := h.put (b + 24) v

def setNext (b v : ℕ) : Heap := h.put (b + 32) v

def footerOf : ℕ := b + h.sizeOf b - footSize

def setFooter : Heap := h.put (h.footerOf b) (h.sizeOf b)

def blockAfter : ℕ := b + h.sizeOf b

/-- `align_up`, for an alignment that is a power of two. -/
def alignUp (v a : ℕ) : ℕ := (v + a - 1) / a * a

/-- The first half of `free_unlink`: what came before `b` points past it. -/
def bridgeNext : Heap :=
  if h.prevOf b ≠ 0 then h.setNext (h.prevOf b) (h.nextOf b)
  else { h with gFreeHead := h.nextOf b }

/-- The second half: what came after `b` points back past it. -/
def bridgePrev : Heap :=
  if h.nextOf b ≠ 0 then h.setPrev (h.nextOf b) (h.prevOf b) else h

def freeUnlink : Heap :=
  (((h.bridgeNext b).bridgePrev b).setNext b 0).setPrev b 0

def freeLink : Heap :=
  let h := ((h.setFree b 1).setPrev b 0).setNext b h.gFreeHead
  let h := if h.gFreeHead ≠ 0 then h.setPrev h.gFreeHead b else h
  { h with gFreeHead := b }

/-- Writes the header of a free block that is on no list yet, and its footer. -/
def format (b size : ℕ) : Heap :=
  (((((h.setSize b size).setFree b 1).setMagic b).setPrev b 0).setNext b 0).setFooter b

/-- Tries the sizes in turn: the region's address and size.  `hhdm` is what `pmm_virt` adds. -/
def chooseRegion (hhdm : ℕ) : List ℕ → Pmm → Option (ℕ × ℕ) × Pmm
  | [], m => (none, m)
  | mib :: tries, m =>
    let frames := mib * 1024 * 1024 / pageSize
    let (phys, m) := m.allocContiguous frames
    if phys ≠ 0 then (some (phys + hhdm, frames * pageSize), m) else chooseRegion hhdm tries m

/-- The sentinel: a header without magic whose size 0 marks the end of the heap. -/
def setSentinel (s : ℕ) : Heap :=
  (((h.setSize s 0).setFree s 0).setNext s 0).setPrev s 0

/-- The region as `kheap_init` leaves it: one free block up to the sentinel. -/
def setup (mem : Mem) (base size : ℕ) : Heap :=
  let h : Heap := { mem := mem.fill base size 0, gBase := base, gSize := size }
  let h := h.format base (size - hdrSize - footSize)
  let h := h.setSentinel (base + size - hdrSize)
  { h with gFreeHead := base }

/-- The sizes that `kheap_init` tries, in MiB. -/
def tries : List ℕ := [16, 8, 4, 2, 1]

def init (hhdm : ℕ) (m : Pmm) (mem : Mem) : Option Heap × Pmm :=
  match chooseRegion hhdm tries m with
  | (some (base, size), m) => (some (setup mem base size), m)
  | (none, m) => (none, m)

/-- The test for a corrupt block that `kmalloc` and `kfree` make. -/
def corrupt : Bool :=
  h.magicOf b ≠ magic || h.sizeOf b < minBlock || h.gBase + h.gSize < b + h.sizeOf b

/-- The first block from `b` on the free list of at least `need` bytes; `none` is the panic on a
corrupt list. -/
def search (h : Heap) (need : ℕ) : ℕ → ℕ → Option (Option ℕ)
  | 0, _ => none
  | fuel + 1, b =>
    if b = 0 then some none
    else if h.corrupt b then none
    else if h.sizeOf b < need then h.search need fuel (h.nextOf b)
    else some (some b)

/-- Carves what is left after `need` bytes of `b` off as a free block, when it is large enough. -/
def carve (b need : ℕ) : Heap :=
  if minBlock ≤ h.sizeOf b - need then
    (((h.format (b + need) (h.sizeOf b - need)).freeLink (b + need))).setSize b need
  else h

/-- What `kmalloc` does to the block that it found. -/
def take (b need : ℕ) : Heap :=
  (((h.carve b need).freeUnlink b).setFree b 0).setFooter b

def needOf (size : ℕ) : ℕ :=
  max (alignUp ((if size = 0 then 1 else size) + hdrSize + footSize) alignment) minBlock

def kmalloc (size : ℕ) : Option (ℕ × Heap) :=
  if h.gBase = 0 then some (0, h)
  else
    match h.search (needOf size) (h.gSize + 1) h.gFreeHead with
    | none => none
    | some none => some (0, h)
    | some (some b) => some (b + hdrSize, h.take b (needOf size))

/-- Merges the block after `b` into it when that is free and inside the region. -/
def mergeAfter : Heap :=
  let after := h.blockAfter b
  if h.gBase + h.gSize ≤ after ∨ h.gBase + h.gSize < after + hdrSize then h
  else if h.freeOf after ≠ 0 then
    let h := h.freeUnlink after
    h.setSize b (h.sizeOf b + h.sizeOf after)
  else h

/-- Merges `b` into the block before it when that is free: the block that now holds `b`. -/
def mergeBefore : ℕ × Heap :=
  if h.gBase < b then
    let prevSize := (h.mem.read64 (b - footSize)).toNat
    let before := b - prevSize
    if h.gBase ≤ before ∧ h.freeOf before ≠ 0 then
      let h := h.freeUnlink before
      (before, h.setSize before (h.sizeOf before + h.sizeOf b))
    else (b, h)
  else (b, h)

/-- What `kfree` does to the block that it checked. -/
def release : Heap :=
  let (b, h) := (h.mergeAfter b).mergeBefore b
  (h.setFooter b).freeLink b

def kfree (p : ℕ) : Option Heap :=
  if p = 0 then some h
  else if p < 0x10000 then none
  else
    let b := p - hdrSize
    if h.corrupt b || h.freeOf b ≠ 0 then none else some (h.release b)

def memset (p : ℕ) (v : BitVec 8) (n : ℕ) : Heap := { h with mem := h.mem.fill p n v }

def memcpy (dst src n : ℕ) : Heap := { h with mem := h.mem.copy dst src n }

def krealloc (p size : ℕ) : Option (ℕ × Heap) :=
  if p = 0 then h.kmalloc size
  else if size = 0 then (h.kfree p).map fun h => (0, h)
  else
    let oldpay := h.sizeOf (p - hdrSize) - hdrSize - footSize
    match h.kmalloc size with
    | none => none
    | some (np, h) =>
      if np = 0 then some (0, h)
      else ((h.memcpy np p (min oldpay size)).kfree p).map fun h => (np, h)

def kzalloc (size : ℕ) : Option (ℕ × Heap) :=
  (h.kmalloc size).map fun (p, h) => (p, if p ≠ 0 then h.memset p 0 size else h)

end Heap

end Gnos
