import Gnos.ProofKit.Memory
import Gnos.ProofKit.Word

/-! The physical frame allocator of `src/mm/pmm.c`: a bitmap with one bit for each 4 KiB frame, a
count of clear bits, and a hint where the next search starts.  Sums of the source that may wrap are
`add64`. -/

namespace Gnos

open ProofKit

def pageSize : ℕ := 0x1000

/-- The bytes that a physical address can name: `PTE_ADDR` and its page offset have 52 bits. -/
def physLimit : ℕ := 2 ^ 52

/-- An entry of the bootloader's memory map: a range of physical addresses and its type. -/
structure MemmapEntry where
  base : ℕ
  length : ℕ
  type : ℕ
  phys : base + length ≤ physLimit

def limineMemmapUsable : ℕ := 0

def MemmapEntry.usable (e : MemmapEntry) : Bool := e.type == limineMemmapUsable

/-- The kernel's physical span: `physical_base` of the kernel address response, and `_kernel_end`
minus its `virtual_base`. -/
structure KernelSpan where
  physicalBase : ℕ
  size : ℕ
  phys : physicalBase + size ≤ physLimit

structure Pmm where
  /-- Bit `f % 8` of byte `f / 8` is 1 when frame `f` is allocated. -/
  gBitmap : ℕ → BitVec 8
  gBitmapBytes : ℕ
  gTotal : ℕ
  gFree : ℕ
  gNextHint : ℕ

variable (m : Pmm) (f : ℕ)

namespace Pmm

def bitSet : Pmm :=
  { m with
    gBitmap := Function.update m.gBitmap (f / 8) (m.gBitmap (f / 8) ||| 1#8 <<< (f % 8)) }

def bitClear : Pmm :=
  { m with
    gBitmap := Function.update m.gBitmap (f / 8) (m.gBitmap (f / 8) &&& ~~~(1#8 <<< (f % 8))) }

def bitTest : Bool := (m.gBitmap (f / 8) >>> (f % 8)) &&& 1#8 ≠ 0

def decFree : Pmm := { m with gFree := sub64 m.gFree 1 }

def incFree : Pmm := { m with gFree := add64 m.gFree 1 }

/-- The frames from `first` to `last - 1` that the bitmap covers. -/
def span (first last : ℕ) : List ℕ := List.range' first (min last m.gTotal - first)

/-- The loop body of `mark_used`. -/
def markFrameUsed : Pmm := if m.bitTest f then m else (m.bitSet f).decFree

/-- The loop body of `mark_free`. -/
def markFrameFree : Pmm := if m.bitTest f then (m.bitClear f).incFree else m

def markUsed (base size : ℕ) : Pmm :=
  let first := base / pageSize
  let last := add64 (add64 base size) (pageSize - 1) / pageSize
  (m.span first last).foldl markFrameUsed m

def markFree (base size : ℕ) : Pmm :=
  let first := add64 base (pageSize - 1) / pageSize
  let last := add64 base size / pageSize
  (m.span first last).foldl markFrameFree m

/-- Pass 1 of `pmm_init`: the highest end of a usable region. -/
def highest (mm : List MemmapEntry) : ℕ :=
  mm.foldl (fun h e =>
    if e.usable then
      let top := add64 e.base e.length
      if h < top then top else h
    else h) 0

/-- Pass 2 of `pmm_init`: the start of the first usable region that fits `bytes`, or 0.  A fitting
region at address 0 counts as none. -/
def bitmapPhys (mm : List MemmapEntry) (bytes : ℕ) : ℕ :=
  match mm.find? fun e => e.usable && decide (bytes ≤ e.length) with
  | some e => e.base
  | none => 0

/-- The state of `pmm_init` once every frame is marked used. -/
def allUsed (total : ℕ) : Pmm where
  gBitmap := fun _ => 0xFF#8
  gBitmapBytes := (total + 7) / 8
  gTotal := total
  gFree := 0
  gNextHint := 0

/-- The kernel's own span is never allocator territory, when the bootloader says where it is. -/
def markKernel (kernel : Option KernelSpan) : Pmm :=
  match kernel with
  | some k => m.markUsed k.physicalBase k.size
  | none => m

/-- `pmm_init` on the memory map and the kernel address response, or its panic message. -/
def init (response : Option (List MemmapEntry)) (kernel : Option KernelSpan) : Except String Pmm :=
  match response with
  | none => .error "pmm: bootloader gave us no memory map"
  | some mm =>
    if highest mm = 0 then .error "pmm: no usable RAM in the memory map"
    else
      let m := allUsed (highest mm / pageSize)
      let bmPhys := bitmapPhys mm m.gBitmapBytes
      if bmPhys = 0 then .error "pmm: no single region large enough for the frame bitmap"
      else
        let m := mm.foldl (fun m e => if e.usable then m.markFree e.base e.length else m) m
        let m := m.markUsed 0 0x100000
        let m := m.markKernel kernel
        .ok (m.markUsed bmPhys m.gBitmapBytes)

/-- One pass of `pmm_alloc`: the first clear bit from `start` to `stop - 1`. -/
def scan (start stop : ℕ) : Option ℕ :=
  (List.range' start (stop - start)).find? fun f => !m.bitTest f

/-- Takes frame `f`: the inner part of the loop of `pmm_alloc`. -/
def take : Pmm := { (m.bitSet f).decFree with gNextHint := f + 1 }

/-- `pmm_alloc`: the physical address of the frame taken, or 0. -/
def alloc : ℕ × Pmm :=
  match m.scan m.gNextHint m.gTotal with
  | some f => (f * pageSize, m.take f)
  | none =>
    match m.scan 0 m.gNextHint with
    | some f => (f * pageSize, m.take f)
    | none => (0, m)

/-- `pmm_alloc_zeroed`, with the memory that it clears. -/
def allocZeroed (mem : Mem) : ℕ × Pmm × Mem :=
  let (p, m') := m.alloc
  (p, m', if p ≠ 0 then mem.fill p pageSize 0 else mem)

def free (phys : ℕ) : Pmm :=
  let f := phys / pageSize
  if m.gTotal ≤ f ∨ ¬m.bitTest f then m
  else
    let m' := (m.bitClear f).incFree
    if f < m'.gNextHint then { m' with gNextHint := f } else m'

/-- The inner loop of `pmm_alloc_contiguous`: how many of the `n` frames from `f` on are free before
the first that is not. -/
def freeRun (m : Pmm) (f : ℕ) : ℕ → ℕ
  | 0 => 0
  | n + 1 => if m.bitTest f then 0 else m.freeRun (f + 1) n + 1

/-- The outer loop of `pmm_alloc_contiguous` from frame `f` on.  Each turn moves `f` on, so
`gTotal + 1` turns of fuel never run out. -/
def contiguousScan (m : Pmm) (n : ℕ) : ℕ → ℕ → Option ℕ
  | 0, _ => none
  | fuel + 1, f =>
    if add64 f n ≤ m.gTotal then
      let k := m.freeRun f n
      if k = n then some f else m.contiguousScan n fuel (f + (k + 1))
    else none

def takeRun (f n : ℕ) : Pmm :=
  { (List.range' f n).foldl (fun m g => (m.bitSet g).decFree) m with gNextHint := f + n }

/-- `pmm_alloc_contiguous`: the physical address of the run taken, or 0. -/
def allocContiguous (n : ℕ) : ℕ × Pmm :=
  if n = 0 then (0, m)
  else
    match m.contiguousScan n (m.gTotal + 1) 0 with
    | some f => (f * pageSize, m.takeRun f n)
    | none => (0, m)

end Pmm

end Gnos
