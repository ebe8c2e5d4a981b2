import Gnos.Pmm.Model
import Gnos.ProofKit.Probe

/-! The address spaces of `src/mm/vmm.c`.  A physical page is named by its frame number.  A frame
that holds a page table is an array of entries in `tables`, one that holds user data is a range of
bytes in `data`.  Debug output and the flushing of translation caches are left out, but on several
processors `vmm_unmap` frees frames in batches. -/

namespace Gnos

open ProofKit Function

/-- A page-table entry: the bits that the kernel reads or writes, and the frame. -/
structure Pte where
  p : Bool := false
  rw : Bool := false
  u : Bool := false
  pwt : Bool := false
  pcd : Bool := false
  ps : Bool := false
  avl : Bool := false
  cow : Bool := false
  nx : Bool := false
  frame : ℕ := 0
  deriving DecidableEq

structure VmFlags where
  write : Bool := false
  user : Bool := false
  exec : Bool := false
  extshm : Bool := false
  deriving DecidableEq

/-- The fields of a cgroup that the memory controller uses; a parent of `none` is -1. -/
structure Cgroup where
  live : Bool := false
  parent : Option ℕ := none
  memBytes : ℕ := 0
  memMax : ℕ := 0

structure MmapRec where
  base : ℕ
  size : ℕ
  flags : VmFlags
  deriving DecidableEq

/-- `addrspace_t`; a cgroup of `none` is -1, and `nmmaps` is the length of `mmaps`. -/
structure AddrSpace where
  pml4 : ℕ := 0
  refs : ℕ := 0
  pages : ℕ := 0
  cg : Option ℕ := none
  mmaps : List MmapRec := []

/-- The state of the virtual memory manager and of what it stands on.  An address space is the index
of its slot in `g_spaces`. -/
structure Vmm where
  tables : ℕ → ℕ → Pte
  data : Mem
  pmm : Pmm
  gCgs : ℕ → Cgroup
  gSpaces : ℕ → AddrSpace
  gUsed : ℕ → Bool
  /-- The table of shared frames: `SLOT_USED` entries hold a frame and its count. -/
  gShm : ℕ → Slot ℕ ℕ
  gFrameSlotsUsed : ℕ
  gKernelPml4 : ℕ
  /-- `smp_online_count() > 1`. -/
  smp : Bool

variable (s : Vmm) (frame : ℕ)

namespace Vmm

def maxAddrspaces : ℕ := 32
def frameSlots : ℕ := 65536
def tlbBatch : ℕ := 32
def userLimit : ℕ := 0x0000800000000000

/-- The frames that `PTE_ADDR` can name. -/
def addrFrames : ℕ := 2 ^ 40

/-- `pmm_alloc`: a frame, 0 when there is none. -/
def pmmAlloc : ℕ × Vmm :=
  let (phys, m) := s.pmm.alloc
  (phys / pageSize, { s with pmm := m })

/-- `pmm_alloc_zeroed`: the new frame is empty both as a table and as data. -/
def pmmAllocZeroed : ℕ × Vmm :=
  let (phys, m, d) := s.pmm.allocZeroed s.data
  if phys ≠ 0 then
    (phys / pageSize,
      { s with pmm := m, data := d, tables := update s.tables (phys / pageSize) fun _ => {} })
  else (0, { s with pmm := m, data := d })

def pmmFree : Vmm := { s with pmm := s.pmm.free (frame * pageSize) }

def setEntry (t i : ℕ) (e : Pte) : Vmm :=
  { s with tables := update s.tables t (update (s.tables t) i e) }

def copyPage (dst src : ℕ) : Vmm :=
  { s with data := s.data.copy (dst * pageSize) (src * pageSize) pageSize }

def modifySpace (sp : ℕ) (f : AddrSpace → AddrSpace) : Vmm :=
  { s with gSpaces := update s.gSpaces sp (f (s.gSpaces sp)) }

def maxCgs : ℕ := 512

/-- The slots from `c` up to the root cgroup, slot 0. -/
def cgChain (cgs : ℕ → Cgroup) : ℕ → ℕ → List ℕ
  | 0, _ => []
  | fuel + 1, c =>
    if c = 0 then [c]
    else
      match (cgs c).parent with
      | none => [c]
      | some c' => c :: cgChain cgs fuel c'

/-- Changes `mem_bytes` of every cgroup of the chain. -/
def setMemBytes (chain : List ℕ) (f : ℕ → ℕ) : Vmm :=
  let update (g : Cgroup) : Cgroup := { g with memBytes := f g.memBytes }
  { s with gCgs := fun c => if c ∈ chain then update (s.gCgs c) else s.gCgs c }

def cgMemCharge (cg bytes : ℕ) : Bool × Vmm :=
  if maxCgs ≤ cg ∨ ¬(s.gCgs cg).live ∨ bytes = 0 then (true, s)
  else
    let chain := cgChain s.gCgs maxCgs cg
    if chain.any fun c => (s.gCgs c).memMax < add64 (s.gCgs c).memBytes bytes then (false, s)
    else
      (true, s.setMemBytes chain fun n => add64 n bytes)

def cgMemDischarge (cg bytes : ℕ) : Vmm :=
  if maxCgs ≤ cg ∨ ¬(s.gCgs cg).live ∨ bytes = 0 then s
  else
    s.setMemBytes (cgChain s.gCgs maxCgs cg) fun n => n - bytes

/-- `if (as->cg >= 0) cg_mem_charge(as->cg, PAGE_SIZE)`: false when the charge is refused. -/
def charge (sp : ℕ) : Bool × Vmm :=
  match (s.gSpaces sp).cg with
  | some cg => s.cgMemCharge cg pageSize
  | none => (true, s)

def discharge (sp : ℕ) : Vmm :=
  match (s.gSpaces sp).cg with
  | some cg => s.cgMemDischarge cg pageSize
  | none => s

@[irreducible] def shmHash : ℕ :=
  frame * 0x9E3779B97F4A7C15 % 2 ^ 64 / 2 ^ 32 % frameSlots

def shmFind : Option ℕ := Probe.find frameSlots shmHash s.gShm frame

def setSlot (j : ℕ) (x : Slot ℕ ℕ) : Vmm := { s with gShm := update s.gShm j x }

def refsAt (j : ℕ) : ℕ :=
  match s.gShm j with
  | .used _ refs => refs
  | _ => 0

/-- Takes the first slot that is not in use for `frame`, with one reference. -/
def register : Bool × Vmm :=
  match Probe.vacant frameSlots shmHash s.gShm frame with
  | some j =>
    (true, { s.setSlot j (.used frame 1) with gFrameSlotsUsed := s.gFrameSlotsUsed + 1 })
  | none => (false, s)

def forget (j : ℕ) : Vmm :=
  { s.setSlot j .tomb with gFrameSlotsUsed := s.gFrameSlotsUsed - 1 }

/-- `vmm_share_frame`: 1 when the frame is registered now, 0 when it already was, -1 when the table
is full. -/
def shareFrame : ℤ × Vmm :=
  match s.shmFind frame with
  | some _ => (0, s)
  | none =>
    match s.register frame with
    | (true, s) => (1, s)
    | (false, s) => (-1, s)

/-- `vmm_share_unref`: the last reference frees the frame. -/
def shareUnref : Vmm :=
  match s.shmFind frame with
  | none => s
  | some j =>
    let refs := (s.refsAt j + 2 ^ 32 - 1) % 2 ^ 32
    if refs = 0 then (s.forget j).pmmFree frame else s.setSlot j (.used frame refs)

/-- `vmm_frame_ref_count`: the count as a signed 32-bit number, -1 for a frame without a slot. -/
def frameRefCount : ℤ :=
  match s.shmFind frame with
  | some j => (BitVec.ofNat 32 (s.refsAt j)).toInt
  | none => -1

def frameRefForgetIfLast : Vmm :=
  match s.shmFind frame with
  | some j => if s.refsAt j = 1 then s.forget j else s
  | none => s

end Vmm

end Gnos
