import Gnos.Vmm.Spaces

/-! The memory calls of a process: the records of its mappings in `src/kernel/syscall.c`
(`mmap_record` to `sys_brk`) and the page faults of `src/arch/x86/kernel/idt.c` that are served from
them.  File mappings are left out, and with them the list of tmpfs mappings that `sys_munmap` also
keeps; so is debug output. -/

namespace Gnos

open ProofKit Vmm

/-- A process as the memory calls see it: its address space and its break. -/
structure Mm where
  vmm : Vmm
  sp : ℕ
  brk : ℕ

inductive MmErr where
  | inval | nomem | nosys
  deriving DecidableEq

def mmapBase : ℕ := 0x500000000000

/-- `USER_MMAP_CEIL`. -/
def mmapTop : ℕ := 0x600000000000
def brkBase : ℕ := 0x600000000000
def brkCeil : ℕ := 0x6F0000000000
def stackTop : ℕ := 0x700000000000

def stackMax : ℕ := 8 * 1024 * 1024

def maxMmaps : ℕ := 512

variable (prot : ℕ)

/-- `PROT_READ`, `PROT_WRITE` and `PROT_EXEC` are bits 0, 1 and 2. -/
def protRead : Bool := prot.testBit 0

def protWrite : Bool := prot.testBit 1

def protExec : Bool := prot.testBit 2

/-- `MAP_SHARED` is bit 0 of the flags, `MAP_FIXED` bit 4. -/
def mapShared (flags : ℕ) : Bool := flags.testBit 0

def mapFixed (flags : ℕ) : Bool := flags.testBit 4

/-- The flags of a mapping with protection `prot`; `VM_READ` is 0. -/
def vmFlagsOf : VmFlags :=
  { user := true, write := protWrite prot, exec := protExec prot }

/-- `(len + 0xFFF) & ~0xFFF`. -/
def roundUp (len : ℕ) : ℕ := pageDown (add64 len 0xFFF)

namespace MmapRec

def stop (r : MmapRec) : ℕ := add64 r.base r.size

def covers (r : MmapRec) (addr : ℕ) : Bool := r.base ≤ addr && addr < r.stop

end MmapRec

variable (l : List MmapRec)

namespace Mmaps

/-- `as->mmaps[i]`. -/
def recAt (i : ℕ) : MmapRec := l.getD i { base := 0, size := 0, flags := {} }

def lowHigh (i j : ℕ) : ℕ × ℕ :=
  if (recAt l j).base < (recAt l i).base then (j, i) else (i, j)

/-- Whether a third record overlaps what `lo` and `hi` cover. -/
def blocked (lo hi : ℕ) : Bool :=
  (List.range l.length).any fun k =>
    k ≠ lo && k ≠ hi && (recAt l k).base < (recAt l hi).stop && (recAt l lo).base < (recAt l k).stop

/-- Whether `mmap_record` joins the records `i` and `j`. -/
def mergeable (i j : ℕ) : Bool :=
  let (lo, hi) := lowHigh l i j
  (recAt l j).flags = (recAt l i).flags && (recAt l lo).stop = (recAt l hi).base && !blocked l lo hi

def merge (i j : ℕ) : List MmapRec :=
  let (lo, hi) := lowHigh l i j
  let grown := { recAt l lo with size := add64 (recAt l lo).size (recAt l hi).size }
  let l := l.set lo grown
  (l.set hi (recAt l (l.length - 1))).dropLast

/-- The inner loop of `mmap_record`: after each of at most `n` joins the records above `i` are
searched again. -/
def coalesceAt (i : ℕ) : ℕ → List MmapRec → List MmapRec
  | 0, l => l
  | n + 1, l =>
    match (List.range' (i + 1) (l.length - (i + 1))).find? (mergeable l i) with
    | some j => coalesceAt i n (merge l i j)
    | none => l

def coalesceFrom : ℕ → ℕ → List MmapRec → List MmapRec
  | 0, _, l => l
  | n + 1, i, l =>
    if i + 1 < l.length then coalesceFrom n (i + 1) (coalesceAt i l.length l) else l

def coalesce : List MmapRec := coalesceFrom l.length 0 l

/-- `mmap_record`: no list when the array is full. -/
def record (base size : ℕ) (flags : VmFlags) : Option (List MmapRec) :=
  if maxMmaps ≤ l.length then none else some (coalesce (l ++ [⟨base, size, flags⟩]))

/-- `mmap_find`: the first record that covers `addr`. -/
def find (addr : ℕ) : Option ℕ := l.findIdx? (·.covers addr)

/-- The record that a page fault is served from: the last one that covers `addr`. -/
def last (addr : ℕ) : Option MmapRec := l.reverse.find? (·.covers addr)

def arenaTop : ℕ :=
  l.foldl (fun base r =>
    if r.base < mmapBase || mmapTop ≤ r.base then base else if base < r.stop then r.stop else base)
    mmapBase

def pickBase (size : ℕ) : Option ℕ :=
  if mmapTop < add64 (arenaTop l) size then none else some (arenaTop l)

/-- One turn of `mmap_update_flags`: what reaches above or below the range is split off while the
array has room. -/
def reflag (addr rEnd : ℕ) (flags : VmFlags) (i : ℕ) : List MmapRec :=
  let r := recAt l i
  if r.stop ≤ addr || rEnd ≤ r.base then l
  else
    let above := rEnd < r.stop && l.length < maxMmaps
    let e := if above then rEnd else r.stop
    let l := if above then
        l.set i { r with size := rEnd - r.base } ++ [⟨rEnd, r.stop - rEnd, r.flags⟩]
      else l
    let below := r.base < addr && l.length < maxMmaps
    let l := if below then
        l.set i { r with base := addr, size := sub64 e addr } ++ [⟨r.base, addr - r.base, r.flags⟩]
      else l
    l.set i { recAt l i with flags := flags }

def updateFrom (addr rEnd : ℕ) (flags : VmFlags) : ℕ → ℕ → List MmapRec → List MmapRec
  | 0, _, l => l
  | n + 1, i, l =>
    if i < l.length then updateFrom addr rEnd flags n (i + 1) (reflag l addr rEnd flags i) else l

/-- `mmap_update_flags`; the array has no more than `maxMmaps` records to visit. -/
def updateFlags (addr size : ℕ) (flags : VmFlags) : List MmapRec :=
  updateFrom addr (add64 addr size) flags maxMmaps 0 l

end Mmaps

variable (p : Mm)

namespace Mm

def mmaps (p : Mm) : List MmapRec := (p.vmm.gSpaces p.sp).mmaps

def setMmaps (l : List MmapRec) : Mm :=
  { p with vmm := p.vmm.modifySpace p.sp fun a => { a with mmaps := l } }

def setVmm (s : Vmm) : Mm := { p with vmm := s }

def mmapRecord (base size : ℕ) (flags : VmFlags) : Bool × Mm :=
  match Mmaps.record p.mmaps base size flags with
  | some l => (true, p.setMmaps l)
  | none => (false, p)

/-- Where `sys_mmap` puts an anonymous mapping.  `MAP_FIXED` takes away what was there. -/
def place (addr size : ℕ) (fixed : Bool) : Except MmErr ℕ × Mm :=
  let pick := match Mmaps.pickBase p.mmaps size with
    | some base => .ok base
    | none => .error .nomem
  if fixed then
    if addr = 0 || userLimit < add64 addr size then (.error .inval, p)
    else (.ok addr, p.setVmm (p.vmm.vmmUnmap p.sp addr size))
  else if addr ≠ 0 then
    let base := pageDown addr
    if p.mmaps.any fun r => base < r.stop && r.base < add64 base size then (pick, p)
    else (.ok base, p)
  else (pick, p)

/-- One page of a `MAP_SHARED` mapping: a zeroed frame that the table of shared frames owns. -/
def sharePage (s : Vmm) (sp va : ℕ) (flags : VmFlags) : Bool × Vmm :=
  let (frame, s) := s.pmmAllocZeroed
  if frame = 0 then (false, s)
  else
    let (code, s) := s.shareFrame frame
    if code < 0 then (false, s.pmmFree frame)
    else
      match s.vmmMap sp va frame flags with
      | (false, s) => (false, s.shareUnref frame)
      | (true, s) =>
        (true, (s.charge sp).2.modifySpace sp fun a => { a with pages := (a.pages + 1) % 2 ^ 32 })

/-- The loop over the pages of a `MAP_SHARED` mapping, `i` of which are done; a failure takes them
back. -/
def shareFrom (sp base : ℕ) (flags : VmFlags) : ℕ → ℕ → Vmm → Bool × Vmm
  | 0, _, s => (true, s)
  | n + 1, i, s =>
    match sharePage s sp (add64 base (i * pageSize)) flags with
    | (true, s) => shareFrom sp base flags n (i + 1) s
    | (false, s) => (false, s.vmmUnmap sp base (i * pageSize))

/-- `sys_mmap` of anonymous memory. -/
def sysMmap (addr len prot flags : ℕ) : Except MmErr ℕ × Mm :=
  if len = 0 then (.error .inval, p)
  else
    let size := roundUp len
    match p.place addr size (mapFixed flags) with
    | (.error e, p) => (.error e, p)
    | (.ok base, p) =>
      if mapShared flags then
        let shared := { vmFlagsOf prot with extshm := true }
        match shareFrom p.sp base shared (size / pageSize % 2 ^ 32) 0 p.vmm with
        | (false, s) => (.error .nomem, p.setVmm s)
        | (true, s) =>
          match (p.setVmm s).mmapRecord base size shared with
          | (false, p) => (.error .nomem, p)
          | (true, p) => (.ok base, p)
      else
        -- The record is all: the pages are backed when they are touched.
        match p.mmapRecord base size (vmFlagsOf prot) with
        | (false, p) => (.error .nomem, p)
        | (true, p) => (.ok base, p)

def sysMprotect (addr len prot : ℕ) : Except MmErr Unit × Mm :=
  let size := roundUp len
  if addr % pageSize ≠ 0 then (.error .inval, p)
  else if size = 0 || userLimit < add64 addr size then (.error .inval, p)
  else if prot = 1 then (.error .nosys, p)
  else
    let p := p.setMmaps (Mmaps.updateFlags p.mmaps addr size (vmFlagsOf prot))
    let (ok, s) := p.vmm.vmmProtect p.sp addr size (protWrite prot) (protExec prot)
    (if ok then .ok () else .error .nomem, p.setVmm s)

/-- `sys_munmap`: the whole of a record, its beginning or its end. -/
def sysMunmap (addr len : ℕ) : Except MmErr Unit × Mm :=
  match Mmaps.find p.mmaps addr with
  | none => (.error .inval, p)
  | some idx =>
    let r := Mmaps.recAt p.mmaps idx
    let ulen := if r.size < roundUp len then r.size else roundUp len
    if addr = r.base ∧ ulen = r.size then
      let p := p.setVmm (p.vmm.vmmUnmap p.sp r.base r.size)
      (.ok (), p.setMmaps (p.mmaps.eraseIdx idx))
    else if addr = r.base ∧ ulen < r.size then
      let p := p.setVmm (p.vmm.vmmUnmap p.sp r.base ulen)
      (.ok (), p.setMmaps (p.mmaps.set idx
        { r with base := add64 r.base ulen, size := r.size - ulen }))
    else if add64 addr ulen = r.stop then
      let p := p.setVmm (p.vmm.vmmUnmap p.sp addr ulen)
      (.ok (), p.setMmaps (p.mmaps.set idx { r with size := r.size - ulen }))
    else (.error .inval, p)

def sysBrk (addr : ℕ) : ℕ × Mm :=
  if addr = 0 then (p.brk, p)
  else if addr < brkBase ∨ brkCeil < addr then (p.brk, p)
  else if p.brk < addr then
    match p.vmm.vmmAllocRange p.sp p.brk (addr - p.brk) { user := true, write := true } with
    | (false, s) => (p.brk, p.setVmm s)
    | (true, s) => (addr, { p.setVmm s with brk := addr })
  else if addr < p.brk then
    (addr, { p.setVmm (p.vmm.vmmUnmap p.sp addr (p.brk - addr)) with brk := addr })
  else (addr, p)

end Mm

inductive Access where
  | read | write | fetch
  deriving DecidableEq

/-- What the processor grants through a leaf entry; the entries above it are opened for everything
by `walk`. -/
def Pte.permits (e : Pte) : Access → Bool
  | .read => e.p && e.u
  | .write => e.p && e.u && e.rw
  | .fetch => e.p && e.u && !e.nx

namespace Vmm

variable (s : Vmm)

def vmmGrowStack (sp addr : ℕ) : Bool × Vmm :=
  if stackTop ≤ addr ∨ addr < stackTop - stackMax then (false, s)
  else
    let (phys, s) := s.vmmResolve sp (pageDown addr)
    if phys ≠ 0 then (false, s)
    else s.vmmAllocRange sp (pageDown addr) pageSize { user := true, write := true }

/-- The end of `fault_back_lazy`: a zeroed frame, charged for once it is mapped.  One that could not
be mapped is not given back. -/
def backPage (sp va : ℕ) (flags : VmFlags) : Bool × Vmm :=
  let (frame, s) := s.pmmAllocZeroed
  if frame = 0 then (false, s)
  else
    match s.vmmMap sp va frame flags with
    | (false, s) => (false, s)
    | (true, s) =>
      let s := s.modifySpace sp fun a => { a with pages := (a.pages + 1) % 2 ^ 32 }
      match s.charge sp with
      | (false, s) => (false, s.vmmUnmap sp va pageSize)
      | (true, s) => (true, s)

def faultBackLazy (sp cr2 : ℕ) (kind : Access) : Bool × Vmm :=
  let (cow, s) := if kind = .write then s.vmmPageIsCow sp cr2 else (false, s)
  if cow then s.vmmCowBreak sp cr2
  else
    match Mmaps.last (s.gSpaces sp).mmaps cr2 with
    | none => (false, s)
    | some r =>
      if kind = .write ∧ r.flags.write = false then (false, s)
      else if kind = .fetch ∧ r.flags.exec = false then (false, s)
      else
        let (phys, s) := s.vmmResolve sp (pageDown cr2)
        -- A page that is there only gets the permissions of its record.
        if phys ≠ 0 then s.vmmProtect sp (pageDown cr2) pageSize r.flags.write r.flags.exec
        else s.backPage sp (pageDown cr2) r.flags

/-- The page-fault branch of `isr_dispatch` for user mode: false is `SIGSEGV`. -/
def pageFault (sp cr2 : ℕ) (kind : Access) : Bool × Vmm :=
  match s.vmmGrowStack sp cr2 with
  | (true, s) => (true, s)
  | (false, s) => s.faultBackLazy sp cr2 kind

/-- The leaf entry that the processor finds for `va`. -/
def pteOf (sp va : ℕ) : Pte := ((s.userView sp).pteAt (pageDown va)).getD {}

/-- An instruction that accesses `va`: it is tried again after every fault that was served, at most
`n` times.  The answer is whether it went through or met `SIGSEGV`. -/
def access (sp va : ℕ) (kind : Access) : ℕ → Vmm → Option Bool × Vmm
  | 0, s => (none, s)
  | n + 1, s =>
    if (s.pteOf sp va).permits kind then (some true, s)
    else
      match s.pageFault sp va kind with
      | (true, s) => access sp va kind n s
      | (false, s) => (some false, s)

end Vmm

end Gnos
