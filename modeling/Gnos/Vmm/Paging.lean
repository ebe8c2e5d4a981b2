import Gnos.Vmm.Model

/-! The page-table operations of `src/mm/vmm.c`.  A function that the source makes return 0 for
failure returns `false`; what it changed before it failed stays changed. -/

namespace Gnos.Vmm

open ProofKit

def pteIndex (va level : ℕ) : ℕ := va / 2 ^ (12 + 9 * (level - 1)) % 512

def pageDown (a : ℕ) : ℕ := a / pageSize * pageSize

/-- How many pages a loop from `start` to `stop` visits. -/
def pageCount (start stop : ℕ) : ℕ := (stop - start) / pageSize

/-- `(vaddr + size + 0xFFF) & ~0xFFF`. -/
def rangeEnd (vaddr size : ℕ) : ℕ := pageDown (add64 (add64 vaddr size) 0xFFF)

def pteFlags (flags : VmFlags) : Pte :=
  { p := true, rw := flags.write, u := flags.user, nx := !flags.exec }

variable (s : Vmm)

/-- The part of `walk` that creates a table which is not there: false when it may not or cannot. -/
def openEntry (t i : ℕ) (create : Bool) : Bool × Vmm :=
  if (s.tables t i).p then (true, s)
  else if !create then (false, s)
  else
    let (next, s) := s.pmmAllocZeroed
    if next = 0 then (false, s)
    else (true, s.setEntry t i { p := true, rw := true, frame := next })

def permit (flags : VmFlags) (e : Pte) : Pte :=
  { e with rw := true, u := e.u || flags.user, nx := e.nx && !flags.exec }

def splitEntry (large : Pte) (level j : ℕ) : Pte :=
  { p := large.p, rw := large.rw, u := large.u, pwt := large.pwt, pcd := large.pcd, nx := large.nx,
    ps := level = 3, frame := large.frame + j * (if level = 3 then 512 else 1) }

def splitLarge (t i level : ℕ) : Bool × Vmm :=
  let large := s.tables t i
  if !large.ps then (true, s)
  else
    let (next, s) := s.pmmAllocZeroed
    if next = 0 then (false, s)
    else
      let s := { s with tables := Function.update s.tables next fun j =>
        if j < 512 then splitEntry large level j else {} }
      (true, s.setEntry t i { large with ps := false, avl := false, cow := false, frame := next })

/-- The loop of `walk`, with `n` levels to go down from the table `t`. -/
def walkFrom (va : ℕ) (create : Bool) (flags : VmFlags) : ℕ → ℕ → Vmm → Option (ℕ × ℕ) × Vmm
  | 0, t, s => (some (t, pteIndex va 1), s)
  | n + 1, t, s =>
    let i := pteIndex va (n + 2)
    match s.openEntry t i create with
    | (false, s) => (none, s)
    | (true, s) =>
      let s := if create then s.setEntry t i (permit flags (s.tables t i)) else s
      match s.splitLarge t i (n + 2) with
      | (false, s) => (none, s)
      | (true, s) => walkFrom va create flags n (s.tables t i).frame s

variable (sp va : ℕ)

/-- `walk`: the table and the index of the entry for `va`. -/
def walk (create : Bool) (flags : VmFlags) : Option (ℕ × ℕ) × Vmm :=
  walkFrom va create flags 3 (s.gSpaces sp).pml4 s

/-- `walk` without allocation. -/
def probe : Option (ℕ × ℕ) × Vmm := s.walk sp va false {}

def mapEntry (frame : ℕ) (flags : VmFlags) : Pte :=
  { pteFlags flags with frame := frame % addrFrames, avl := flags.extshm }

def vmmMap (sp va frame : ℕ) (flags : VmFlags) : Bool × Vmm :=
  match s.walk sp (pageDown va) true flags with
  | (none, s) => (false, s)
  | (some (t, i), s) =>
    let old := s.tables t i
    let release := old.p && (old.cow || old.avl) && old.frame ≠ frame % addrFrames
    let s := s.setEntry t i (mapEntry frame flags)
    (true, if release then s.shareUnref old.frame else s)

/-- `vmm_resolve`: the physical address behind `va`, 0 when there is none.  The walk may split a
large page. -/
def vmmResolve : ℕ × Vmm :=
  match s.probe sp (pageDown va) with
  | (some (t, i), s) =>
    (if (s.tables t i).p then (s.tables t i).frame * pageSize + va % pageSize else 0, s)
  | (none, s) => (0, s)

def vmmPageIsCow : Bool × Vmm :=
  match s.probe sp (pageDown va) with
  | (some (t, i), s) => ((s.tables t i).p && (s.tables t i).cow, s)
  | (none, s) => (false, s)

/-- What `vmm_cow_break_core` does to the entry that it found. -/
def breakEntry (t i : ℕ) : Bool × Vmm :=
  let e := s.tables t i
  if s.frameRefCount e.frame ≤ 1 then
    (true, (s.frameRefForgetIfLast e.frame).setEntry t i { e with cow := false, rw := true })
  else
    let (nframe, s) := s.pmmAlloc
    if nframe = 0 then (false, s)
    else
      let s := s.copyPage nframe e.frame
      let s := s.setEntry t i
        { p := true, rw := true, u := e.u, pwt := e.pwt, pcd := e.pcd, nx := e.nx,
          frame := nframe % addrFrames }
      (true, s.shareUnref e.frame)

/-- `vmm_cow_break`, whose core is all of it here. -/
def vmmCowBreak : Bool × Vmm :=
  match s.probe sp (pageDown va) with
  | (none, s) => (false, s)
  | (some (t, i), s) =>
    if !(s.tables t i).p || !(s.tables t i).cow then (false, s) else s.breakEntry t i

/-- One turn of `vmm_protect`: false when the page failed. -/
def protectPage (bits : Pte) : Bool × Vmm :=
  match s.probe sp va with
  | (none, s) => (true, s)
  | (some (t, i), s) =>
    if !(s.tables t i).p then (true, s)
    -- The source panics here.
    else if (s.tables t i).ps then (false, s)
    else
      let (ok, s) := if bits.rw && (s.tables t i).cow then s.vmmCowBreak sp va else (true, s)
      if !ok then (false, s)
      else (true, s.setEntry t i { s.tables t i with rw := bits.rw, nx := bits.nx })

def protectFrom (sp : ℕ) (bits : Pte) : ℕ → ℕ → Vmm → Bool × Vmm
  | 0, _, s => (true, s)
  | n + 1, va, s =>
    let (ok, s) := s.protectPage sp va bits
    let (rest, s) := protectFrom sp bits n (va + pageSize) s
    (ok && rest, s)

/-- `vmm_protect` of a range whose bounds are page aligned, for the write and execute bits of
`prot`. -/
def vmmProtect (sp va size : ℕ) (write exec : Bool) : Bool × Vmm :=
  if va % pageSize ≠ 0 ∨ size % pageSize ≠ 0 then (false, s)
  else
    protectFrom sp (pteFlags { user := true, write := write, exec := exec })
      (pageCount va (add64 va size)) va s

def release (shared : Bool) (frame : ℕ) : Vmm :=
  if shared then s.shareUnref frame else s.pmmFree frame

def releaseAll (batch : List (ℕ × Bool)) : Vmm :=
  batch.foldl (fun s (frame, shared) => s.release shared frame) s

/-- The loop of `vmm_unmap`.  With `cross`, the frames wait in a batch until the other processors
have been told. -/
def unmapFrom (sp : ℕ) (cross : Bool) : ℕ → ℕ → List (ℕ × Bool) → Vmm → Vmm
  | 0, _, batch, s => s.releaseAll batch
  | n + 1, va, batch, s =>
    match s.probe sp va with
    | (none, s) => unmapFrom sp cross n (va + pageSize) batch s
    | (some (t, i), s) =>
      let old := s.tables t i
      if !old.p then unmapFrom sp cross n (va + pageSize) batch s
      else
        let shared := old.avl || old.cow
        let s := s.setEntry t i {}
        let s := s.modifySpace sp fun a => { a with pages := a.pages - 1 }
        let s := s.discharge sp
        if cross then
          let batch := batch ++ [(old.frame, shared)]
          if batch.length = tlbBatch then
            unmapFrom sp cross n (va + pageSize) [] (s.releaseAll batch)
          else unmapFrom sp cross n (va + pageSize) batch s
        else unmapFrom sp cross n (va + pageSize) batch (s.release shared old.frame)

def needsShootdown (sp : ℕ) : Bool :=
  s.smp && ((s.gSpaces sp).pml4 = s.gKernelPml4 || 1 < (s.gSpaces sp).refs)

def vmmUnmap (sp va size : ℕ) : Vmm :=
  unmapFrom sp (s.needsShootdown sp) (pageCount (pageDown va) (rangeEnd va size)) (pageDown va) [] s

/-- One turn of `vmm_alloc_range`. -/
def allocPage (flags : VmFlags) : Bool × Vmm :=
  let (phys, s) := s.vmmResolve sp va
  if phys ≠ 0 then (true, s)
  else
    match s.charge sp with
    | (false, s) => (false, s)
    | (true, s) =>
      let (frame, s) := s.pmmAllocZeroed
      if frame = 0 then (false, s.discharge sp)
      else
        match s.vmmMap sp va frame flags with
        | (false, s) => (false, (s.pmmFree frame).discharge sp)
        | (true, s) => (true, s.modifySpace sp fun a => { a with pages := (a.pages + 1) % 2 ^ 32 })

def allocFrom (sp : ℕ) (flags : VmFlags) : ℕ → ℕ → Vmm → Bool × Vmm
  | 0, _, s => (true, s)
  | n + 1, va, s =>
    match s.allocPage sp va flags with
    | (true, s) => allocFrom sp flags n (va + pageSize) s
    | (false, s) => (false, s)

def vmmAllocRange (sp va size : ℕ) (flags : VmFlags) : Bool × Vmm :=
  allocFrom sp flags (pageCount (pageDown va) (rangeEnd va size)) (pageDown va) s

end Gnos.Vmm
