import Gnos.Vmm.Paging

/-! The user part of an address space, and the checks of `user_ptr_ok` and `user_buf_ok`. -/

namespace Gnos.Vmm

/-- How many entries of a table belong to the address space: the upper half of the top table is the
kernel's. -/
def levelLimit (level : ℕ) : ℕ := if level = 4 then 256 else 512

def userPtrOk (p len : ℕ) : Bool :=
  p ≠ 0 && p < userLimit && len ≤ userLimit && p + len ≤ userLimit

end Gnos.Vmm

namespace Gnos

/-- What `user_buf_ok` reads of an address space: the entry that `walk` finds for a page, and the
records of its mappings. -/
structure UserView where
  pteAt : ℕ → Option Pte
  mmaps : List MmapRec

namespace UserView

open ProofKit Vmm

def record (v : UserView) (va : ℕ) : Option MmapRec :=
  v.mmaps.reverse.find? fun r => r.base ≤ va && va < add64 r.base r.size

/-- A page that the copy may touch: present with the permission that it needs, or covered by a
record from which the fault handler can back it. -/
def pageOk (v : UserView) (writing : Bool) (va : ℕ) : Bool :=
  let present := match v.pteAt va with
    | some e => e.p && (!writing || e.rw || e.cow)
    | none => false
  present || match v.record va with
    | some r => !writing || r.flags.write
    | none => false

/-- `user_buf_ok`; no view stands for a missing address space. -/
def bufOk (v : Option UserView) (p len : ℕ) (writing : Bool) : Bool :=
  userPtrOk p len &&
    match v with
    | none => true
    | some v =>
      len = 0 || (List.range (pageCount (pageDown p) (pageDown (p + len - 1)) + 1)).all fun i =>
          v.pageOk writing (pageDown p + i * pageSize)

end UserView

def Vmm.userView (s : Vmm) (sp : ℕ) : UserView where
  pteAt va :=
    let (entry, s) := s.probe sp va
    entry.map fun (t, i) => s.tables t i
  mmaps := (s.gSpaces sp).mmaps

end Gnos
