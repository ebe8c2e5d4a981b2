import Gnos.ProofKit.Runs
import Gnos.Vmm.Ranges
import Gnos.Vmm.Records

/-! What the memory calls of a process are for: a map from pages to protections.  The last
successful call on a page decides. -/

namespace Gnos

open ProofKit Vmm Function List Option Mmaps Nat

variable {r : MmapRec} {s : Vmm} {addr base i len lo n size : ℕ}

/-! ### The map -/

structure Prot where
  read : Bool
  write : Bool
  exec : Bool
  deriving DecidableEq

def Prot.allows (q : Prot) : Access → Bool
  | .read => q.read
  | .write => q.write
  | .fetch => q.exec

/-- The protection of each page that is mapped. -/
abbrev AddressMap := ℕ → Option Prot

variable (m : AddressMap)

namespace AddressMap

def InRange (first n v : ℕ) : Prop := first ≤ v ∧ v < first + n

instance (first n v : ℕ) : Decidable (InRange first n v) := inferInstanceAs (Decidable (_ ∧ _))

def map (first n : ℕ) (q : Prot) : AddressMap :=
  fun v => if InRange first n v then some q else m v

def protect (first n : ℕ) (q : Prot) : AddressMap :=
  fun v => if InRange first n v then (m v).map fun _ => q else m v

def unmap (first n : ℕ) : AddressMap :=
  fun v => if InRange first n v then none else m v

def fill (first n : ℕ) (q : Prot) : AddressMap :=
  fun v => if InRange first n v ∧ m v = none then some q else m v

/-- The number of the first page that lies above address `a` as a whole. -/
def pageAbove (a : ℕ) : ℕ := (a + 0xFFF) / pageSize

/-- The break moves: new heap pages can be read and written, and the pages above a lower break are
gone. -/
def moveBreak (old new : ℕ) : AddressMap :=
  if old < new then m.fill (old / pageSize) (pageAbove new - old / pageSize) ⟨true, true, false⟩
  else m.unmap (pageAbove new) (pageAbove old - pageAbove new)

def allows (m : AddressMap) (va : ℕ) (kind : Access) : Bool :=
  (m (va / pageSize)).any (·.allows kind)

end AddressMap

/-! ### Runs -/

inductive MmOp where
  | mmap (addr len prot flags : ℕ)
  | mprotect (addr len prot : ℕ)
  | munmap (addr len : ℕ)
  | brk (addr : ℕ)
  | touch (va : ℕ) (kind : Access)

structure Tracked where
  mm : Mm
  map : AddressMap

def protOf (prot : ℕ) : Prot := ⟨protRead prot, protWrite prot, protExec prot⟩

def turns : ℕ := 4

namespace Tracked

def exec (t : Tracked) : MmOp → Tracked
  | .mmap addr len prot flags =>
    match t.mm.sysMmap addr len prot flags with
    | (.ok base, p) => ⟨p, t.map.map (base / pageSize) (roundUp len / pageSize) (protOf prot)⟩
    | (.error _, p) => ⟨p, t.map⟩
  | .mprotect addr len prot =>
    match t.mm.sysMprotect addr len prot with
    | (.ok _, p) => ⟨p, t.map.protect (addr / pageSize) (roundUp len / pageSize) (protOf prot)⟩
    | (.error _, p) => ⟨p, t.map⟩
  | .munmap addr len =>
    match t.mm.sysMunmap addr len with
    | (.ok _, p) => ⟨p, t.map.unmap (addr / pageSize) (roundUp len / pageSize)⟩
    | (.error _, p) => ⟨p, t.map⟩
  | .brk addr =>
    let p := (t.mm.sysBrk addr).2
    ⟨p, t.map.moveBreak t.mm.brk p.brk⟩
  | .touch va kind => ⟨t.mm.setVmm (access t.mm.sp va kind turns t.mm.vmm).2, t.map⟩

end Tracked

/-! ### The start -/

def StackPage (v : ℕ) : Prop := stackTop - stackMax ≤ v * pageSize ∧ v * pageSize < stackTop

instance (v : ℕ) : Decidable (StackPage v) := inferInstanceAs (Decidable (_ ∧ _))

namespace Mm

def leaf (p : Mm) (v : ℕ) : Pte := p.vmm.leaves (p.sp, v)

def imageMap (p : Mm) : AddressMap := fun v =>
  if (p.leaf v).p then some ⟨true, (p.leaf v).rw, !(p.leaf v).nx⟩
  else if StackPage v then some ⟨true, true, false⟩
  else none

/-- A process as `execve` leaves it: pages of its own outside the arena, and no record. -/
structure Fresh (p : Mm) : Prop where
  inv : ∃ role base, Inv p.vmm role base fun _ => 0
  used : p.vmm.gUsed p.sp
  records : p.mmaps = []
  brk : p.brk = brkBase
  plain : ∀ v, (p.leaf v).p → (p.leaf v).u ∧ (p.leaf v).cow = false ∧ (p.leaf v).ps = false
  arena : ∀ v, (p.leaf v).p → v * pageSize < mmapBase ∨ mmapTop ≤ v * pageSize

/-! ### What the calls must keep to -/

def Clear (p : Mm) (base size : ℕ) : Prop :=
  ∀ r ∈ p.mmaps, r.base + r.size ≤ base ∨ base + size ≤ r.base

def Absent (p : Mm) (base size : ℕ) : Prop :=
  ∀ v, base ≤ v * pageSize → v * pageSize < base + size → (p.leaf v).p = false

/-- A page that something is mapped at, or that the stack may grow into. -/
def Mapped (p : Mm) (v : ℕ) : Prop :=
  (∃ r ∈ p.mmaps, Covers r (v * pageSize)) ∨ (p.leaf v).p ∨ StackPage v

/-- A fixed mapping is aligned, lies where no other record is and off the stack, and a full array
costs no page; a hint is good, or on a record so that another place is picked. -/
def SoundPlace (p : Mm) (addr size : ℕ) (fixed : Bool) : Prop :=
  if fixed then
    addr % pageSize = 0 ∧ addr ≤ userLimit ∧ (addr + size ≤ userLimit →
      Spot addr size ∧ p.Clear addr size ∧ (p.mmaps.length < maxMmaps ∨ p.Absent addr size))
  else
    addr ≠ 0 → p.Clear (pageDown addr) size → Spot (pageDown addr) size ∧
      p.Absent (pageDown addr) size

/-- The condition on one call, in the state before it. -/
def Sound (p : Mm) : MmOp → Prop
  | .mmap addr len prot flags =>
    mapShared flags = false ∧ protRead prot ∧ len ≤ userLimit ∧
      p.SoundPlace addr (roundUp len) (mapFixed flags)
  | .mprotect addr len prot =>
    protRead prot ∧ addr ≤ userLimit ∧ len ≤ userLimit ∧
      p.mmaps.length + (p.mmaps.map (spare addr (addr + roundUp len))).sum ≤ maxMmaps ∧
      ∀ v, addr ≤ v * pageSize → v * pageSize < addr + roundUp len → StackPage v → (p.leaf v).p
  | .munmap addr len =>
    len ≤ userLimit ∧ ∀ i, find p.mmaps addr = some i →
      ∀ v, addr ≤ v * pageSize → v * pageSize < addr + roundUp len → p.Mapped v →
        Covers (recAt p.mmaps i) (v * pageSize)
  | .brk addr =>
    brkBase ≤ addr → addr ≤ brkCeil →
      (p.brk < addr → p.Clear (pageDown p.brk) (roundUp addr - pageDown p.brk) ∧
        Supply p.vmm p.sp (pageCount (pageDown p.brk) (roundUp addr))) ∧
      (addr < p.brk → addr % pageSize = 0 ∧ p.Clear addr (roundUp p.brk - addr))
  | .touch va _ => va < userLimit ∧ Supply p.vmm p.sp 1

end Mm

/-- The states that sound runs reach from a process that `execve` has set up. -/
def Tracked.Reached : Tracked → Prop :=
  Reaches (fun t => t.mm.Fresh ∧ t.map = t.mm.imageMap) (fun t op => t.mm.Sound op) Tracked.exec

/-! ### The invariant -/

namespace Mm

/-- What the process shows of a page: its record decides, then its entry, then the stack. -/
def view (p : Mm) : AddressMap := fun v =>
  match flagsAt p.mmaps (v * pageSize) with
  | some f => some ⟨true, f.write, f.exec⟩
  | none => p.imageMap v

structure Tidy (p : Mm) : Prop where
  inv : ∃ role base, Inv p.vmm role base fun _ => 0
  used : p.vmm.gUsed p.sp
  records : Records p.mmaps
  brk : brkBase ≤ p.brk ∧ p.brk ≤ brkCeil
  plain : ∀ v, (p.leaf v).p → (p.leaf v).u ∧ (p.leaf v).cow = false ∧ (p.leaf v).ps = false
  /-- An entry has the permissions of its record. -/
  synced : ∀ v f, (p.leaf v).p → flagsAt p.mmaps (v * pageSize) = some f →
    (p.leaf v).rw = f.write ∧ (p.leaf v).nx = !f.exec
  /-- Nothing is mapped in the arena without a record. -/
  arena : ∀ v, (p.leaf v).p → mmapBase ≤ v * pageSize → v * pageSize < mmapTop →
    flagsAt p.mmaps (v * pageSize) ≠ none

section Tidy

variable {p p' : Mm} {v va : ℕ}

theorem Fresh.tidy (h : p.Fresh) : p.Tidy := by
  have hNone : ∀ a, flagsAt p.mmaps a = none := by
    intro a
    rw [h.records]
    rfl
  refine ⟨h.inv, h.used, by rw [h.records]; exact .empty, by rw [h.brk]; decide, h.plain, ?_, ?_⟩
  · intro v f _ hFlags
    rw [hNone] at hFlags
    cases hFlags
  · intro v hp hLow hHigh
    have hOut := h.arena v hp
    omega

theorem Fresh.view (h : p.Fresh) : p.view = p.imageMap := by
  funext v
  unfold Mm.view
  rw [h.records]
  rfl

theorem view_of_flags {f : VmFlags} (h : flagsAt p.mmaps (v * pageSize) = some f) :
    p.view v = some ⟨true, f.write, f.exec⟩ := by
  unfold view
  rw [h]

theorem view_of_none (h : flagsAt p.mmaps (v * pageSize) = none) : p.view v = p.imageMap v := by
  unfold view
  rw [h]

theorem view_of_gone (hFlags : flagsAt p.mmaps (v * pageSize) = none) (hp : (p.leaf v).p = false)
    (hOff : ¬StackPage v) : p.view v = none := by
  rw [view_of_none hFlags, imageMap, if_neg (Bool.eq_false_iff.mp hp), if_neg hOff]

theorem view_congr (hFlags : flagsAt p'.mmaps (v * pageSize) = flagsAt p.mmaps (v * pageSize))
    (hLeaf : (p'.leaf v).p = (p.leaf v).p)
    (hBits : (p.leaf v).p → p'.leaf v = p.leaf v) : p'.view v = p.view v := by
  unfold view imageMap
  rw [hFlags, hLeaf]
  cases flagsAt p.mmaps (v * pageSize) with
  | some f => rfl
  | none =>
    dsimp only
    split
    · rename_i hp
      rw [hBits hp]
    · rfl

theorem view_of_same (hRecs : p'.mmaps = p.mmaps) (hLeaf : p'.leaf v = p.leaf v) :
    p'.view v = p.view v :=
  view_congr (by rw [hRecs]) (by rw [hLeaf]) fun _ => hLeaf

/-- What a tidy process has in the entry of a page that is there. -/
def Right (l : List MmapRec) (e : Pte) (v : ℕ) : Prop :=
  (e.u ∧ e.cow = false ∧ e.ps = false) ∧
    (∀ f, flagsAt l (v * pageSize) = some f → e.rw = f.write ∧ e.nx = !f.exec) ∧
    (mmapBase ≤ v * pageSize → v * pageSize < mmapTop → flagsAt l (v * pageSize) ≠ none)

theorem Tidy.right (h : p.Tidy) (hp : (p.leaf v).p) : Right p.mmaps (p.leaf v) v :=
  ⟨h.plain v hp, fun f => h.synced v f hp, h.arena v hp⟩

theorem Tidy.of_right (hInv : ∃ role base, Inv p.vmm role base fun _ => 0)
    (hUsed : p.vmm.gUsed p.sp)
    (hRecords : Records p.mmaps) (hBrk : brkBase ≤ p.brk ∧ p.brk ≤ brkCeil)
    (hRight : ∀ v, (p.leaf v).p → Right p.mmaps (p.leaf v) v) : p.Tidy :=
  ⟨hInv, hUsed, hRecords, hBrk, fun v hp => (hRight v hp).1, fun v f hp => (hRight v hp).2.1 f,
    fun v hp => (hRight v hp).2.2⟩

theorem Tidy.setVmm (h : p.Tidy) {role : Roles} {base : Set ℕ}
    (hKept : Kept role base (fun _ => 0) p.vmm s)
    (hNew : ∀ v, (s.leaves (p.sp, v)).p → s.leaves (p.sp, v) ≠ p.leaf v →
      Right p.mmaps (s.leaves (p.sp, v)) v) : (p.setVmm s).Tidy ∧ (p.setVmm s).mmaps = p.mmaps := by
  have hRecs : (p.setVmm s).mmaps = p.mmaps := by
    show (s.gSpaces p.sp).mmaps = _
    rw [hKept.stays.space]
    rfl
  refine ⟨.of_right ⟨role, base, hKept.inv⟩ ?_ (by rw [hRecs]; exact h.records) h.brk
    fun v hp => ?_, hRecs⟩
  · show s.gUsed p.sp
    rw [hKept.stays.used]
    exact h.used
  · rw [hRecs]
    by_cases hSame : s.leaves (p.sp, v) = p.leaf v
    · rw [show (p.setVmm s).leaf v = p.leaf v from hSame] at hp ⊢
      exact h.right hp
    · exact hNew v hp hSame

theorem mmaps_setMmaps (p : Mm) (l : List MmapRec) : (p.setMmaps l).mmaps = l := by
  unfold setMmaps mmaps modifySpace
  dsimp only
  rw [update_self]

theorem sameTree_setMmaps (p : Mm) (l : List MmapRec) : SameTree p.vmm (p.setMmaps l).vmm := by
  refine ⟨rfl, rfl, fun sp => ?_⟩
  unfold setMmaps modifySpace
  dsimp only
  rcases eq_or_ne sp p.sp with rfl | hne
  · rw [update_self]
  · rw [update_of_ne hne]

theorem leaf_setMmaps (p : Mm) (l : List MmapRec) : (p.setMmaps l).leaf = p.leaf := by
  funext v
  show (p.setMmaps l).vmm.leaves (p.sp, v) = _
  rw [(sameTree_setMmaps p l).leaves]
  rfl

theorem inv_setMmaps {role : Roles} {base : Set ℕ} (h : Inv p.vmm role base fun _ => 0)
    (l : List MmapRec) : Inv (p.setMmaps l).vmm role base fun _ => 0 :=
  h.quiet (sameTree_setMmaps p l) rfl rfl rfl

theorem Tidy.setMmaps (h : p.Tidy) {l : List MmapRec} (hRecords : Records l)
    (hNew : ∀ v, (p.leaf v).p → Right l (p.leaf v) v) : (p.setMmaps l).Tidy := by
  obtain ⟨role, base, hInv⟩ := h.inv
  refine .of_right ⟨role, base, inv_setMmaps hInv l⟩ h.used (by rw [mmaps_setMmaps]; exact hRecords)
    h.brk ?_
  rw [leaf_setMmaps, mmaps_setMmaps]
  exact hNew

/-! ### Accesses -/

theorem Tidy.permits (h : p.Tidy) (hp : (p.leaf v).p) (kind : Access) :
    (p.leaf v).permits kind = (p.view v).any (·.allows kind) := by
  have hUser := (h.plain v hp).1
  cases hFlags : flagsAt p.mmaps (v * pageSize) with
  | some f =>
    obtain ⟨hWrite, hExec⟩ := h.synced v f hp hFlags
    rw [view_of_flags hFlags]
    cases kind <;> simp [Pte.permits, Prot.allows, hp, hUser, hWrite, hExec]
  | none =>
    rw [view_of_none hFlags, imageMap, if_pos hp]
    cases kind <;> simp [Pte.permits, Prot.allows, hp, hUser]

theorem permits_absent (hp : (p.leaf v).p = false) (kind : Access) :
    (p.leaf v).permits kind = false := by
  cases kind <;> simp [Pte.permits, hp]

theorem Tidy.back (h : p.Tidy) {role : Roles} {base : Set ℕ} {frame : ℕ} {flags : VmFlags}
    (hKept : Kept role base (fun _ => 0) p.vmm s) (hUser : flags.user)
    (hLeaves : s.leaves = update p.vmm.leaves (p.sp, v) (mapEntry frame flags))
    (hFlags : ∀ f, flagsAt p.mmaps (v * pageSize) = some f → f = flags)
    (hArena : mmapBase ≤ v * pageSize → v * pageSize < mmapTop →
      flagsAt p.mmaps (v * pageSize) ≠ none)
    (hShown : p.view v = some ⟨true, flags.write, flags.exec⟩) :
    (p.setVmm s).Tidy ∧ (p.setVmm s).view = p.view ∧
    (p.setVmm s).leaf v = mapEntry frame flags := by
  have hAt : s.leaves (p.sp, v) = mapEntry frame flags := by rw [hLeaves, update_self]
  have hOther : ∀ w ≠ v, s.leaves (p.sp, w) = p.leaf w := by
    intro w hw
    rw [hLeaves, update_of_ne (by simp [hw])]
    rfl
  obtain ⟨hTidy, hRecs⟩ := h.setVmm hKept fun w _ hChanged => by
    obtain rfl : w = v := by
      by_contra hne
      exact hChanged (hOther w hne)
    rw [hAt]
    refine ⟨⟨hUser, rfl, rfl⟩, fun f hf => ?_, hArena⟩
    rw [hFlags f hf]
    exact ⟨rfl, rfl⟩
  refine ⟨hTidy, ?_, hAt⟩
  funext w
  rcases eq_or_ne w v with rfl | hne
  · have hPresent : ((p.setVmm s).leaf w).p := by
      show (s.leaves (p.sp, w)).p
      rw [hAt]
      rfl
    rw [hShown]
    cases hOld : flagsAt p.mmaps (w * pageSize) with
    | some f =>
      rw [view_of_flags (by rw [hRecs]; exact hOld), hFlags f hOld]
    | none =>
      rw [view_of_none (by rw [hRecs]; exact hOld), imageMap, if_pos hPresent]
      show some (⟨true, (s.leaves (p.sp, w)).rw, !(s.leaves (p.sp, w)).nx⟩ : Prot) = _
      rw [hAt]
      simp [mapEntry, pteFlags]
  · exact view_of_same hRecs (hOther w hne)

theorem onePage (hva : va < userLimit) :
    pageCount (pageDown (pageDown va)) (rangeEnd (pageDown va) pageSize) = 1 ∧
      pageDown va + pageSize ≤ userLimit ∧ pageDown va < userLimit := by
  unfold userLimit at *
  have hDown : pageDown va + pageSize ≤ 0x0000800000000000 := by
    unfold pageDown pageSize
    omega
  have hEnd : rangeEnd (pageDown va) pageSize = pageDown va + pageSize := by
    have hSum : add64 (pageDown va) pageSize = pageDown va + pageSize := add64_of_lt (by omega)
    unfold rangeEnd
    rw [hSum, add64_of_lt (by omega)]
    unfold pageDown pageSize
    omega
  refine ⟨?_, hDown, ?_⟩
  · rw [hEnd]
    unfold pageCount pageDown pageSize
    omega
  · unfold pageSize at hDown
    omega

theorem backPage_of_mapFresh {s' : Vmm} {sp : ℕ} {flags : VmFlags}
    (h : s.mapFresh sp va flags = (true, s')) : s.backPage sp va flags =
      match (s'.modifySpace sp fun a => { a with pages := (a.pages + 1) % 2 ^ 32 }).charge sp with
      | (false, s) => (false, s.vmmUnmap sp va pageSize)
      | (true, s) => (true, s) := by
  unfold mapFresh at h
  unfold backPage
  generalize s.pmmAllocZeroed = r at h ⊢
  obtain ⟨frame, s1⟩ := r
  dsimp only at h ⊢
  by_cases hFrame : frame = 0
  · rw [if_pos hFrame] at h
    cases h
  · rw [if_neg hFrame] at h ⊢
    generalize s1.vmmMap sp va frame flags = r at h ⊢
    obtain ⟨_ | _, s2⟩ := r
    · cases h
    · cases h
      rfl

section

variable (h : p.Tidy) (hva : va < userLimit)
include h hva

theorem Tidy.pteOf : p.vmm.pteOf p.sp va = p.leaf (va / pageSize) := by
  obtain ⟨role, base, hInv⟩ := h.inv
  have hDown : pageDown va < userLimit := lt_of_le_of_lt (pageDown_le va) hva
  unfold Vmm.pteOf Vmm.userView
  dsimp only
  rcases probe_cases hInv.typed h.used hDown with ⟨hProbe, hLeaf⟩ | ⟨t, hProbe, -, hLeaf⟩
  · rw [pageDown_div] at hLeaf
    rw [hProbe]
    exact hLeaf.symm
  · rw [pageDown_div] at hLeaf hProbe
    rw [hProbe]
    exact hLeaf

section

variable (hSupply : Supply p.vmm p.sp 1) (hAbsent : (p.leaf (va / pageSize)).p = false)
include hSupply hAbsent

theorem Tidy.allocOne (flags : VmFlags) (hFlags : flags.extshm = false) :
    ∃ s role base frame, p.vmm.vmmAllocRange p.sp (pageDown va) pageSize flags = (true, s) ∧
      Kept role base (fun _ => 0) p.vmm s ∧
      s.leaves = update p.vmm.leaves (p.sp, va / pageSize) (mapEntry frame flags) := by
  obtain ⟨role, base, hInv⟩ := h.inv
  obtain ⟨hCount, hFits, -⟩ := onePage hva
  obtain ⟨role', hKept, hBacked, hThere, hOk⟩ := hInv.vmmAllocRange h.used hFits flags hFlags
  rw [hCount, pageDown_div] at hBacked hThere
  rw [hCount] at hOk
  have hDone := hOk hSupply
  have hPresent := hThere hDone (va / pageSize) (le_refl _) (lt_succ_self _)
  obtain ⟨frame, hFrame⟩ := hBacked.fresh _ hAbsent hPresent
  refine ⟨_, role', base, frame, Prod.ext hDone rfl, hKept, ?_⟩
  funext x
  rw [update_apply]
  split_ifs with hx
  · rw [hx, hFrame]
  · refine hBacked.outside x fun hIn => hx ?_
    exact Prod.ext hIn.1 (by omega)

theorem Tidy.backPage {flags : VmFlags} (hFlags : flags.extshm = false) :
    ∃ s role base frame, p.vmm.backPage p.sp (pageDown va) flags = (true, s) ∧
      Kept role base (fun _ => 0) p.vmm s ∧
      s.leaves = update p.vmm.leaves (p.sp, va / pageSize) (mapEntry frame flags) := by
  obtain ⟨role, base, hInv⟩ := h.inv
  have hDown := (onePage hva).2.2
  have hNone : p.vmm.holds (p.sp, pageDown va / pageSize) = none := by
    rw [pageDown_div]
    exact Pte.hold_eq_none.mpr hAbsent
  have hFrame := paging_mapFresh p.vmm p.sp (pageDown va) flags
  obtain ⟨s1, role1, hInv1, hLocal1, -, hEnd⟩ := hInv.mapFresh h.used hDown hNone hFlags
  rw [pageDown_div] at hEnd
  rcases hEnd with ⟨-, hFew, -⟩ | ⟨hMap, frame, hLeaves1⟩
  · have := hSupply.frames
    omega
  · rw [hMap] at hFrame
    rw [backPage_of_mapFresh hMap]
    have hPages := accounting_setPages s1 p.sp fun n => (n + 1) % 2 ^ 32
    have hCgs : (s1.modifySpace p.sp fun a => { a with pages := (a.pages + 1) % 2 ^ 32 }).gCgs =
        p.vmm.gCgs := hFrame.gCgs
    generalize (s1.modifySpace p.sp fun a => { a with pages := (a.pages + 1) % 2 ^ 32 }) = s2
      at hPages hCgs ⊢
    have hRoom : Room s2 p.sp 1 := hSupply.room.of_eq hCgs (by rw [hPages.space, hFrame.gSpaces])
    obtain ⟨hAccepted, -⟩ := Room.charge (n := 0) hRoom
    have hCharge := accounting_charge s2 p.sp
    have hLeaves2 : s2.leaves = update p.vmm.leaves (p.sp, va / pageSize)
        (mapEntry frame flags) := by rw [hPages.sameTree.leaves, hLeaves1]
    have hSettled : Settled p.vmm → Settled (s2.charge p.sp).2 := by
      intro hSettled
      have hBooks := (hFrame.books hSettled).accounting hPages (by rw [hCgs, hFrame.gCgs])
      have hUsed2 : s2.gUsed p.sp := by
        rw [hPages.gUsed, hFrame.gUsed]
        exact h.used
      have hBilled := hBooks.charge hUsed2 (hInv.slots p.sp h.used) p.vmm.resident_le hAccepted
      unfold Settled
      rw [resident_of_leaves hCharge.sameTree.leaves,
        resident_fill hLeaves2 (userPage_lt hva) hAbsent rfl]
      exact hBilled
    refine ⟨(s2.charge p.sp).2, role1, base, frame, ?_, ⟨hCharge.inv (hPages.inv hInv1),
      (hLocal1.trans (hPages.stays base)).trans (hCharge.stays base), hSettled⟩, ?_⟩
    · generalize s2.charge p.sp = r at hAccepted
      obtain ⟨_ | _, s3⟩ := r
      · cases hAccepted
      · rfl
    · rw [hCharge.sameTree.leaves, hLeaves2]

end

theorem Tidy.not_cow : p.vmm.vmmPageIsCow p.sp va = (false, p.vmm) := by
  obtain ⟨role, base, hInv⟩ := h.inv
  have hDown : pageDown va < userLimit := lt_of_le_of_lt (pageDown_le va) hva
  unfold vmmPageIsCow
  rcases probe_cases hInv.typed h.used hDown with ⟨hProbe, -⟩ | ⟨t, hProbe, -, hLeaf⟩
  · rw [hProbe]
  · rw [pageDown_div] at hLeaf hProbe
    simp only [hProbe, hLeaf]
    have hPlain := h.plain (va / pageSize)
    unfold leaf at hPlain
    cases hp : (p.vmm.leaves (p.sp, va / pageSize)).p with
    | false => rfl
    | true => rw [(hPlain hp).2.1]; rfl

theorem Tidy.resolve : ∃ phys, p.vmm.vmmResolve p.sp (pageDown va) = (phys, p.vmm) ∧
      (phys ≠ 0 ↔ (p.leaf (va / pageSize)).p) := by
  obtain ⟨role, base, hInv⟩ := h.inv
  have hDown : pageDown va < userLimit := lt_of_le_of_lt (pageDown_le va) hva
  obtain ⟨hState, hPhys⟩ := hInv.vmmResolve_ne_zero h.used hDown
  rw [pageDown_div] at hPhys
  exact ⟨_, hState, hPhys⟩

end

theorem Tidy.last (h : p.Tidy) (hLast : last p.mmaps va = some r) :
    Fine r ∧ flagsAt p.mmaps (va / pageSize * pageSize) = some r.flags := by
  obtain ⟨hr, hCovers⟩ := h.records.last_eq_some.mp hLast
  have hFine := h.records.fine r hr
  exact ⟨hFine, h.records.flagsAt_of_mem hr (hFine.covers_page.mpr hCovers)⟩

theorem Tidy.last_none (h : p.Tidy) (hLast : Mmaps.last p.mmaps va = none) :
    flagsAt p.mmaps (va / pageSize * pageSize) = none := by
  refine h.records.flagsAt_eq_none.mpr fun r hr hCovers => ?_
  have hSome := h.records.last_eq_some.mpr ⟨hr, (h.records.fine r hr).covers_page.mp hCovers⟩
  rw [hLast] at hSome
  cases hSome

/-- What `fault_back_lazy` refuses, the view does not allow. -/
def Refused (flags : VmFlags) (kind : Access) : Prop :=
  kind = .write ∧ flags.write = false ∨ kind = .fetch ∧ flags.exec = false

theorem allows_iff_not_refused (flags : VmFlags) (kind : Access) :
    (⟨true, flags.write, flags.exec⟩ : Prot).allows kind ↔ ¬Refused flags kind := by
  unfold Refused Prot.allows
  cases kind <;> simp

section

variable (h : p.Tidy) (hva : va < userLimit)
include h hva

theorem Tidy.faultBackLazy (kind : Access) : p.vmm.faultBackLazy p.sp va kind =
      match Mmaps.last p.mmaps va with
      | none => (false, p.vmm)
      | some r =>
        if p.view.allows va kind then
          if (p.leaf (va / pageSize)).p then
            p.vmm.vmmProtect p.sp (pageDown va) pageSize r.flags.write r.flags.exec
          else p.vmm.backPage p.sp (pageDown va) r.flags
        else (false, p.vmm) := by
  obtain ⟨phys, hResolve, hPhys⟩ := h.resolve hva
  have hCow : (if kind = .write then p.vmm.vmmPageIsCow p.sp va else (false, p.vmm)) =
      (false, p.vmm) := by
    rw [h.not_cow hva, ite_self]
  have hRecs : (p.vmm.gSpaces p.sp).mmaps = p.mmaps := rfl
  unfold Vmm.faultBackLazy
  rw [hCow]
  dsimp only
  rw [hRecs]
  cases hLast : Mmaps.last p.mmaps va with
  | none => rfl
  | some r =>
    have hAllows : p.view.allows va kind ↔ ¬Refused r.flags kind := by
      unfold AddressMap.allows
      rw [view_of_flags (h.last hLast).2]
      exact allows_iff_not_refused r.flags kind
    rw [hResolve]
    simp only [Bool.false_eq_true, if_false, hAllows, Refused, hPhys]
    split_ifs <;> first | rfl | tauto

theorem Tidy.growStack_not (hNot : (p.leaf (va / pageSize)).p ∨ ¬StackPage (va / pageSize)) :
    p.vmm.vmmGrowStack p.sp va = (false, p.vmm) := by
  obtain ⟨phys, hResolve, hPhys⟩ := h.resolve hva
  unfold vmmGrowStack
  rw [hResolve]
  split_ifs with hWindow
  · rfl
  · rcases hNot with hp | hOut
    · exact if_pos (hPhys.mpr hp)
    · refine absurd ?_ hOut
      unfold StackPage stackTop stackMax at *
      unfold pageSize
      omega

theorem Tidy.access_present (hp : (p.leaf (va / pageSize)).p) (kind : Access) (n : ℕ) :
    access p.sp va kind (n + 1) p.vmm = (some (p.view.allows va kind), p.vmm) := by
  have hGrants := h.permits hp kind
  unfold AddressMap.allows
  rw [← hGrants]
  unfold Vmm.access
  rw [h.pteOf hva]
  cases hDenied : (p.leaf (va / pageSize)).permits kind with
  | true => rfl
  | false =>
    have hFault : p.vmm.pageFault p.sp va kind = (false, p.vmm) := by
      unfold Vmm.pageFault
      rw [h.growStack_not hva (.inl hp)]
      dsimp only
      rw [h.faultBackLazy hva]
      cases hLast : Mmaps.last p.mmaps va with
      | none => rfl
      | some r =>
        exact if_neg (by rw [AddressMap.allows, ← hGrants, hDenied]; decide)
    rw [hFault]
    rfl

/-- A fault for a page that is not there is refused as the view says, or the page is there after
it. -/
theorem Tidy.pageFault (hSupply : Supply p.vmm p.sp 1) (hp : ¬(p.leaf (va / pageSize)).p)
    (kind : Access) :
    (p.vmm.pageFault p.sp va kind = (false, p.vmm) ∧ p.view.allows va kind = false) ∨
      ∃ s, p.vmm.pageFault p.sp va kind = (true, s) ∧ (p.setVmm s).Tidy ∧
      (p.setVmm s).view = p.view ∧
        ((p.setVmm s).leaf (va / pageSize)).p := by
  have hAbsent := Bool.eq_false_iff.mpr hp
  by_cases hStack : StackPage (va / pageSize)
  · -- The stack grows: no record is in its window.
    have hNone : flagsAt p.mmaps (va / pageSize * pageSize) = none := by
      refine h.records.flagsAt_eq_none.mpr fun r hr hCovers => ?_
      have hSpot := (h.records.fine r hr).spot.stack
      unfold Covers at hCovers
      unfold StackPage at hStack
      omega
    obtain ⟨s, role, base, frame, hAlloc, hKept, hLeaves⟩ :=
      h.allocOne hva hSupply hAbsent { user := true, write := true } rfl
    obtain ⟨hTidy, hView, hLeaf⟩ := h.back hKept rfl hLeaves (by rw [hNone]; simp)
      (fun _ hHigh => by unfold StackPage stackTop stackMax mmapTop at *; omega)
      (by rw [view_of_none hNone, imageMap, if_neg hp, if_pos hStack])
    obtain ⟨phys, hResolve, hPhys⟩ := h.resolve hva
    have hZero : ¬phys ≠ 0 := fun hne => hp (hPhys.mp hne)
    have hWindow : ¬(stackTop ≤ va ∨ va < stackTop - stackMax) := by
      unfold StackPage stackTop stackMax pageSize at *
      omega
    refine .inr ⟨s, ?_, hTidy, hView, by rw [hLeaf]; rfl⟩
    unfold Vmm.pageFault Vmm.vmmGrowStack
    rw [if_neg hWindow, hResolve]
    dsimp only
    rw [if_neg hZero, hAlloc]
  · have hFault : p.vmm.pageFault p.sp va kind = p.vmm.faultBackLazy p.sp va kind := by
      unfold Vmm.pageFault
      rw [h.growStack_not hva (.inr hStack)]
    rw [h.faultBackLazy hva] at hFault
    cases hLast : Mmaps.last p.mmaps va with
    | none =>
      rw [hLast] at hFault
      refine .inl ⟨hFault, ?_⟩
      unfold AddressMap.allows
      rw [view_of_gone (h.last_none hLast) hAbsent hStack]
      rfl
    | some r =>
      obtain ⟨hFine, hFlags⟩ := h.last hLast
      rw [hLast] at hFault
      cases hAllows : p.view.allows va kind with
      | false => exact .inl ⟨by simpa [hAllows] using hFault, rfl⟩
      | true =>
        obtain ⟨s, role, base, frame, hBack, hKept, hLeaves⟩ :=
          h.backPage hva hSupply hAbsent hFine.private_
        obtain ⟨hTidy, hView, hLeaf⟩ := h.back hKept hFine.user hLeaves
          (fun f hf => some.inj (hf.symm.trans hFlags)) (fun _ _ => by rw [hFlags]; simp)
          (view_of_flags hFlags)
        exact .inr ⟨s, hFault.trans ((if_pos hAllows).trans ((if_neg hp).trans hBack)), hTidy,
          hView, by rw [hLeaf]; rfl⟩

theorem Tidy.access (hSupply : Supply p.vmm p.sp 1) (kind : Access) (n : ℕ) :
    ∃ s, access p.sp va kind (n + 2) p.vmm = (some (p.view.allows va kind), s) ∧
      (p.setVmm s).Tidy ∧ (p.setVmm s).view = p.view := by
  by_cases hp : (p.leaf (va / pageSize)).p
  · exact ⟨p.vmm, h.access_present hva hp kind (n + 1), h, rfl⟩
  rw [Vmm.access, h.pteOf hva, permits_absent (Bool.eq_false_iff.mpr hp)]
  rcases h.pageFault hva hSupply hp kind with ⟨hFault, hNot⟩ | ⟨s, hFault, hTidy, hView, hThere⟩
  · rw [hFault, hNot]
    exact ⟨p.vmm, rfl, h, rfl⟩
  · -- the instruction is tried again
    rw [hFault]
    exact ⟨s, hView ▸ hTidy.access_present hva hThere kind n, hTidy, hView⟩

end

/-! ### Ranges of pages -/

def Starts (base size v : ℕ) : Prop := base ≤ v * pageSize ∧ v * pageSize < base + size

instance (base size v : ℕ) : Decidable (Starts base size v) := inferInstanceAs (Decidable (_ ∧ _))

theorem inRange_iff_starts (hBase : base % pageSize = 0) (hSize : size % pageSize = 0) :
    AddressMap.InRange (base / pageSize) (size / pageSize) v ↔ Starts base size v := by
  unfold AddressMap.InRange Starts
  unfold pageSize at *
  omega

theorem rangePages_iff (hRange : va + size ≤ userLimit) :
    va / pageSize ≤ v ∧ v < va / pageSize + pageCount (pageDown va) (rangeEnd va size) ↔
      va / pageSize ≤ v ∧ v * pageSize < va + size := by
  unfold userLimit at hRange
  have hSum : add64 va size = va + size := add64_of_lt (by omega)
  unfold rangeEnd
  rw [hSum, add64_of_lt (by omega)]
  unfold pageCount pageDown pageSize
  omega

theorem roundUp_spec (h : len ≤ userLimit) :
    roundUp len % pageSize = 0 ∧ len ≤ roundUp len ∧ roundUp len ≤ userLimit := by
  unfold userLimit at *
  unfold roundUp
  rw [add64_of_lt (by omega)]
  unfold pageDown pageSize
  omega

theorem Tidy.unmap (h : p.Tidy) (hva : va % pageSize = 0) (hRange : va + n ≤ userLimit) :
    let q := p.setVmm (p.vmm.vmmUnmap p.sp va n)
    q.Tidy ∧ q.mmaps = p.mmaps ∧ (∀ v, Starts va n v → (q.leaf v).p = false) ∧
      ∀ v, ¬Starts va n v → q.leaf v = p.leaf v := by
  obtain ⟨role, base, hInv⟩ := h.inv
  obtain ⟨hKept, hCleared⟩ := hInv.vmmUnmap h.used hRange fun _ => Nat.two_pow_pos 30
  have hIff : ∀ v, va / pageSize ≤ v ∧ v < va / pageSize + pageCount (pageDown va)
      (rangeEnd va n) ↔ Starts va n v := by
    intro v
    rw [rangePages_iff hRange]
    unfold Starts
    unfold pageSize at *
    omega
  have hInside : ∀ v, Starts va n v → ((p.vmm.vmmUnmap p.sp va n).leaves (p.sp, v)).p = false := by
    intro v hv
    obtain ⟨hLow, hHigh⟩ := (hIff v).mpr hv
    exact hCleared.inside v hLow hHigh
  have hOutside : ∀ v, ¬Starts va n v → (p.vmm.vmmUnmap p.sp va n).leaves (p.sp, v) = p.leaf v := by
    intro v hv
    exact hCleared.outside _ fun hIn => hv ((hIff v).mp hIn.2)
  obtain ⟨hTidy, hRecs⟩ := h.setVmm hKept fun v hp hChanged => by
    by_cases hv : Starts va n v
    · rw [hInside v hv] at hp
      cases hp
    · exact absurd (hOutside v hv) hChanged
  exact ⟨hTidy, hRecs, hInside, hOutside⟩

/-! ### `sys_mmap` -/

/-- A place for a mapping of `size` bytes: nothing is mapped there, and the pages that had to go are
no loss should the mapping fail. -/
structure Placed (p p' : Mm) (base size : ℕ) : Prop where
  tidy : p'.Tidy
  aligned : base % pageSize = 0
  spot : Spot base size
  clear : ∀ q ∈ p'.mmaps, ∀ a, Covers q a → ¬(base ≤ a ∧ a < base + size)
  absent : p'.Absent base size
  outside : ∀ v, ¬Starts base size v → p'.view v = p.view v
  full : maxMmaps ≤ p'.mmaps.length → p'.view = p.view

theorem Clear.not_covers (h : p.Clear base size) :
    ∀ q ∈ p.mmaps, ∀ a, Covers q a → ¬(base ≤ a ∧ a < base + size) := by
  intro q hq a hqa hIn
  have hOff := h q hq
  unfold Covers at hqa
  omega

section

variable (h : p.Tidy)
include h

theorem Tidy.addRecord (hFine : Fine r) (hClear : ∀ q ∈ p.mmaps, ∀ a, Covers q a → ¬Covers r a)
    (hAbsent : p.Absent r.base r.size) :
    (∃ q, p.mmapRecord r.base r.size r.flags = (true, q) ∧ q.Tidy ∧
      q.view = p.view.map (r.base / pageSize)
      (r.size / pageSize) ⟨true, r.flags.write, r.flags.exec⟩) ∨
      p.mmapRecord r.base r.size r.flags = (false, p) ∧ maxMmaps ≤ p.mmaps.length := by
  unfold mmapRecord
  by_cases hRoom : p.mmaps.length < maxMmaps
  · obtain ⟨l, hRecord, hRecords, hFlags⟩ := h.records.record hFine hClear hRoom
    left
    rw [hRecord]
    refine ⟨p.setMmaps l, rfl, h.setMmaps hRecords fun v hp => ?_, ?_⟩
    · have hNot : ¬Covers r (v * pageSize) := fun hCovers => by
        rw [hAbsent v hCovers.1 hCovers.2] at hp
        cases hp
      unfold Right
      rw [hFlags, if_neg hNot]
      exact h.right hp
    · funext v
      unfold AddressMap.map
      by_cases hCovers : Covers r (v * pageSize)
      · rw [if_pos ((inRange_iff_starts hFine.base hFine.size).mpr hCovers)]
        refine view_of_flags ?_
        rw [mmaps_setMmaps, hFlags, if_pos hCovers]
      · rw [if_neg fun hIn => hCovers ((inRange_iff_starts hFine.base hFine.size).mp hIn)]
        refine view_congr ?_ (by rw [leaf_setMmaps]) fun _ => by rw [leaf_setMmaps]
        rw [mmaps_setMmaps, hFlags, if_neg hCovers]
  · right
    have hFull : record p.mmaps r.base r.size r.flags = none := if_pos (by omega)
    rw [hFull]
    exact ⟨rfl, by omega⟩

theorem Tidy.pick (hSize : size ≤ userLimit) (hPick : pickBase p.mmaps size = some base) :
    Placed p p base size := by
  obtain ⟨hAligned, hLow, hHigh, hClear⟩ := h.records.pickBase hSize hPick
  refine ⟨h, hAligned, ⟨?_, .inl ?_, fun hBelow => by omega⟩, hClear, ?_, fun _ _ => rfl,
    fun _ => rfl⟩
  · unfold mmapTop userLimit at *
    omega
  · unfold mmapTop stackTop stackMax at *
    omega
  · -- What is backed in the arena has a record, and no record is there.
    intro v hStart hEnd
    by_contra hp
    refine h.arena v (Bool.not_eq_false _ ▸ hp) (by omega) (by omega) ?_
    exact h.records.flagsAt_eq_none.mpr fun r hr hCovers => hClear r hr _ hCovers ⟨hStart, hEnd⟩

theorem Tidy.placeFixed (hAligned : addr % pageSize = 0) (hSpot : Spot addr size)
    (hClear : p.Clear addr size) (hFull : p.mmaps.length < maxMmaps ∨ p.Absent addr size) :
    Placed p (p.setVmm (p.vmm.vmmUnmap p.sp addr size)) addr size := by
  obtain ⟨hTidy, hRecs, hInside, hOutside⟩ := h.unmap hAligned hSpot.limit
  refine ⟨hTidy, hAligned, hSpot, by rw [hRecs]; exact hClear.not_covers,
    fun v hLow hHigh => hInside v ⟨hLow, hHigh⟩, fun v hv => ?_, fun hLength => ?_⟩
  · exact view_of_same hRecs (hOutside v hv)
  · rw [hRecs] at hLength
    have hAbsent := hFull.resolve_left (by omega)
    funext v
    by_cases hv : Starts addr size v
    · have hOld := hAbsent v hv.1 hv.2
      refine view_congr (by rw [hRecs]) (by rw [hInside v hv, hOld]) fun hp => ?_
      rw [hOld] at hp
      cases hp
    · exact view_of_same hRecs (hOutside v hv)

theorem Tidy.place {fixed : Bool} (hSize : size ≤ userLimit)
    (hSound : p.SoundPlace addr size fixed) : (∃ e, p.place addr size fixed = (.error e, p)) ∨
      ∃ base p', p.place addr size fixed = (.ok base, p') ∧ Placed p p' base size := by
  unfold Mm.place
  unfold SoundPlace at hSound
  cases fixed with
  | true =>
    rw [if_pos rfl] at hSound
    obtain ⟨hAligned, hLimit, hRest⟩ := hSound
    have hSum : add64 addr size = addr + size :=
      add64_of_lt (by unfold userLimit at hSize hLimit; omega)
    simp only [if_true, hSum]
    split_ifs with hBad
    · exact .inl ⟨.inval, rfl⟩
    · rw [Bool.or_eq_true, decide_eq_true_eq, decide_eq_true_eq, not_or] at hBad
      obtain ⟨hSpot, hClear, hFull⟩ := hRest (by omega)
      exact .inr ⟨addr, _, rfl, h.placeFixed hAligned hSpot hClear hFull⟩
  | false =>
    simp only [Bool.false_eq_true, if_false] at hSound ⊢
    split_ifs with hZero hAny
    · cases hBase : pickBase p.mmaps size with
      | none => exact .inl ⟨.nomem, rfl⟩
      | some base => exact .inr ⟨base, p, rfl, h.pick hSize hBase⟩
    · have hAligned : pageDown addr % pageSize = 0 := mul_mod_left _ _
      have hClear : p.Clear (pageDown addr) size := by
        intro r hr
        have hFine := h.records.fine r hr
        have hLimit := hFine.spot.limit
        by_contra hMeets
        refine hAny (any_eq_true.mpr ⟨r, hr, ?_⟩)
        rw [Bool.and_eq_true, decide_eq_true_eq, decide_eq_true_eq, hFine.stop,
          add64_of_lt (by unfold userLimit at hLimit hSize; omega)]
        omega
      obtain ⟨hSpot, hAbsent⟩ := hSound hZero hClear
      exact .inr ⟨_, p, rfl, h, hAligned, hSpot, hClear.not_covers, hAbsent, fun _ _ => rfl,
        fun _ => rfl⟩
    · cases hBase : pickBase p.mmaps size with
      | none => exact .inl ⟨.nomem, rfl⟩
      | some base => exact .inr ⟨base, p, rfl, h.pick hSize hBase⟩

theorem Tidy.sysMmap {prot flags : ℕ} (hSound : p.Sound (.mmap addr len prot flags)) :
    (∃ e q, p.sysMmap addr len prot flags = (.error e, q) ∧ q.Tidy ∧ q.view = p.view) ∨
      ∃ base q, p.sysMmap addr len prot flags = (.ok base, q) ∧ q.Tidy ∧
        q.view = p.view.map (base / pageSize) (roundUp len / pageSize) (protOf prot) := by
  obtain ⟨hPrivate, hRead, hLen, hPlace⟩ := hSound
  obtain ⟨hSize, hLe, hLimit⟩ := roundUp_spec hLen
  unfold Mm.sysMmap
  split
  · exact .inl ⟨.inval, p, rfl, h, rfl⟩
  rename_i hZero
  dsimp only
  rcases h.place hLimit hPlace with ⟨e, hError⟩ | ⟨base, p', hOk, hPlaced⟩
  · rw [hError]
    exact .inl ⟨e, p, rfl, h, rfl⟩
  · rw [hOk]
    simp only [hPrivate, Bool.false_eq_true, if_false]
    have hFine : Fine ⟨base, roundUp len, vmFlagsOf prot⟩ :=
      ⟨hPlaced.aligned, hSize, lt_of_lt_of_le (pos_of_ne_zero hZero) hLe, hPlaced.spot, rfl, rfl⟩
    rcases hPlaced.tidy.addRecord hFine hPlaced.clear hPlaced.absent with
      ⟨q, hRecord, hTidy, hView⟩ | ⟨hRecord, hFull⟩
    · dsimp only at hRecord
      rw [hRecord]
      refine .inr ⟨base, q, rfl, hTidy, hView.trans ?_⟩
      funext v
      have hProt : protOf prot = ⟨true, (vmFlagsOf prot).write, (vmFlagsOf prot).exec⟩ := by
        unfold protOf
        rw [hRead]
        rfl
      unfold AddressMap.map
      rw [hProt]
      by_cases hIn : AddressMap.InRange (base / pageSize) (roundUp len / pageSize) v
      · rw [if_pos hIn, if_pos hIn]
      · rw [if_neg hIn, if_neg hIn]
        exact hPlaced.outside v fun hStarts =>
          hIn ((inRange_iff_starts hPlaced.aligned hSize).mpr hStarts)
    · dsimp only at hRecord
      rw [hRecord]
      exact .inl ⟨.nomem, p', rfl, hPlaced.tidy, hPlaced.full hFull⟩

end

/-! ### `sys_mprotect` -/

theorem Tidy.sysMprotect (h : p.Tidy) {prot : ℕ} (hSound : p.Sound (.mprotect addr len prot)) :
    (∃ e, p.sysMprotect addr len prot = (.error e, p)) ∨
      ∃ q, p.sysMprotect addr len prot = (.ok (), q) ∧ q.Tidy ∧
        q.view = p.view.protect (addr / pageSize) (roundUp len / pageSize) (protOf prot) := by
  obtain ⟨hRead, hAddr, hLen, hSlots, hStack⟩ := hSound
  obtain ⟨hSize, -, hLimit⟩ := roundUp_spec hLen
  have hSum : add64 addr (roundUp len) = addr + roundUp len :=
    add64_of_lt (by unfold userLimit at hAddr hLimit; omega)
  unfold Mm.sysMprotect
  dsimp only
  rw [hSum]
  split
  · exact .inl ⟨.inval, rfl⟩
  rename_i hAligned
  rw [not_not] at hAligned
  split
  · exact .inl ⟨.inval, rfl⟩
  rename_i hBad
  split
  · exact .inl ⟨.nosys, rfl⟩
  rw [Bool.or_eq_true, decide_eq_true_eq, decide_eq_true_eq, not_or] at hBad
  have hRange : addr + roundUp len ≤ userLimit := by omega
  obtain ⟨role, base, hInv⟩ := h.inv
  obtain ⟨hRecords, hFlags⟩ := h.records.updateFlags (vmFlagsOf prot) hAligned hSize
    (by omega) hRange rfl rfl hSlots
  generalize updateFlags p.mmaps addr (roundUp len) (vmFlagsOf prot) = l at hRecords hFlags ⊢
  replace hFlags : ∀ v, flagsAt l (v * pageSize) =
      if Starts addr (roundUp len) v then
        (flagsAt p.mmaps (v * pageSize)).map fun _ => vmFlagsOf prot
      else flagsAt p.mmaps (v * pageSize) := fun v => hFlags _
  have hInv1 := inv_setMmaps hInv l
  have hUsed1 : (p.setMmaps l).vmm.gUsed p.sp := h.used
  have hLeaf1 : ∀ v, (p.setMmaps l).vmm.leaves (p.sp, v) = p.leaf v :=
    fun v => congrFun (leaf_setMmaps p l) v
  have hPliant : ∀ v, Pliant ((p.setMmaps l).vmm.leaves (p.sp, v)) := by
    intro v hp
    rw [hLeaf1] at hp ⊢
    exact (h.plain v hp).2
  obtain ⟨hOk, hKept, hTags⟩ := hInv1.vmmProtect hUsed1 hRange hAligned hSize hPliant
    (protWrite prot) (protExec prot)
  have hsp : (p.setMmaps l).sp = p.sp := rfl
  rw [hsp]
  generalize (p.setMmaps l).vmm.vmmProtect p.sp addr (roundUp len) (protWrite prot)
    (protExec prot) = res at hKept hOk hTags ⊢
  obtain ⟨ok, s⟩ := res
  obtain rfl : ok := hOk
  right
  refine ⟨(p.setMmaps l).setVmm s, rfl, ?_⟩
  have hRecs : ((p.setMmaps l).setVmm s).mmaps = l := by
    show (s.gSpaces p.sp).mmaps = l
    rw [hKept.stays.space]
    exact mmaps_setMmaps p l
  have hTouched : ∀ v, AddressMap.InRange (addr / pageSize) (roundUp len / pageSize) v ↔
      Starts addr (roundUp len) v := fun v => inRange_iff_starts hAligned hSize
  have hLeaf : ∀ v, ((p.setMmaps l).setVmm s).leaf v =
      if Starts addr (roundUp len) v then
        withBits (pteFlags { user := true, write := protWrite prot, exec := protExec prot })
          (p.leaf v)
      else p.leaf v := fun v => by
    show s.leaves (p.sp, v) = _
    split
    · have hIn := (hTouched v).mpr ‹_›
      rw [hTags.inside v hIn.1 hIn.2, hLeaf1]
    · rw [hTags.outside (p.sp, v) fun hIn => ‹¬_› ((hTouched v).mp hIn.2), hLeaf1]
  have hPresent : ∀ v, (((p.setMmaps l).setVmm s).leaf v).p = (p.leaf v).p := by
    intro v
    rw [hLeaf]
    unfold withBits
    split <;> [split; skip] <;> rfl
  have hBits : ∀ v, Starts addr (roundUp len) v → (p.leaf v).p →
      (((p.setMmaps l).setVmm s).leaf v).rw = protWrite prot ∧
        (((p.setMmaps l).setVmm s).leaf v).nx = !protExec prot := by
    intro v hv hp
    rw [hLeaf, if_pos hv, withBits, if_pos hp]
    exact ⟨rfl, rfl⟩
  refine ⟨.of_right ⟨role, base, hKept.inv⟩ ?_ (by rw [hRecs]; exact hRecords) h.brk fun v hp => ?_,
    ?_⟩
  · show s.gUsed p.sp
    rw [hKept.stays.used]
    exact h.used
  · rw [hPresent] at hp
    obtain ⟨hPlain, hSynced, hArena⟩ := h.right hp
    unfold Right
    rw [hRecs, hFlags]
    by_cases hv : Starts addr (roundUp len) v
    · rw [if_pos hv]
      refine ⟨?_, fun f hf => ?_, fun hLow hHigh => by simpa using hArena hLow hHigh⟩
      · rw [hLeaf, if_pos hv, withBits, if_pos hp]
        exact hPlain
      · obtain ⟨f', -, rfl⟩ := map_eq_some_iff.mp hf
        exact hBits v hv hp
    · rw [if_neg hv, hLeaf, if_neg hv]
      exact ⟨hPlain, hSynced, hArena⟩
  · funext v
    unfold AddressMap.protect
    have hProt : protOf prot = ⟨true, protWrite prot, protExec prot⟩ := by
      unfold protOf
      rw [hRead]
    by_cases hv : Starts addr (roundUp len) v
    · rw [if_pos ((hTouched v).mpr hv), hProt]
      have hNew := (congrArg (flagsAt · (v * pageSize)) hRecs).trans ((hFlags v).trans (if_pos hv))
      cases hOld : flagsAt p.mmaps (v * pageSize) with
      | some f =>
        rw [hOld] at hNew
        rw [view_of_flags hNew, view_of_flags hOld]
        rfl
      | none =>
        rw [hOld] at hNew
        rw [view_of_none hNew, view_of_none hOld, imageMap, imageMap, hPresent]
        by_cases hp : (p.leaf v).p
        · obtain ⟨hWrite, hExec⟩ := hBits v hv hp
          rw [if_pos hp, if_pos hp, hWrite, hExec, Bool.not_not]
          rfl
        · have hOff : ¬StackPage v := fun hPage => hp (hStack v hv.1 hv.2 hPage)
          rw [if_neg hp, if_neg hp, if_neg hOff]
          rfl
    · rw [if_neg fun hIn => hv ((hTouched v).mp hIn)]
      refine view_congr ?_ (hPresent v) fun _ => (hLeaf v).trans (if_neg hv)
      rw [hRecs, hFlags]
      exact if_neg hv

/-! ### `sys_munmap` -/

/-- The pages of `[lo, lo + n)` can go, with the records `l` left. -/
def Drops (p : Mm) (lo n : ℕ) (l : List MmapRec) : Prop :=
  ((p.setVmm (p.vmm.vmmUnmap p.sp lo n)).setMmaps l).Tidy ∧
    ∀ v, ((p.setVmm (p.vmm.vmmUnmap p.sp lo n)).setMmaps l).view v =
      if Starts lo n v then none else p.view v

theorem Fine.off_stack (h : Fine r) (hv : Covers r (v * pageSize)) : ¬StackPage v := by
  have hStack := h.spot.stack
  unfold Covers at hv
  unfold StackPage
  omega

section

variable (h : p.Tidy)
include h

theorem Tidy.drop {l : List MmapRec} (hLo : lo % pageSize = 0) (hRange : lo + n ≤ userLimit)
    (hOff : ∀ v, Starts lo n v → ¬StackPage v) (hRecords : Records l)
    (hFlags : ∀ v, flagsAt l (v * pageSize) =
      if Starts lo n v then none else flagsAt p.mmaps (v * pageSize)) : p.Drops lo n l := by
  obtain ⟨hTidy, hRecs, hInside, hOutside⟩ := h.unmap hLo hRange
  unfold Drops
  generalize p.setVmm (p.vmm.vmmUnmap p.sp lo n) = q at hTidy hRecs hInside hOutside ⊢
  refine ⟨hTidy.setMmaps hRecords fun v hp => ?_, fun v => ?_⟩
  · have hv : ¬Starts lo n v := fun hv => by
      rw [hInside v hv] at hp
      cases hp
    unfold Right
    rw [hFlags, if_neg hv, ← hRecs]
    exact hTidy.right hp
  · by_cases hv : Starts lo n v
    · rw [if_pos hv]
      refine view_of_gone ?_ ?_ (hOff v hv)
      · rw [mmaps_setMmaps, hFlags, if_pos hv]
      · rw [leaf_setMmaps, hInside v hv]
    · rw [if_neg hv]
      refine view_congr ?_ ?_ fun _ => ?_
      · rw [mmaps_setMmaps, hFlags, if_neg hv]
      · rw [leaf_setMmaps, hOutside v hv]
      · rw [leaf_setMmaps, hOutside v hv]

/-- A record loses the pages of `[lo, lo + n)` and keeps the rest as one record, or as none. -/
theorem Tidy.trim (l new : List MmapRec) (hi : i < p.mmaps.length) (hLo : lo % pageSize = 0)
    (hLow : p.mmaps[i].base ≤ lo) (hHigh : lo + n ≤ p.mmaps[i].base + p.mmaps[i].size)
    (hPerm : l.Perm (new ++ p.mmaps.eraseIdx i)) (hNew : Records new) (hLength : new.length ≤ 1)
    (hShows : ∀ a, Covers p.mmaps[i] a →
      flagsAt new a = if lo ≤ a ∧ a < lo + n then none else some p.mmaps[i].flags)
    (hIn : ∀ q ∈ new, ∀ a, Covers q a → Covers p.mmaps[i] a) : p.Drops lo n l := by
  have hMem : p.mmaps[i] ∈ p.mmaps := getElem_mem hi
  have hFine := h.records.fine _ hMem
  have hRoom : l.length ≤ maxMmaps := by
    have hOld := h.records.room
    rw [hPerm.length_eq, length_append, length_eraseIdx_of_lt hi]
    omega
  obtain ⟨hRecords, hFlags⟩ := h.records.splice hi hPerm hNew hIn hRoom
  have hInside : ∀ v, Starts lo n v → Covers p.mmaps[i] (v * pageSize) := by
    rintro v ⟨hStart, hEnd⟩
    exact ⟨by omega, by omega⟩
  refine h.drop hLo (hHigh.trans hFine.spot.limit)
    (fun v hv => Fine.off_stack hFine (hInside v hv)) hRecords fun v => ?_
  rw [hFlags]
  by_cases hCovers : Covers p.mmaps[i] (v * pageSize)
  · rw [if_pos hCovers, hShows _ hCovers, h.records.flagsAt_of_mem hMem hCovers]
    rfl
  · rw [if_neg hCovers, if_neg fun hv => hCovers (hInside v hv)]

theorem Tidy.trimAll (hi : i < p.mmaps.length) :
    p.Drops p.mmaps[i].base p.mmaps[i].size (p.mmaps.eraseIdx i) := by
  have hFine := h.records.fine _ (getElem_mem hi)
  exact h.trim (p.mmaps.eraseIdx i) [] hi hFine.base (le_refl _) (le_refl _)
    (Perm.refl _) .empty (by simp) (fun a ha => (if_pos ha).symm) (by simp)

/-- A record loses its first or its last pages. -/
theorem Tidy.trimEnd {b : ℕ} (hi : i < p.mmaps.length) (hn : n % pageSize = 0)
    (hLess : n < p.mmaps[i].size) (hEnd : lo = p.mmaps[i].base ∧ b = lo + n ∨
      lo + n = p.mmaps[i].base + p.mmaps[i].size ∧ b = p.mmaps[i].base) {q : MmapRec}
    (hq : q = { p.mmaps[i] with base := b, size := p.mmaps[i].size - n }) :
    p.Drops lo n (p.mmaps.set i q) := by
  have hRec := h.records.fine _ (getElem_mem hi)
  have hBase := hRec.base
  have hSize := hRec.size
  obtain ⟨hqBase, hqSize⟩ : q.base = b ∧ q.size = p.mmaps[i].size - n := by simp [hq]
  have hOne : Records [q] := by
    refine ⟨?_, pairwise_singleton _ _, by unfold maxMmaps; simp⟩
    intro r hr
    rw [mem_singleton.mp hr, hq]
    refine hRec.sub (by omega) (by omega) (by omega) ?_ ?_ hRec.user hRec.private_
    all_goals
      unfold pageSize at *
      omega
  have hCovers : ∀ a, Covers q a ↔ Covers p.mmaps[i] a ∧ ¬(lo ≤ a ∧ a < lo + n) := fun a => by
    unfold Covers
    omega
  refine h.trim (p.mmaps.set i q) [q] hi ?_ (by omega) (by omega) (set_perm_cons_eraseIdx hi q)
    hOne (le_refl _) ?_ ?_
  · unfold pageSize at *
    omega
  · intro a ha
    split_ifs with hIn
    · refine hOne.flagsAt_eq_none.mpr fun r hr hra => ?_
      rw [mem_singleton.mp hr, hCovers] at hra
      exact hra.2 hIn
    · rw [hOne.flagsAt_of_mem (mem_singleton_self q) ((hCovers a).mpr ⟨ha, hIn⟩), hq]
  · intro r hr a hra
    rw [mem_singleton.mp hr, hCovers] at hra
    exact hra.1

theorem Tidy.unmap_within (hAddr : addr % pageSize = 0) (hSize : size % pageSize = 0)
    (hn : n ≤ size)
    (hWithin : ∀ v, addr ≤ v * pageSize → v * pageSize < addr + size → p.Mapped v →
      Covers r (v * pageSize))
    (hRest : ∀ v, Starts addr size v → Covers r (v * pageSize) → Starts addr n v) {q : Mm}
    (hView : ∀ v, q.view v = if Starts addr n v then none else p.view v) :
    q.view = p.view.unmap (addr / pageSize) (size / pageSize) := by
  funext v
  unfold AddressMap.unmap
  rw [hView]
  by_cases hv : Starts addr size v
  · rw [if_pos ((inRange_iff_starts hAddr hSize).mpr hv)]
    split_ifs with hNot
    · rfl
    · have hFree : ¬p.Mapped v := fun hMapped => hNot (hRest v hv (hWithin v hv.1 hv.2 hMapped))
      unfold Mapped at hFree
      rw [not_or, not_or] at hFree
      have hNone : flagsAt p.mmaps (v * pageSize) = none :=
        h.records.flagsAt_eq_none.mpr fun r hr hrv => hFree.1 ⟨r, hr, hrv⟩
      exact view_of_gone hNone (Bool.eq_false_iff.mpr hFree.2.1) hFree.2.2
  · rw [if_neg fun hIn => hv ((inRange_iff_starts hAddr hSize).mp hIn), if_neg]
    rintro ⟨hStart, hEnd⟩
    exact hv ⟨hStart, by omega⟩

theorem Tidy.sysMunmap (hSound : p.Sound (.munmap addr len)) :
    (∃ e, p.sysMunmap addr len = (.error e, p)) ∨ ∃ q, p.sysMunmap addr len = (.ok (), q) ∧ q.Tidy ∧
        q.view = p.view.unmap (addr / pageSize) (roundUp len / pageSize) := by
  obtain ⟨hLen, hWithin⟩ := hSound
  obtain ⟨hSize, -, hLimit⟩ := roundUp_spec hLen
  unfold Mm.sysMunmap
  cases hFind : find p.mmaps addr with
  | none => exact .inl ⟨.inval, rfl⟩
  | some i =>
    obtain ⟨hi, hFirst, -⟩ := findIdx?_eq_some_iff_getElem.mp hFind
    replace hWithin := hWithin i hFind
    dsimp only
    rw [recAt_eq hi] at hWithin ⊢
    have hFine := h.records.fine _ (getElem_mem hi)
    have hCovers : p.mmaps[i].base ≤ addr ∧ addr < p.mmaps[i].base + p.mmaps[i].size :=
      hFine.covers.mp hFirst
    have hBase := hFine.base
    have hRecSize := hFine.size
    have hSpot := hFine.spot.limit
    have hWord := hFine.spot.lt
    generalize hUlen : (if p.mmaps[i].size < roundUp len then p.mmaps[i].size else roundUp len) =
      ulen
    have hUlenLe : ulen ≤ p.mmaps[i].size ∧ ulen ≤ roundUp len ∧
        (ulen < p.mmaps[i].size → ulen = roundUp len) ∧ ulen % pageSize = 0 := by
      rw [← hUlen]
      split <;> omega
    obtain ⟨hUlenRec, hUlenLen, hUlenEq, hUlenPages⟩ := hUlenLe
    by_cases hWhole : addr = p.mmaps[i].base ∧ ulen = p.mmaps[i].size
    · rw [if_pos hWhole]
      obtain ⟨rfl, rfl⟩ := hWhole
      obtain ⟨hTidy, hView⟩ := h.trimAll hi
      rw [(h.unmap hBase hSpot).2.1]
      exact .inr ⟨_, rfl, hTidy, h.unmap_within hBase hSize hUlenLen hWithin
        (fun _ _ hv => hv) hView⟩
    rw [if_neg hWhole]
    by_cases hHead : addr = p.mmaps[i].base ∧ ulen < p.mmaps[i].size
    · rw [if_pos hHead]
      obtain ⟨rfl, hLess⟩ := hHead
      rw [(h.unmap (n := ulen) hBase (by omega)).2.1, add64_of_lt (by omega)]
      obtain ⟨hTidy, hView⟩ := h.trimEnd hi hUlenPages hLess (.inl ⟨rfl, rfl⟩) rfl
      refine .inr ⟨_, rfl, hTidy, h.unmap_within hBase hSize hUlenLen hWithin ?_ hView⟩
      rw [hUlenEq hLess]
      exact fun _ hv _ => hv
    rw [if_neg hHead]
    by_cases hTail : add64 addr ulen = p.mmaps[i].stop
    · rw [if_pos hTail]
      rw [hFine.stop, add64_of_lt (by unfold userLimit at *; omega)] at hTail
      have hAddr : addr % pageSize = 0 := by
        unfold pageSize at *
        omega
      have hLess : ulen < p.mmaps[i].size := by omega
      rw [(h.unmap (n := ulen) hAddr (by omega)).2.1]
      obtain ⟨hTidy, hView⟩ := h.trimEnd hi hUlenPages hLess (.inr ⟨hTail, rfl⟩) rfl
      refine .inr ⟨_, rfl, hTidy, h.unmap_within hAddr hSize hUlenLen hWithin ?_ hView⟩
      rw [hUlenEq hLess]
      exact fun _ hv _ => hv
    · rw [if_neg hTail]
      exact .inl ⟨.inval, rfl⟩

end

/-! ### `sys_brk` -/

theorem heap_off_stack {top : ℕ} (hTop : top ≤ brkCeil) (hv : v * pageSize < top) :
    ¬StackPage v := by
  unfold StackPage stackTop stackMax
  unfold brkCeil at hTop
  omega

theorem moveBreak_self (a : ℕ) : m.moveBreak a a = m := by
  funext v
  have hOut : ¬AddressMap.InRange (AddressMap.pageAbove a)
      (AddressMap.pageAbove a - AddressMap.pageAbove a) v := by
    unfold AddressMap.InRange
    omega
  unfold AddressMap.moveBreak AddressMap.unmap
  rw [if_neg (lt_irrefl a), if_neg hOut]

section

variable (h : p.Tidy)
include h

theorem Clear.flagsAt_eq_none (hClear : p.Clear base size) (hv : Starts base size v) :
    flagsAt p.mmaps (v * pageSize) = none :=
  h.records.flagsAt_eq_none.mpr fun r hr hrv => hClear.not_covers r hr _ hrv hv

theorem Tidy.raiseBreak (hUp : p.brk < addr) (hCeil : addr ≤ brkCeil)
    (hClear : p.Clear (pageDown p.brk) (roundUp addr - pageDown p.brk))
    (hSupply : Supply p.vmm p.sp (pageCount (pageDown p.brk) (roundUp addr))) :
    ∃ s, p.vmm.vmmAllocRange p.sp p.brk (addr - p.brk) { user := true, write := true } = (true, s) ∧
      (p.setVmm s).Tidy ∧ (p.setVmm s).view = p.view.moveBreak p.brk addr := by
  obtain ⟨role, base, hInv⟩ := h.inv
  have hBrk := h.brk
  have hLimit : addr ≤ userLimit := by
    unfold brkCeil userLimit at *
    omega
  have hRange : p.brk + (addr - p.brk) ≤ userLimit := by omega
  have hSum : p.brk + (addr - p.brk) = addr := by omega
  obtain ⟨role', hKept, hBacked, hThere, hOk⟩ := hInv.vmmAllocRange h.used hRange
    { user := true, write := true } rfl
  have hAdd : add64 p.brk (addr - p.brk) = addr := by
    rw [add64_of_lt (by unfold userLimit at hRange; omega), hSum]
  have hEnd : rangeEnd p.brk (addr - p.brk) = roundUp addr := by
    have hTop : addr + 0xFFF < 2 ^ 64 := by
      unfold userLimit at hLimit
      omega
    unfold rangeEnd roundUp
    rw [hAdd, add64_of_lt hTop]
  have hIff := fun v => rangePages_iff (v := v) hRange
  rw [hEnd] at hBacked hThere hOk hIff
  simp only [hSum] at hIff
  have hDone := hOk hSupply
  generalize p.vmm.vmmAllocRange p.sp p.brk (addr - p.brk) { user := true, write := true } = res
    at hKept hBacked hThere hDone ⊢
  obtain ⟨ok, s⟩ := res
  obtain rfl : ok := hDone
  refine ⟨s, rfl, ?_⟩
  -- The pages between the two breaks.
  have hRound := (roundUp_spec hLimit)
  have hHeap : ∀ v, p.brk / pageSize ≤ v → v * pageSize < addr →
      flagsAt p.mmaps (v * pageSize) = none ∧ ¬StackPage v := by
    intro v hLow hHigh
    refine ⟨hClear.flagsAt_eq_none h ⟨?_, ?_⟩, heap_off_stack hCeil hHigh⟩
    · unfold pageDown pageSize at *
      omega
    · have hDown : pageDown p.brk ≤ p.brk := pageDown_le _
      omega
  have hOutside : ∀ v, ¬(p.brk / pageSize ≤ v ∧ v * pageSize < addr) →
      s.leaves (p.sp, v) = p.leaf v := by
    intro v hv
    exact hBacked.outside _ fun hIn => hv ((hIff v).mp hIn.2)
  have hNew : ∀ v, (s.leaves (p.sp, v)).p → s.leaves (p.sp, v) ≠ p.leaf v →
      (p.brk / pageSize ≤ v ∧ v * pageSize < addr) ∧
        ∃ f, s.leaves (p.sp, v) = mapEntry f { user := true, write := true } := by
    intro v hp hChanged
    refine ⟨?_, hBacked.fresh _ ?_ hp⟩
    · by_contra hv
      exact hChanged (hOutside v hv)
    · by_contra hOld
      exact hChanged (hBacked.kept _ (Bool.not_eq_false _ ▸ hOld))
  obtain ⟨hTidy, hRecs⟩ := h.setVmm hKept fun v hp hChanged => by
    obtain ⟨⟨hLow, hHigh⟩, f, hFrame⟩ := hNew v hp hChanged
    rw [hFrame]
    refine ⟨⟨rfl, rfl, rfl⟩, ?_, ?_⟩
    · intro f hf
      rw [(hHeap v hLow hHigh).1] at hf
      cases hf
    · intro _ hArena
      exfalso
      unfold brkBase mmapTop at *
      unfold pageSize at *
      omega
  refine ⟨hTidy, ?_⟩
  funext v
  have hInRange : AddressMap.InRange (p.brk / pageSize)
      (AddressMap.pageAbove addr - p.brk / pageSize) v ↔
      p.brk / pageSize ≤ v ∧ v * pageSize < addr := by
    unfold AddressMap.InRange AddressMap.pageAbove
    unfold pageSize at *
    omega
  unfold AddressMap.moveBreak AddressMap.fill
  rw [if_pos hUp]
  by_cases hv : p.brk / pageSize ≤ v ∧ v * pageSize < addr
  · obtain ⟨hNone, hOff⟩ := hHeap v hv.1 hv.2
    have hThereV : (s.leaves (p.sp, v)).p := by
      obtain ⟨hLow, hHigh⟩ := (hIff v).mpr hv
      exact hThere rfl v hLow hHigh
    have hNone' : flagsAt (p.setVmm s).mmaps (v * pageSize) = none := by rw [hRecs, hNone]
    rw [view_of_none hNone', view_of_none hNone, imageMap, imageMap]
    have hPresent : ((p.setVmm s).leaf v).p := hThereV
    rw [if_pos hPresent]
    by_cases hOld : (p.leaf v).p
    · have hSame : (p.setVmm s).leaf v = p.leaf v := hBacked.kept _ hOld
      rw [if_pos hOld, hSame, if_neg (by simp)]
    · rw [if_neg hOld, if_neg hOff, if_pos ⟨hInRange.mpr hv, rfl⟩]
      obtain ⟨f, hFrame⟩ := hBacked.fresh _ (Bool.eq_false_iff.mpr hOld) hThereV
      have hLeaf : (p.setVmm s).leaf v = mapEntry f { user := true, write := true } := hFrame
      rw [hLeaf]
      rfl
  · rw [if_neg fun hIn => hv (hInRange.mp hIn.1)]
    exact view_of_same hRecs (hOutside v hv)

theorem Tidy.lowerBreak (hDown : addr < p.brk) (hAligned : addr % pageSize = 0)
    (hClear : p.Clear addr (roundUp p.brk - addr)) :
    (p.setVmm (p.vmm.vmmUnmap p.sp addr (p.brk - addr))).Tidy ∧
      (p.setVmm (p.vmm.vmmUnmap p.sp addr (p.brk - addr))).view = p.view.moveBreak p.brk addr := by
  have hBrk := h.brk
  have hLimit : p.brk ≤ userLimit := by
    unfold brkCeil userLimit at *
    omega
  obtain ⟨hTidy, hRecs, hInside, hOutside⟩ := h.unmap (n := p.brk - addr) hAligned (by omega)
  refine ⟨hTidy, ?_⟩
  have hRound := roundUp_spec hLimit
  funext v
  have hInRange : AddressMap.InRange (AddressMap.pageAbove addr)
      (AddressMap.pageAbove p.brk - AddressMap.pageAbove addr) v ↔
      Starts addr (p.brk - addr) v := by
    unfold AddressMap.InRange AddressMap.pageAbove Starts
    unfold pageSize at *
    omega
  unfold AddressMap.moveBreak AddressMap.unmap
  rw [if_neg (by omega)]
  by_cases hv : Starts addr (p.brk - addr) v
  · rw [if_pos (hInRange.mpr hv)]
    have hNone := hClear.flagsAt_eq_none h (v := v) ⟨hv.1, by have := hv.2; omega⟩
    exact view_of_gone (by rw [hRecs, hNone]) (hInside v hv)
      (heap_off_stack hBrk.2 (by have := hv.2; omega))
  · rw [if_neg fun hIn => hv (hInRange.mp hIn)]
    exact view_of_same hRecs (hOutside v hv)

theorem Tidy.setBrk (hLow : brkBase ≤ addr) (hHigh : addr ≤ brkCeil) :
    ({ p with brk := addr } : Mm).Tidy :=
  { h with brk := ⟨hLow, hHigh⟩ }

theorem Tidy.sysBrk (hSound : p.Sound (.brk addr)) : (p.sysBrk addr).2.Tidy ∧
      (p.sysBrk addr).2.view = p.view.moveBreak p.brk (p.sysBrk addr).2.brk := by
  have hStay : p.Tidy ∧ p.view = p.view.moveBreak p.brk p.brk := ⟨h, (moveBreak_self _ _).symm⟩
  unfold Mm.sysBrk
  split
  · exact hStay
  split
  · exact hStay
  have hLow : brkBase ≤ addr := by omega
  have hHigh : addr ≤ brkCeil := by omega
  obtain ⟨hRaise, hLower⟩ := hSound hLow hHigh
  split_ifs with hUp hDown
  · obtain ⟨hClear, hSupply⟩ := hRaise hUp
    obtain ⟨s, hAlloc, hTidy, hView⟩ := h.raiseBreak hUp hHigh hClear hSupply
    rw [hAlloc]
    exact ⟨hTidy.setBrk hLow hHigh, hView⟩
  · obtain ⟨hAligned, hClear⟩ := hLower hDown
    obtain ⟨hTidy, hView⟩ := h.lowerBreak hDown hAligned hClear
    exact ⟨hTidy.setBrk hLow hHigh, hView⟩
  · exact hStay

end

end Tidy

end Mm

/-! ### Every run -/

namespace Tracked

/-- The map is what the process shows. -/
structure Agrees (t : Tracked) : Prop where
  tidy : t.mm.Tidy
  map : t.map = t.mm.view

theorem Agrees.exec {t : Tracked} (h : t.Agrees) {op : MmOp} (hSound : t.mm.Sound op) :
    (t.exec op).Agrees := by
  unfold Tracked.exec
  cases op with
  | mmap addr len prot flags =>
    rcases h.tidy.sysMmap hSound with ⟨e, q, hCall, hTidy, hView⟩ | ⟨base, q, hCall, hTidy, hView⟩
    · simp only [hCall]
      exact ⟨hTidy, h.map.trans hView.symm⟩
    · simp only [hCall]
      exact ⟨hTidy, by rw [h.map, hView]⟩
  | mprotect addr len prot =>
    rcases h.tidy.sysMprotect hSound with ⟨e, hCall⟩ | ⟨q, hCall, hTidy, hView⟩
    · simp only [hCall]
      exact h
    · simp only [hCall]
      exact ⟨hTidy, by rw [h.map, hView]⟩
  | munmap addr len =>
    rcases h.tidy.sysMunmap hSound with ⟨e, hCall⟩ | ⟨q, hCall, hTidy, hView⟩
    · simp only [hCall]
      exact h
    · simp only [hCall]
      exact ⟨hTidy, by rw [h.map, hView]⟩
  | brk addr =>
    obtain ⟨hTidy, hView⟩ := h.tidy.sysBrk hSound
    exact ⟨hTidy, by rw [h.map, hView]⟩
  | touch va kind =>
    obtain ⟨s, hAccess, hTidy, hView⟩ := h.tidy.access hSound.1 hSound.2 kind 2
    have hTurns : turns = 2 + 2 := rfl
    simp only [hTurns, hAccess]
    exact ⟨hTidy, h.map.trans hView.symm⟩

theorem Reached.agrees {t : Tracked} (h : t.Reached) : t.Agrees := by
  refine Reaches.invariant ?_ (fun t op hAgrees hSound => hAgrees.exec hSound) h
  rintro t ⟨hFresh, hMap⟩
  exact ⟨hFresh.tidy, by rw [hMap, hFresh.view]⟩

/-- In every state that sound calls reach, an access to a page of the user half is settled within
two turns, and its outcome is the one that the map says, when there is memory for a page. -/
theorem access_refines_map {t : Tracked} (h : t.Reached) {va : ℕ} (hva : va < userLimit)
    (hSupply : Supply t.mm.vmm t.mm.sp 1) (kind : Access) (n : ℕ) :
    (access t.mm.sp va kind (n + 2) t.mm.vmm).1 = some (t.map.allows va kind) := by
  obtain ⟨s, hAccess, -, -⟩ := h.agrees.tidy.access hva hSupply kind n
  rw [hAccess, h.agrees.map]

end Tracked

/-! ### A process of two used frames -/

/-- Frame 0 belongs to nobody, frame 1 is the empty top table of address space 0, and 14 frames are
free. -/
def loneSpace : Vmm where
  tables := fun _ _ => {}
  data := fun _ => 0
  pmm := {
    gBitmap := fun i => if i = 0 then 3#8 else 0#8
    gBitmapBytes := 2
    gTotal := 16
    gFree := 14
    gNextHint := 0 }
  gCgs := fun _ => {}
  gSpaces := fun _ => { pml4 := 1, refs := 1 }
  gUsed := fun sp => sp = 0
  gShm := fun _ => .free
  gFrameSlotsUsed := 0
  gKernelPml4 := 0
  smp := false

namespace loneSpace

def role : Roles := fun f => if f = 1 then some ⟨0, 4, 0⟩ else none

theorem role_eq_some {f : ℕ} {r : Role ℕ} (h : role f = some r) : f = 1 ∧ r = ⟨0, 4, 0⟩ := by
  unfold role at h
  split at h
  · rename_i hf
    exact ⟨hf, (some.inj h).symm⟩
  · cases h

theorem typed : Typed loneSpace role := by
  refine ⟨⟨by decide, levelLimit_le, ?_, ?_, ?_⟩, fun _ _ _ => rfl⟩
  · intro sp t ht
    unfold rootOf at ht
    split at ht
    · rename_i hUsed
      obtain rfl : sp = 0 := of_decide_eq_true hUsed
      obtain rfl : 1 = t := some.inj ht
      rfl
    · cases ht
  · intro t sp l p i c _ _ _ hChild
    cases hChild
  · intro c sp l q hc
    obtain ⟨rfl, hRole⟩ := role_eq_some hc
    cases hRole
    exact .inl ⟨rfl, rfl, rfl⟩

theorem leaves_eq (x : ℕ × ℕ) : loneSpace.leaves x = {} := by
  unfold leaves
  split
  · cases loneSpace.leafTable x.1 x.2 <;> rfl
  · rfl

theorem holds_eq (x : ℕ × ℕ) : loneSpace.holds x = none := by
  unfold holds
  rw [leaves_eq]
  rfl

theorem refs_eq (f : ℕ) : loneSpace.refs f = none :=
  (Probe.Probed.get_eq_none (Probe.probed_empty (by decide) shmHash)).mpr fun _ _ _ h => by cases h

theorem taken_iff {f : ℕ} : f ∈ loneSpace.taken ↔ f = 0 ∨ f = 1 := by
  have hAll : ∀ g : Fin 16, loneSpace.pmm.bitTest g ↔ g.val = 0 ∨ g.val = 1 := by
    decide +kernel
  constructor
  · rintro ⟨hLt, hBit⟩
    exact (hAll ⟨f, hLt⟩).mp hBit
  · intro hf
    have hLt : f < 16 := by omega
    exact ⟨hLt, (hAll ⟨f, hLt⟩).mpr hf⟩

theorem ledger : Ledger userKeys loneSpace.holds loneSpace.refs loneSpace.taken
    ({0} ∪ tableFrames role) fun _ => 0 := by
  have hNone : ∀ x f b, loneSpace.holds x ≠ some (f, b) := by
    intro x f b
    rw [holds_eq]
    exact (some_ne_none _).symm
  have hTables : ∀ f, f ∈ tableFrames role ↔ f = 1 := by
    intro f
    unfold tableFrames role
    by_cases hf : f = 1 <;> simp [hf]
  refine ⟨?_, ?_, ?_, ?_, ?_, ?_⟩
  · intro x hx
    exact absurd (holds_eq x) hx
  · intro f
    rw [taken_iff, Set.mem_union, Set.mem_singleton_iff, hTables]
    constructor
    · exact .inl
    · rintro (hf | ⟨x, b, hx⟩ | hLoose)
      · exact hf
      · exact absurd hx (hNone x f b)
      · exact absurd hLoose (lt_irrefl 0)
  · intro f _
    exact ⟨fun x b => hNone x f b, rfl⟩
  · intro f
    rw [refs_eq, sharers, Finset.filter_false_of_mem fun x _ => hNone x f true]
    rfl
  · intro f
    rw [refs_eq]
    exact (some_ne_none _).symm
  · intro x f hx
    exact absurd hx (hNone x f false)

theorem inv : Inv loneSpace role {0} fun _ => 0 := by
  refine ⟨⟨by decide +kernel, rfl, by decide, fun f hLow hHigh => ?_, by decide⟩, ⟨?_, ?_, ?_⟩,
    typed, ?_, ledger, ?_, rfl, ?_, ?_⟩
  · exact absurd hHigh (not_lt.mpr hLow)
  · exact Probe.probed_empty (by decide) shmHash
  · have hUsed : Probe.usedSlots frameSlots loneSpace.gShm = ∅ :=
      Finset.filter_false_of_mem fun _ _ => Bool.false_ne_true
    rw [hUsed]
    rfl
  · intro f r hr
    rw [refs_eq] at hr
    cases hr
  · intro sp hUsed
    obtain rfl : sp = 0 := of_decide_eq_true hUsed
    decide
  · rintro f rfl
    rfl
  · intro sp v w f b c hv
    rw [holds_eq] at hv
    cases hv
  · intro x hp
    rw [leaves_eq] at hp
    cases hp

end loneSpace

def loneMm : Mm := { vmm := loneSpace, sp := 0, brk := brkBase }

theorem loneMm_fresh : loneMm.Fresh := by
  have hAbsent : ∀ v, (loneMm.leaf v).p = false := by
    intro v
    unfold Mm.leaf
    rw [loneMm, loneSpace.leaves_eq]
  refine ⟨⟨loneSpace.role, {0}, loneSpace.inv⟩, rfl, rfl, rfl, ?_, ?_⟩
  all_goals
    intro v hp
    rw [hAbsent] at hp
    cases hp

namespace Tracked

def lone : Tracked := ⟨loneMm, loneMm.imageMap⟩

/-- `mmap` of two pages that can be read and written, wherever the kernel puts them, of which the
first one is then to be run. -/
def afterProtect : Tracked := (lone.exec (.mmap 0 0x2000 3 0x22)).exec (.mprotect mmapBase 0x1000 5)

/-- The second page is unmapped. -/
def afterUnmap : Tracked := afterProtect.exec (.munmap (mmapBase + 0x1000) 0x1000)

theorem afterUnmap_reached : afterUnmap.Reached := by
  have hFound : find afterProtect.mm.mmaps (mmapBase + 0x1000) = some 1 := by decide +kernel
  have hRec : (recAt afterProtect.mm.mmaps 1).base = mmapBase + 0x1000 ∧
      (recAt afterProtect.mm.mmaps 1).size = roundUp 0x1000 := by
    decide +kernel
  have hProtect : afterProtect.Reached := by
    refine .step (.step (.start ⟨loneMm_fresh, rfl⟩) ?_) ?_
    · exact ⟨by decide, by decide, by decide, fun hAddr => absurd rfl hAddr⟩
    · refine ⟨by decide, by decide, by decide, by decide +kernel, fun v _ hHigh hStack => ?_⟩
      -- The stack lies far above.
      have hBelow : mmapBase + roundUp 0x1000 ≤ stackTop - stackMax := by decide +kernel
      exact absurd (hStack.1.trans_lt hHigh) (Nat.not_lt.mpr hBelow)
  refine .step hProtect ⟨by decide, fun i hFind v hLow hHigh _ => ?_⟩
  obtain rfl : 1 = i := Option.some.inj (hFound.symm.trans hFind)
  unfold Covers
  rw [hRec.1, hRec.2]
  exact ⟨hLow, hHigh⟩

/-- The first page can be run and not written, and the second one cannot be read. -/
theorem access_refines_map_afterUnmap :
    (access 0 mmapBase .fetch 2 afterUnmap.mm.vmm).1 = some true ∧
      (access 0 mmapBase .write 2 afterUnmap.mm.vmm).1 = some false ∧
      (access 0 (mmapBase + 0x1000) .read 2 afterUnmap.mm.vmm).1 = some false := by
  have hReached := afterUnmap_reached
  have hSp : afterUnmap.mm.sp = 0 := by decide +kernel
  have hSupply : Supply afterUnmap.mm.vmm afterUnmap.mm.sp 1 := by
    refine ⟨by decide +kernel, fun c hc => ?_⟩
    have hNone : (afterUnmap.mm.vmm.gSpaces afterUnmap.mm.sp).cg = none := by decide +kernel
    rw [hNone] at hc
    cases hc
  have hFetch : afterUnmap.map.allows mmapBase .fetch = true := by decide +kernel
  have hWrite : afterUnmap.map.allows mmapBase .write = false := by decide +kernel
  have hRead : afterUnmap.map.allows (mmapBase + 0x1000) .read = false := by decide +kernel
  rw [← hSp]
  exact ⟨(access_refines_map hReached (by decide) hSupply .fetch 0).trans (congrArg some hFetch),
    (access_refines_map hReached (by decide) hSupply .write 0).trans (congrArg some hWrite),
    (access_refines_map hReached (by decide) hSupply .read 0).trans (congrArg some hRead)⟩

/-- `MAP_FIXED` at a page that is mapped already leaves the older record behind, so a page that was
mapped twice is still there after its `munmap`. -/
theorem access_after_munmap :
    ∃ ops : List MmOp, ops = [.mmap mmapBase 0x1000 3 0x32, .mmap mmapBase 0x1000 3 0x32,
        .munmap mmapBase 0x1000] ∧ (ops.foldl exec lone).map.allows mmapBase .write = false ∧
      (access 0 mmapBase .write 2 (ops.foldl exec lone).mm.vmm).1 = some true :=
  ⟨_, rfl, by decide +kernel, by decide +kernel⟩

end Tracked

end Gnos
