import Gnos.Ipc.Ids

/-! Shared-memory segments: `sysv_shmget`, `sysv_shmat`, `sysv_shmdt`, `IPC_RMID`, and what `fork`,
`execve` and the end of a process do to attachments.  The table of segments is that of the
identifiers.  An address space has the pages with the mark of an external owner, which are those of
segments, and the records of mappings. -/

namespace Gnos.Ipc

open List Function

structure Att where
  pid : ℕ
  va : ℕ
  deriving DecidableEq

/-- The pages with `PTE_AVL`, by their number, and `mmaps`, by base and size. -/
structure Space where
  pages : List (ℕ × ℕ)
  mmaps : List (ℕ × ℕ)
  deriving DecidableEq

/-- A segment that was made: its identifier and frames, whether `IPC_RMID` was called on it, and
which of its frames were given back. -/
structure Segment where
  id : ℕ
  perm : Perm
  frames : List ℕ
  marked : Bool := false
  returned : List ℕ := []
  deriving DecidableEq

/-- The request for the removal of a segment, by one who may make it. -/
def Segment.Asked (g : Segment) (p : Caller) (id : ℤ) : Prop :=
  (g.id : ℤ) = id ∧ permitted p g.perm .write

instance (g : Segment) (p : Caller) (id : ℤ) : Decidable (g.Asked p id) :=
  inferInstanceAs (Decidable (_ ∧ _))

/-- `refs` is the table of shared frames, with 0 for a frame that it does not track; `made` has the
newest segment first. -/
structure Segs where
  table : Table
  frames : ℕ → List ℕ
  att : ℕ → List (Option Att)
  spaces : List (ℕ × Space)
  refs : ℕ → ℕ
  made : List Segment

def attRows : ℕ := 64
def shmMaxMmaps : ℕ := 512

def userMmapBase : ℕ := 0x500000000000
def userMmapCeil : ℕ := 0x600000000000
def userLimit : ℕ := 0x800000000000

def pageDown (va : ℕ) : ℕ := va / 4096 * 4096

variable (sp : Space)

namespace Space

/-- The end of `vmm_map`: a page gets a frame. -/
def map (page frame : ℕ) : Space :=
  { sp with pages := (page, frame) :: sp.pages.filter (·.1 ≠ page) }

def within (va size : ℕ) (e : ℕ × ℕ) : Bool := va ≤ e.1 * 4096 && e.1 * 4096 < va + size

def clear (va size : ℕ) : Space :=
  { sp with pages := sp.pages.filter fun e => !within va size e }

def record (va size : ℕ) : Space := { sp with mmaps := sp.mmaps ++ [(va, size)] }

/-- `shm_forget`: the first record with the base goes. -/
def shmForget (va : ℕ) : Space := { sp with mmaps := sp.mmaps.eraseP (·.1 = va) }

/-- `shm_pick_base`, with 0 for no place. -/
def shmPickBase (size : ℕ) : ℕ :=
  let base := sp.mmaps.foldl (fun base m =>
    if m.1 < userMmapBase ∨ userMmapCeil ≤ m.1 then base else max base (m.1 + m.2)) userMmapBase
  if userMmapCeil < base + size then 0 else base

def holds (fs : List ℕ) (sp : Space) : Bool := sp.pages.any fun e => fs.contains e.2

end Space

namespace Segs

def space? (s : Segs) (pid : ℕ) : Option Space := (s.spaces.find? (·.1 = pid)).map (·.2)

def setSpace (s : Segs) (pid : ℕ) (sp : Space) : Segs :=
  { s with spaces := s.spaces.map fun e => if e.1 = pid then (pid, sp) else e }

def setTable (s : Segs) (t : Table) : Segs := { s with table := t }

def setAtt (s : Segs) (i : ℕ) (rows : List (Option Att)) : Segs :=
  { s with att := update s.att i rows }

def setFrames (s : Segs) (i : ℕ) (fs : List ℕ) : Segs :=
  { s with frames := update s.frames i fs }

def addNattch (s : Segs) (i : ℕ) (d : ℤ) : Segs :=
  s.setTable (s.table.setSlot i { s.table.slots i with nattch := (s.table.slots i).nattch + d })

/-- `pmm_free` of a frame, which the newest segment with that frame sees. -/
def giveBack (f : ℕ) : List Segment → List Segment
  | [] => []
  | g :: gs =>
    if f ∈ g.frames then { g with returned := g.returned ++ [f] } :: gs else g :: giveBack f gs

def pmmFree (s : Segs) (f : ℕ) : Segs := { s with made := giveBack f s.made }

/-- `vmm_share_unref`: nothing for a frame that is not tracked. -/
def shareUnref (s : Segs) (f : ℕ) : Segs :=
  if s.refs f = 0 then s
  else
    let s' := { s with refs := update s.refs f (s.refs f - 1) }
    if s.refs f = 1 then s'.pmmFree f else s'

/-- `vmm_unmap` of pages that have an external owner. -/
def vmmUnmap (s : Segs) (pid va size : ℕ) : Segs :=
  match s.space? pid with
  | none => s
  | some sp =>
    ((sp.pages.filter (Space.within va size)).map (·.2)).foldl shareUnref
      (s.setSpace pid (sp.clear va size))

/-- `vmm_put` of the only reference. -/
def vmmPut (s : Segs) (sp : Space) : Segs := (sp.pages.map (·.2)).foldl shareUnref s

def shmRelease (s : Segs) (i : ℕ) : Segs :=
  (((s.frames i).foldl pmmFree s).setFrames i []).setTable (s.table.retire i)

/-- The slot that `sysv_shmget` takes and clears, if it comes so far. -/
def slotFor (s : Segs) (a : GetArgs) : Option ℕ :=
  if (s.table.findKey shmMax a.key).isSome || !a.creat || !shmFamily.valid a.size then none
  else (s.table.allocSlot shmMax).1

def npages (a : GetArgs) : ℕ := (shmFamily.round a.size / 4096).toNat

/-- `sysv_shmget`; `alloc` gives the frames, and `a.mem` is whether every allocation succeeds. -/
def shmget (s : Segs) (a : GetArgs) (alloc : ℕ → ℕ) : Segs :=
  let t := (sysvShmget s.table a).2
  match s.slotFor a with
  | none => s.setTable t
  | some i =>
    let s' := (s.setTable t).setAtt i (List.replicate attRows none)
    if a.mem then
      let fs := (List.range (npages a)).map alloc
      { s'.setFrames i fs with
        made := ⟨makeId (t.slots i).seq i, (t.slots i).perm, fs, false, []⟩ :: s.made }
    else s'.setFrames i []

/-- The loop over the pages of `sysv_shmat`: the space, and how many pages were mapped. -/
def mapAll (page : ℕ) (mem : ℕ → Bool) : ℕ → List ℕ → Segs → ℕ → Segs × Option ℕ
  | _, [], s, _ => (s, none)
  | i, f :: fs, s, pid =>
    if mem i = false then (s, some i)
    else
      match s.space? pid with
      | none => (s, some i)
      | some sp =>
        -- A page of another owner that was there loses its frame.
        let old := (sp.pages.filter fun e => e.1 = page + i && e.2 ≠ f).map (·.2)
        mapAll page mem (i + 1) fs (old.foldl shareUnref (s.setSpace pid (sp.map (page + i) f))) pid

/-- The address that `sysv_shmat` maps a segment at; `rnd` is `SHM_RND`. -/
def attachAt (uaddr size : ℕ) (rnd : Bool) : ℕ :=
  let va := if rnd then pageDown uaddr else uaddr
  if va = 0 then sp.shmPickBase size else pageDown va

def shmat (s : Segs) (p : Caller) (id : ℤ) (uaddr : ℕ) (rdonly rnd : Bool) (mem : ℕ → Bool) :
    Except Err ℕ × Segs :=
  match s.table.at? shmMax id with
  | none => (.error .inval, s)
  | some i =>
    if permitted p (s.table.slots i).perm (if rdonly then .read else .write) = false then
      (.error .acces, s)
    else
      match s.space? p.pid with
      | none => (.error .inval, s)
      | some sp =>
        if (s.att i).any fun r => r.any (·.pid = p.pid) then (.error .inval, s)
        else
          let size := (s.table.slots i).size.toNat
          let va := attachAt sp uaddr size rnd
          if va = 0 ∨ userLimit < va + size then (.error .inval, s)
          else
            match mapAll (va / 4096) mem 0 (s.frames i) s p.pid with
            | (s, some k) => (.error .nomem, s.vmmUnmap p.pid va (k * 4096))
            | (s, none) =>
              match s.space? p.pid with
              | none => (.error .inval, s)
              | some sp =>
                if shmMaxMmaps ≤ sp.mmaps.length then (.error .nomem, s.vmmUnmap p.pid va size)
                else
                  let s := s.setSpace p.pid (sp.record va size)
                  match (s.att i).findIdx? (·.isNone) with
                  | none =>
                    let s := s.vmmUnmap p.pid va size
                    (.error .mfile, match s.space? p.pid with
                      | none => s
                      | some sp => s.setSpace p.pid (sp.shmForget va))
                  | some row =>
                    (.ok va, (s.setAtt i ((s.att i).set row (some ⟨p.pid, va⟩))).addNattch i 1)

def shmDetachOne (s : Segs) (i pid va : ℕ) : Segs :=
  let s := s.vmmUnmap pid va (s.table.slots i).size.toNat
  let s := match s.space? pid with
    | none => s
    | some sp => s.setSpace pid (sp.shmForget va)
  let s := s.addNattch i (-1)
  let s := match (s.att i).findIdx? (· = some ⟨pid, va⟩) with
    | none => s
    | some row => s.setAtt i ((s.att i).set row none)
  if (s.table.slots i).destroy && (s.table.slots i).nattch ≤ 0 then s.shmRelease i else s

def shmdt (s : Segs) (p : Caller) (uaddr : ℕ) : Except Err Unit × Segs :=
  match (List.range shmMax).find? fun i =>
      (s.table.slots i).used && (s.att i).contains (some ⟨p.pid, pageDown uaddr⟩) with
  | none => (.error .inval, s)
  | some i => (.ok (), s.shmDetachOne i p.pid (pageDown uaddr))

def mark (s : Segs) (p : Caller) (id : ℤ) : Segs :=
  { s with made := s.made.map fun g => if g.Asked p id then { g with marked := true } else g }

def shmctlRmid (s : Segs) (p : Caller) (id : ℤ) : Except Err Unit × Segs :=
  let s := s.mark p id
  match s.table.at? shmMax id with
  | none => (.error .inval, s)
  | some i =>
    let slot := s.table.slots i
    if permitted p slot.perm .write = false then (.error .acces, s)
    else
      let s := s.setTable (s.table.setSlot i
        { slot with destroy := true, perm := { slot.perm with mode := slot.perm.mode ||| 512 } })
      (.ok (), if slot.nattch ≤ 0 then s.shmRelease i else s)

def shmDetachAll (s : Segs) (pid : ℕ) : Segs :=
  (List.range shmMax).foldl (fun s i =>
    if (s.table.slots i).used && 0 < (s.table.slots i).nattch then
      match (s.att i).find? fun r => r.any (·.pid = pid) with
      | some (some a) => s.shmDetachOne i pid a.va
      | _ => s
    else s) s

/-- Whether `clone_level` passes on the pages with an external owner: each frame must be tracked. -/
def cloneable (s : Segs) (sp : Space) : Bool := sp.pages.all fun e => 0 < s.refs e.2

/-- `fork`, as far as segments are concerned; `mem` is whether its other allocations succeed. -/
def fork (s : Segs) (parent child : ℕ) (mem : Bool) : Bool × Segs :=
  match s.space? parent, s.space? child with
  | some sp, none =>
    if mem && s.cloneable sp then
      (true, { s with
        refs := sp.pages.foldl (fun refs e => update refs e.2 (refs e.2 + 1)) s.refs
        spaces := (child, sp) :: s.spaces })
    else (false, s)
  | _, _ => (false, s)

/-- `execve`: a new address space after `sysv_exec_reset`. -/
def execve (s : Segs) (pid : ℕ) : Segs :=
  let s := s.shmDetachAll pid
  match s.space? pid with
  | none => s
  | some sp => (s.setSpace pid ⟨[], []⟩).vmmPut sp

def exit (s : Segs) (pid : ℕ) : Segs :=
  let s := s.shmDetachAll pid
  match s.space? pid with
  | none => s
  | some sp => Segs.vmmPut { s with spaces := s.spaces.filter (·.1 ≠ pid) } sp

end Segs

inductive SegOp where
  | shmget (a : GetArgs) (alloc : ℕ → ℕ)
  | shmat (p : Caller) (id : ℤ) (uaddr : ℕ) (rdonly rnd : Bool) (mem : ℕ → Bool)
  | shmdt (p : Caller) (uaddr : ℕ)
  | rmid (p : Caller) (id : ℤ)
  | fork (parent child : ℕ) (mem : Bool)
  | execve (pid : ℕ)
  | exit (pid : ℕ)

namespace Segs

def exec (s : Segs) : SegOp → Segs
  | .shmget a alloc => s.shmget a alloc
  | .shmat p id uaddr rdonly rnd mem => (s.shmat p id uaddr rdonly rnd mem).2
  | .shmdt p uaddr => (s.shmdt p uaddr).2
  | .rmid p id => (s.shmctlRmid p id).2
  | .fork parent child mem => (s.fork parent child mem).2
  | .execve pid => s.execve pid
  | .exit pid => s.exit pid

/-- A kernel without segments, with processes that have only mappings of other kinds. -/
def boot (procs : List (ℕ × List (ℕ × ℕ))) (refs : ℕ → ℕ) : Segs where
  table := ⟨fun _ => {}, 0, []⟩
  frames := fun _ => []
  att := fun _ => []
  spaces := procs.map fun e => (e.1, ⟨[], e.2⟩)
  refs := refs
  made := []

def Unheld (s : Segs) (fs : List ℕ) : Prop := ∀ e ∈ s.spaces, e.2.holds fs = false

structure Kept (s : Segs) : Prop where
  nattch : ∀ i < shmMax, (s.table.slots i).nattch =
    (s.spaces.filter fun e => e.2.holds (s.frames i)).length
  forks : ∀ parent child sp, s.space? parent = some sp → s.space? child = none →
    (∃ g ∈ s.made, sp.holds g.frames) →
      (s.fork parent child true).1 ∧ (s.fork parent child true).2.space? child = some sp
  early : ∀ g ∈ s.made, g.returned ≠ [] → g.marked ∧ s.Unheld g.frames
  once : ∀ g ∈ s.made, g.marked → s.Unheld g.frames → g.returned.Perm g.frames

/-- `IPC_RMID` is called on a segment that was made. -/
def Asks (s : Segs) : SegOp → Prop
  | .rmid p id => ∃ g ∈ s.made, g.Asked p id
  | _ => False

end Segs

namespace Table

variable {t : Table} {f : Family} {a : GetArgs}

theorem nattch_setSlot {i : ℕ} {slot : Slot} (h : ∀ j, (t.slots j).nattch = 0)
    (hSlot : slot.nattch = 0) (j : ℕ) : ((t.setSlot i slot).slots j).nattch = 0 := by
  unfold setSlot
  dsimp only
  rw [update_apply]
  split
  · exact hSlot
  · exact h j

theorem nattch_get (h : ∀ j, (t.slots j).nattch = 0) (j : ℕ) :
    ((t.get f a).2.slots j).nattch = 0 := by
  have hAlloc : ∀ j, ((t.allocSlot f.max).2.slots j).nattch = 0 := by
    unfold allocSlot
    split
    · exact h
    · exact nattch_setSlot h (h _)
  unfold get
  split
  · split
    · exact h j
    split
    · exact h j
    split <;> exact h j
  split
  · exact h j
  split
  · exact h j
  split
  · rename_i hNone
    rw [hNone] at hAlloc
    exact hAlloc j
  · rename_i i t' hSome
    rw [hSome] at hAlloc
    have hFill : ∀ j, ((t'.fill f i a).slots j).nattch = 0 := nattch_setSlot hAlloc rfl
    split
    · refine nattch_setSlot hFill ?_ j
      exact hFill i
    · exact hFill j

end Table

namespace Segs

variable {s : Segs}

/-- No slot is in use, no page of a segment is mapped, and no frame has been given back. -/
structure Idle (s : Segs) : Prop where
  vacant : s.table.Vacant
  nattch : ∀ i, (s.table.slots i).nattch = 0
  spaces : ∀ e ∈ s.spaces, e.2.pages = []
  made : ∀ g ∈ s.made, g.returned = [] ∧ g.frames ≠ []

theorem Idle.space (h : s.Idle) {pid : ℕ} {sp : Space} (hSpace : s.space? pid = some sp) :
    sp.pages = [] := by
  obtain ⟨e, he, rfl⟩ := Option.map_eq_some_iff.mp hSpace
  exact h.spaces e (mem_of_find?_eq_some he)

theorem Idle.unheld (h : s.Idle) (fs : List ℕ) : s.Unheld fs := by
  intro e he
  unfold Space.holds
  rw [h.spaces e he]
  rfl

theorem npages_pos {a : GetArgs} (h : shmFamily.valid a.size) : 0 < npages a := by
  have hSize : 0 < a.size := by
    have hBoth : (decide (0 < a.size) && decide (a.size ≤ shmMaxBytes)) := h
    rw [Bool.and_eq_true, decide_eq_true_eq] at hBoth
    exact hBoth.1
  unfold npages
  have hRound : shmFamily.round a.size = (a.size + 4095) / 4096 * 4096 := rfl
  omega

theorem valid_of_slotFor {a : GetArgs} {i : ℕ} (h : s.slotFor a = some i) :
    shmFamily.valid a.size := by
  unfold slotFor at h
  split at h
  · cases h
  · rename_i hNot
    simp only [Bool.or_eq_true, Bool.not_eq_true', not_or, Bool.not_eq_false] at hNot
    exact hNot.2

theorem shmget_made (s : Segs) (a : GetArgs) (alloc : ℕ → ℕ) : (s.shmget a alloc).made = s.made ∨
      ∃ g, (s.shmget a alloc).made = g :: s.made ∧ g.returned = [] ∧ g.frames ≠ [] ∧
      g.marked = false := by
  unfold shmget
  split
  · exact .inl rfl
  · rename_i i hSlot
    split
    · refine .inr ⟨_, rfl, rfl, ?_, rfl⟩
      have hPos := npages_pos (valid_of_slotFor hSlot)
      intro hNil
      rw [map_eq_nil_iff, range_eq_nil] at hNil
      omega
    · exact .inl rfl

theorem shmget_table (s : Segs) (a : GetArgs) (alloc : ℕ → ℕ) :
    (s.shmget a alloc).table = (sysvShmget s.table a).2 ∧ (s.shmget a alloc).spaces = s.spaces := by
  unfold shmget
  split
  · exact ⟨rfl, rfl⟩
  · split <;> exact ⟨rfl, rfl⟩

section

variable (h : s.Idle)
include h

theorem Idle.shmget (a : GetArgs) (alloc : ℕ → ℕ) : (s.shmget a alloc).Idle := by
  obtain ⟨hTable, hSpaces⟩ := s.shmget_table a alloc
  refine ⟨?_, ?_, ?_, ?_⟩
  · rw [hTable]
    exact (h.vacant.get (by decide)).1
  · rw [hTable]
    exact Table.nattch_get h.nattch
  · rw [hSpaces]
    exact h.spaces
  · rcases s.shmget_made a alloc with hSame | ⟨g, hNew, hReturned, hFrames, -⟩
    · rw [hSame]
      exact h.made
    · rw [hNew]
      intro g' hg'
      rcases mem_cons.mp hg' with rfl | hOld
      · exact ⟨hReturned, hFrames⟩
      · exact h.made g' hOld

theorem Idle.shmDetachAll (pid : ℕ) : s.shmDetachAll pid = s := by
  refine foldlRecOn (motive := (· = s)) _ _ rfl fun s' hs i _ => ?_
  rw [hs, h.vacant i]
  rfl

theorem Idle.shmdt (p : Caller) (uaddr : ℕ) : s.shmdt p uaddr = (.error .inval, s) := by
  unfold Segs.shmdt
  rw [find?_eq_none.mpr fun i _ => by rw [h.vacant i]; simp]

theorem Idle.rmid (p : Caller) (id : ℤ) : s.shmctlRmid p id = (.error .inval, s.mark p id) := by
  have hVacant : (s.mark p id).table.Vacant := h.vacant
  unfold shmctlRmid
  dsimp only
  rw [hVacant.at?]

theorem Idle.vmmPut {sp : Space} (hPages : sp.pages = []) : (s.vmmPut sp).Idle := by
  unfold Segs.vmmPut
  rw [hPages]
  exact h

theorem Idle.setSpaces {l : List (ℕ × Space)} (hl : ∀ e ∈ l, e.2.pages = []) :
    Idle { s with spaces := l } :=
  ⟨h.vacant, h.nattch, hl, h.made⟩

theorem Idle.execve (pid : ℕ) : (s.execve pid).Idle := by
  unfold Segs.execve
  rw [h.shmDetachAll]
  dsimp only
  split
  · exact h
  · rename_i sp hSpace
    refine Idle.vmmPut (h.setSpaces fun e he => ?_) (h.space hSpace)
    obtain ⟨e', he', rfl⟩ := mem_map.mp he
    split
    · rfl
    · exact h.spaces e' he'

theorem Idle.exit (pid : ℕ) : (s.exit pid).Idle := by
  unfold Segs.exit
  rw [h.shmDetachAll]
  dsimp only
  split
  · exact h
  · rename_i sp hSpace
    exact Idle.vmmPut (h.setSpaces fun e he => h.spaces e (mem_filter.mp he).1) (h.space hSpace)

theorem Idle.fork (parent child : ℕ) (mem : Bool) : (s.fork parent child mem).2.Idle := by
  unfold Segs.fork
  split
  · rename_i sp hParent _
    split
    · refine ⟨h.vacant, h.nattch, fun e he => ?_, h.made⟩
      rcases mem_cons.mp he with rfl | hOld
      · exact h.space hParent
      · exact h.spaces e hOld
    · exact h
  · exact h

theorem Idle.mark (p : Caller) (id : ℤ) : (s.mark p id).Idle := by
  refine ⟨h.vacant, h.nattch, h.spaces, fun g hg => ?_⟩
  obtain ⟨g', hg', rfl⟩ := mem_map.mp hg
  split
  · exact h.made g' hg'
  · exact h.made g' hg'

theorem Idle.exec (op : SegOp) : (s.exec op).Idle := by
  cases op with
  | shmget a alloc => exact h.shmget a alloc
  | shmat p id uaddr rdonly rnd mem =>
    show (s.shmat p id uaddr rdonly rnd mem).2.Idle
    unfold shmat
    rw [h.vacant.at?]
    exact h
  | shmdt p uaddr =>
    show (s.shmdt p uaddr).2.Idle
    rw [h.shmdt]
    exact h
  | rmid p id =>
    show (s.shmctlRmid p id).2.Idle
    rw [h.rmid]
    exact h.mark p id
  | fork parent child mem => exact h.fork parent child mem
  | execve pid => exact h.execve pid
  | exit pid => exact h.exit pid

theorem Idle.foldl (ops : List SegOp) : (ops.foldl Segs.exec s).Idle :=
  ops.foldlRecOn _ h fun _ h op _ => h.exec op

end

theorem idle_boot (procs : List (ℕ × List (ℕ × ℕ))) (refs : ℕ → ℕ) : (boot procs refs).Idle := by
  refine ⟨fun _ => rfl, fun _ => rfl, fun e he => ?_, fun g hg => by cases hg⟩
  obtain ⟨e', -, rfl⟩ := mem_map.mp he
  rfl

theorem Idle.marked_exec (h : s.Idle) {op : SegOp} (hNot : ¬s.Asks op)
    (hMarked : ∀ g ∈ s.made, g.marked = false) : ∀ g ∈ (s.exec op).made, g.marked = false := by
  have hSame : (s.exec op).made = s.made → ∀ g ∈ (s.exec op).made, g.marked = false := by
    intro hEq
    rw [hEq]
    exact hMarked
  have hPut : ∀ (r : Segs) (sp : Space), sp.pages = [] → (r.vmmPut sp).made = r.made := by
    intro r sp hPages
    unfold Segs.vmmPut
    rw [hPages]
    rfl
  cases op with
  | shmget a alloc =>
    show ∀ g ∈ (s.shmget a alloc).made, g.marked = false
    rcases s.shmget_made a alloc with hEq | ⟨g, hNew, -, -, hFresh⟩
    · rw [hEq]
      exact hMarked
    · rw [hNew]
      intro g' hg'
      rcases mem_cons.mp hg' with rfl | hOld
      · exact hFresh
      · exact hMarked g' hOld
  | shmat p id uaddr rdonly rnd mem =>
    refine hSame ?_
    show (s.shmat p id uaddr rdonly rnd mem).2.made = _
    unfold shmat
    rw [h.vacant.at?]
  | shmdt p uaddr =>
    refine hSame ?_
    show (s.shmdt p uaddr).2.made = _
    rw [h.shmdt]
  | rmid p id =>
    show ∀ g ∈ (s.shmctlRmid p id).2.made, g.marked = false
    rw [h.rmid]
    intro g hg
    obtain ⟨g', hg', rfl⟩ := mem_map.mp hg
    rw [if_neg fun hAsked => hNot ⟨g', hg', hAsked⟩]
    exact hMarked g' hg'
  | fork parent child mem =>
    refine hSame ?_
    show (s.fork parent child mem).2.made = _
    unfold Segs.fork
    split
    · split <;> rfl
    · rfl
  | execve pid =>
    refine hSame ?_
    show (s.execve pid).made = _
    unfold Segs.execve
    rw [h.shmDetachAll]
    dsimp only
    split
    · rfl
    · rename_i sp hSpace
      exact hPut _ sp (h.space hSpace)
  | exit pid =>
    refine hSame ?_
    show (s.exit pid).made = _
    unfold Segs.exit
    rw [h.shmDetachAll]
    dsimp only
    split
    · rfl
    · rename_i sp hSpace
      exact hPut _ sp (h.space hSpace)

theorem Idle.kept (h : s.Idle) (hMarked : ∀ g ∈ s.made, g.marked = false) : s.Kept := by
  refine ⟨fun i _ => ?_, fun parent child sp hParent _ hHolds => ?_, fun g hg hReturned => ?_,
    fun g hg hAsked => ?_⟩
  · rw [h.nattch, filter_eq_nil_iff.mpr fun e he => by rw [h.unheld (s.frames i) e he]; simp]
    rfl
  · obtain ⟨g, -, hHolds⟩ := hHolds
    unfold Space.holds at hHolds
    rw [h.space hParent] at hHolds
    cases hHolds
  · exact absurd (h.made g hg).1 hReturned
  · rw [hMarked g hg] at hAsked
    cases hAsked

theorem Idle.not_kept (h : s.Idle) {op : SegOp} (hAsks : s.Asks op) : ¬(s.exec op).Kept := by
  cases op with
  | rmid p id =>
    obtain ⟨g, hg, hAsked⟩ := hAsks
    intro hKept
    have hIdle := h.exec (.rmid p id)
    have hMem : { g with marked := true } ∈ (s.exec (.rmid p id)).made := by
      show _ ∈ (s.shmctlRmid p id).2.made
      rw [h.rmid]
      exact mem_map.mpr ⟨g, hg, if_pos hAsked⟩
    have hPerm := hKept.once _ hMem rfl (hIdle.unheld _)
    rw [(hIdle.made _ hMem).1] at hPerm
    exact (hIdle.made _ hMem).2 (nil_perm.mp hPerm)
  | _ => exact absurd hAsks (by simp [Asks])

/-- Segments are kept as they must be throughout a run exactly when `IPC_RMID` is never called on
one of them. -/
theorem segments_kept_iff (procs : List (ℕ × List (ℕ × ℕ))) (refs : ℕ → ℕ) (ops : List SegOp) :
    (∀ n ≤ ops.length, Kept ((ops.take n).foldl exec (boot procs refs))) ↔
      ∀ as op bs, ops = as ++ op :: bs → ¬(as.foldl exec (boot procs refs)).Asks op := by
  constructor
  · rintro hKept as op bs rfl hAsks
    have hNow := hKept (as.length + 1) (by simp)
    rw [take_length_add_append, take_succ_cons, take_zero, foldl_append, foldl_cons,
      foldl_nil] at hNow
    exact ((idle_boot procs refs).foldl as).not_kept hAsks hNow
  · intro hNone n hn
    refine ((idle_boot procs refs).foldl _).kept ?_
    -- By induction on the run: a step that asks for nothing marks nothing.
    induction n with
    | zero => exact fun g hg => by cases hg
    | succ n ih =>
      have hSplit : ops = ops.take n ++ ops[n] :: ops.drop (n + 1) := by
        rw [← drop_eq_getElem_cons hn, take_append_drop]
      have hTake : ops.take (n + 1) = ops.take n ++ [ops[n]] := take_succ_eq_append_getElem hn
      rw [hTake, foldl_append, foldl_cons, foldl_nil]
      exact ((idle_boot procs refs).foldl _).marked_exec (hNone _ _ _ hSplit) (ih (by omega))

/-- A segment of one page is made and removed by `root`. -/
def madeAndRemoved : List SegOp :=
  [.shmget ⟨⟨1, 0, 0⟩, 0, true, false, 0, 4096, true⟩ fun i => 7 + i, .rmid ⟨1, 0, 0⟩ 0]

/-- Its frame is not given back. -/
theorem frame_never_returned :
    (madeAndRemoved.foldl exec (boot [(1, [])] fun _ => 0)).made = [⟨0, {}, [7], true, []⟩] ∧
      ¬(madeAndRemoved.foldl exec (boot [(1, [])] fun _ => 0)).Kept := by
  have hMade : (madeAndRemoved.foldl exec (boot [(1, [])] fun _ => 0)).made =
      [⟨0, {}, [7], true, []⟩] := by decide +kernel
  refine ⟨hMade, fun hKept => ?_⟩
  have hIdle := (idle_boot [(1, [])] fun _ => 0).foldl madeAndRemoved
  have hPerm := hKept.once _ (hMade ▸ mem_singleton_self _) rfl (hIdle.unheld _)
  exact absurd (nil_perm.mp hPerm) (by decide)

end Segs

end Gnos.Ipc
