import Gnos.Ipc.Model

/-! The identifiers of System V objects: `sysv_msgget`, `sysv_semget`, `sysv_shmget` and the
`IPC_RMID` and `IPC_SET` of the three `ctl` calls.  The slot that `msgq_alloc_slot` or a sibling
marks as used and gives a sequence number is cleared by the `memset` of the caller. -/

namespace Gnos.Ipc

open Function List

inductive Kind where
  | msg | sem | shm
  deriving DecidableEq

/-- The fields of `msgq_t`, `ksem_set_t` and `kshm_t` that decide about identifiers.  `size` is
`nsems` or `segsz`; `obj` numbers the object that the slot was last made for. -/
structure Slot where
  used : Bool := false
  seq : ℕ := 0
  key : ℤ := 0
  perm : Perm := {}
  size : ℤ := 0
  destroy : Bool := false
  nattch : ℤ := 0
  obj : ℕ := 0
  deriving DecidableEq

/-- An object that was made: its identifier, and whether `IPC_RMID` has removed it. -/
structure Object where
  id : ℕ
  no : ℕ
  removed : Bool := false
  deriving DecidableEq

/-- A table with its sequence counter, and the objects made so far. -/
structure Table where
  slots : ℕ → Slot
  sSeq : ℕ
  objs : List Object

namespace Table

def setSlot (t : Table) (i : ℕ) (s : Slot) : Table := { t with slots := update t.slots i s }

/-- `msgq_at` and its siblings: the slot of an identifier. -/
def at? (max : ℕ) (t : Table) (id : ℤ) : Option ℕ :=
  let slot := (id % 2 ^ idShift).toNat
  if max ≤ slot ∨ (t.slots slot).used = false then none
  else if id / 2 ^ idShift ≠ (t.slots slot).seq then none
  else some slot

/-- `msgq_alloc_slot` and its siblings. -/
def allocSlot (max : ℕ) (t : Table) : Option ℕ × Table :=
  match (List.range max).find? fun i => !(t.slots i).used with
  | none => (none, t)
  | some i =>
    let seq := (t.sSeq + 1) % 2 ^ 16
    (some i, { t.setSlot i { t.slots i with used := true, seq := seq } with sSeq := seq })

/-- The first object of a key; `IPC_PRIVATE` matches none. -/
def findKey (max : ℕ) (t : Table) (key : ℤ) : Option ℕ :=
  (List.range max).find? fun i => (t.slots i).used && key ≠ 0 && (t.slots i).key = key

end Table

/-- What a `get` call asks for; `size` is the number of semaphores or the size of the segment. -/
structure GetArgs where
  caller : Caller
  key : ℤ
  creat : Bool
  excl : Bool
  mode : ℕ
  size : ℤ
  /-- Whether the allocations of the call succeed. -/
  mem : Bool

/-- How the kinds differ: the number of slots, whether a request fits an object, whether an object
can be made of the size asked for, and the size it then has. -/
structure Family where
  max : ℕ
  fits : ℤ → Slot → Bool
  valid : ℤ → Bool
  round : ℤ → ℤ
  allocates : Bool

namespace Table

/-- `memset` and the fields that are set after it. -/
def fill (f : Family) (t : Table) (i : ℕ) (a : GetArgs) : Table :=
  t.setSlot i {
    key := a.key
    perm := {
      mode := a.mode % 2 ^ 9
      uid := a.caller.euid
      cuid := a.caller.euid
      gid := a.caller.egid
      cgid := a.caller.egid }
    size := f.round a.size
    obj := t.objs.length }

def note (t : Table) (o : Object) : Table := { t with objs := t.objs ++ [o] }

/-- `sysv_msgget` and its siblings. -/
def get (f : Family) (t : Table) (a : GetArgs) : Except Err ℕ × Table :=
  match t.findKey f.max a.key with
  | some i =>
    if a.creat && a.excl then (.error .exist, t)
    else if permitted a.caller (t.slots i).perm .read = false then (.error .acces, t)
    else if f.fits a.size (t.slots i) = false then (.error .inval, t)
    else (.ok (makeId (t.slots i).seq i), t)
  | none =>
    if a.creat = false then (.error .noent, t)
    else if f.valid a.size = false then (.error .inval, t)
    else
      match t.allocSlot f.max with
      | (none, t) => (.error .nfile, t)
      | (some i, t) =>
        let t := t.fill f i a
        if f.allocates && !a.mem then
          (.error .nomem, t.setSlot i { t.slots i with used := false })
        else
          let id := makeId (t.slots i).seq i
          (.ok id, t.note { id := id, no := t.objs.length })

def retire (t : Table) (i : ℕ) : Table :=
  { t.setSlot i { t.slots i with used := false } with
    objs := t.objs.map fun o => if o.no = (t.slots i).obj then { o with removed := true } else o }

end Table

def msgqMax : ℕ := 128
def semsetMax : ℕ := 128
def semNsemsMax : ℤ := 128
def shmMax : ℕ := 64

def shmMaxBytes : ℤ := 16 * 2 ^ 20

def msgFamily : Family where
  max := msgqMax
  fits := fun _ _ => true
  valid := fun _ => true
  round := fun _ => 0
  allocates := false

def semFamily : Family where
  max := semsetMax
  fits := fun nsems s => nsems ≤ s.size
  valid := fun nsems => 0 < nsems && nsems ≤ semNsemsMax
  round := fun nsems => nsems
  allocates := true

def shmFamily : Family where
  max := shmMax
  fits := fun size s => size ≤ s.size
  valid := fun size => 0 < size && size ≤ shmMaxBytes
  round := fun size => (size + 4095) / 4096 * 4096
  allocates := true

def Kind.family : Kind → Family
  | .msg => msgFamily
  | .sem => semFamily
  | .shm => shmFamily

def sysvMsgget (t : Table) (a : GetArgs) : Except Err ℕ × Table := t.get msgFamily a

def sysvSemget (t : Table) (a : GetArgs) : Except Err ℕ × Table := t.get semFamily a

def sysvShmget (t : Table) (a : GetArgs) : Except Err ℕ × Table := t.get shmFamily a

/-- `IPC_RMID` of `sysv_msgctl`, which asks for no permission. -/
def msgRmid (t : Table) (id : ℤ) : Except Err Unit × Table :=
  match t.at? msgqMax id with
  | none => (.error .inval, t)
  | some i => (.ok (), t.retire i)

def semRmid (t : Table) (p : Caller) (id : ℤ) : Except Err Unit × Table :=
  match t.at? semsetMax id with
  | none => (.error .inval, t)
  | some i =>
    if permitted p (t.slots i).perm .write = false then (.error .acces, t) else (.ok (), t.retire i)

/-- `IPC_RMID` of `sysv_shmctl`: a segment that is attached is only marked. -/
def shmRmid (t : Table) (p : Caller) (id : ℤ) : Except Err Unit × Table :=
  match t.at? shmMax id with
  | none => (.error .inval, t)
  | some i =>
    if permitted p (t.slots i).perm .write = false then (.error .acces, t)
    else
      let t := t.setSlot i { t.slots i with destroy := true }
      (.ok (), if (t.slots i).nattch ≤ 0 then t.retire i else t)

def ipcSet (f : Family) (t : Table) (p : Caller) (id : ℤ) (uid gid mode : ℕ) :
    Except Err Unit × Table :=
  match t.at? f.max id with
  | none => (.error .inval, t)
  | some i =>
    let perm := (t.slots i).perm
    if p.euid ≠ 0 ∧ p.euid ≠ perm.uid ∧ p.euid ≠ perm.cuid then (.error .perm, t)
    else
      (.ok (), t.setSlot i { t.slots i with
        perm := { perm with uid := uid, gid := gid, mode := mode % 2 ^ 9 } })

inductive IdOp where
  | get (k : Kind) (a : GetArgs)
  | rmid (k : Kind) (p : Caller) (id : ℤ)
  | set (k : Kind) (p : Caller) (id : ℤ) (uid gid mode : ℕ)

abbrev Tables := Kind → Table

namespace Tables

def exec (t : Tables) : IdOp → Tables
  | .get .msg a => update t .msg (sysvMsgget (t .msg) a).2
  | .get .sem a => update t .sem (sysvSemget (t .sem) a).2
  | .get .shm a => update t .shm (sysvShmget (t .shm) a).2
  | .rmid .msg _ id => update t .msg (msgRmid (t .msg) id).2
  | .rmid .sem p id => update t .sem (semRmid (t .sem) p id).2
  | .rmid .shm p id => update t .shm (shmRmid (t .shm) p id).2
  | .set k p id uid gid mode => update t k (ipcSet k.family (t k) p id uid gid mode).2

def boot : Tables := fun _ => ⟨fun _ => {}, 0, []⟩

def resolve (t : Tables) (k : Kind) (id : ℕ) : Option ℕ :=
  ((t k).at? k.family.max id).map fun i => ((t k).slots i).obj

/-- The identifier of an object that was not removed resolves to it, that of a removed one to
nothing that was made later, and no two objects that were not removed share one. -/
def Stable (t : Tables) : Prop :=
  ∀ k, (∀ o ∈ (t k).objs, o.removed = false → t.resolve k o.id = some o.no) ∧
    (∀ o ∈ (t k).objs, o.removed → ∀ n, t.resolve k o.id = some n → n ≤ o.no) ∧
    (t k).objs.Pairwise fun o o' => o.removed = false → o'.removed = false → o.id ≠ o'.id

end Tables

/-- A call that makes an object: `IPC_CREAT` with a size that is valid and memory for it. -/
def IdOp.Creates : IdOp → Prop
  | .get k a => a.creat ∧ k.family.valid a.size ∧ (k.family.allocates → a.mem)
  | _ => False

namespace Table

variable {t : Table} {f : Family} {a : GetArgs} {max : ℕ}

def Vacant (t : Table) : Prop := ∀ i, (t.slots i).used = false

section

variable (h : t.Vacant)
include h

theorem Vacant.at? (max : ℕ) (id : ℤ) : t.at? max id = none := by
  exact if_pos (.inr (h _))

theorem Vacant.findKey (max : ℕ) (key : ℤ) : t.findKey max key = none := by
  refine find?_eq_none.mpr fun i _ => ?_
  rw [h i]
  simp

theorem Vacant.setSlot {i : ℕ} {s : Slot} (hs : s.used = false) : (t.setSlot i s).Vacant := by
  intro j
  unfold Table.setSlot
  dsimp only
  rw [update_apply]
  split
  · exact hs
  · exact h j

theorem Vacant.alloc (hMax : 0 < max) (f : Family) (a : GetArgs) :
    ∃ t', t.allocSlot max = (some 0, t') ∧ (t'.fill f 0 a).Vacant ∧ t'.objs = t.objs ∧
      ((t'.fill f 0 a).slots 0).seq = 0 := by
  obtain ⟨n, rfl⟩ : ∃ n, max = n + 1 := ⟨max - 1, by omega⟩
  have hFind : ((range (n + 1)).find? fun i => !(t.slots i).used) = some 0 := by
    rw [range_succ_eq_map, find?_cons_of_pos]
    rw [h 0]
    rfl
  unfold allocSlot
  rw [hFind]
  refine ⟨_, rfl, fun j => ?_, rfl, ?_⟩
  · -- The `memset` takes the mark back that the search has just set.
    unfold fill Table.setSlot
    dsimp only
    rw [update_apply]
    split_ifs with hj
    · rfl
    · rw [update_of_ne hj]
      exact h j
  · unfold fill Table.setSlot
    dsimp only
    rw [update_self]

theorem Vacant.get (hMax : 0 < f.max) : (t.get f a).2.Vacant ∧
      (if a.creat ∧ f.valid a.size ∧ (f.allocates → a.mem) then
        (t.get f a).2.objs = t.objs ++ [{ id := makeId 0 0, no := t.objs.length }]
      else (t.get f a).2.objs = t.objs) := by
  obtain ⟨t', hAlloc, hVacant, hObjs, hSeq⟩ := h.alloc hMax f a
  unfold Table.get
  rw [h.findKey]
  by_cases hCreat : a.creat
  · rw [if_neg (by simp [hCreat])]
    by_cases hValid : f.valid a.size
    · rw [if_neg (by simp [hValid]), hAlloc]
      dsimp only
      by_cases hMem : (f.allocates && !a.mem)
      · rw [if_pos hMem]
        rw [Bool.and_eq_true, Bool.not_eq_true'] at hMem
        rw [if_neg fun hAll => by rw [hAll.2.2 hMem.1] at hMem; cases hMem.2]
        exact ⟨hVacant.setSlot rfl, hObjs⟩
      · rw [if_neg hMem]
        have hHas : f.allocates → a.mem := by
          intro hAllocates
          by_contra hNone
          exact hMem (by simp [hAllocates, hNone])
        rw [if_pos ⟨hCreat, hValid, hHas⟩, hSeq]
        refine ⟨hVacant, ?_⟩
        show t'.objs ++ [_] = _
        have hLength : (t'.fill f 0 a).objs.length = t.objs.length := congrArg length hObjs
        rw [hLength, hObjs]
    · rw [if_pos (by simpa using hValid), if_neg fun hAll => hValid hAll.2.1]
      exact ⟨h, rfl⟩
  · rw [if_pos (by simpa using hCreat), if_neg fun hAll => hCreat hAll.1]
    exact ⟨h, rfl⟩

end

end Table

theorem Kind.max_pos (k : Kind) : 0 < k.family.max := by
  cases k <;> decide

namespace Tables

variable {t : Tables} {k : Kind}

def Vacant (t : Tables) : Prop := ∀ k, (t k).Vacant

theorem Vacant.resolve (h : t.Vacant) (k : Kind) (id : ℕ) : t.resolve k id = none := by
  unfold Tables.resolve
  rw [(h k).at?]
  rfl

theorem Vacant.update (h : t.Vacant) {t' : Table} (hk : t'.Vacant) : Vacant (update t k t') := by
  intro j
  rw [update_apply]
  split
  · exact hk
  · exact h j

theorem exec_get (t : Tables) (k : Kind) (a : GetArgs) :
    t.exec (.get k a) = update t k ((t k).get k.family a).2 := by
  cases k <;> rfl

theorem Vacant.exec_other (h : t.Vacant) {op : IdOp} (hOp : ∀ k a, op ≠ .get k a) :
    t.exec op = t := by
  cases op with
  | get k a => exact absurd rfl (hOp k a)
  | rmid k p id =>
    cases k
    all_goals
      unfold exec
      simp only [msgRmid, semRmid, shmRmid, (h _).at?]
      exact update_eq_self _ t
  | set k p id uid gid mode =>
    unfold exec
    simp only [ipcSet, (h _).at?]
    exact update_eq_self _ t

theorem Vacant.exec (h : t.Vacant) (op : IdOp) : (t.exec op).Vacant := by
  cases op with
  | get k a =>
    rw [exec_get]
    exact h.update ((h k).get k.max_pos).1
  | rmid k p id =>
    rw [h.exec_other (by simp)]
    exact h
  | set k p id uid gid mode =>
    rw [h.exec_other (by simp)]
    exact h

theorem Vacant.foldl (h : t.Vacant) (ops : List IdOp) : (ops.foldl Tables.exec t).Vacant :=
  ops.foldlRecOn _ h fun _ h op _ => h.exec op

theorem vacant_boot : boot.Vacant := fun _ _ => rfl

/-- The slot of an identifier that a `get` call has returned, after any calls since boot. -/
def Fresh (k : Kind) (s : Slot) : Prop :=
  ∃ (ops : List IdOp) (a : GetArgs) (id : ℕ),
    (((ops.foldl exec boot) k).get k.family a).1 = .ok id ∧
    s = (((ops.foldl exec boot) k).get k.family a).2.slots (id % 2 ^ idShift)

theorem Fresh.unused {s : Slot} (h : Fresh k s) : s.used = false := by
  obtain ⟨ops, a, id, -, rfl⟩ := h
  exact ((vacant_boot.foldl ops k).get k.max_pos).1 _

theorem Vacant.objs_exec (h : t.Vacant) (op : IdOp) :
    (op.Creates → ∃ k o, o ∈ ((t.exec op) k).objs ∧ o.removed = false) ∧
      (¬op.Creates → ∀ k, ((t.exec op) k).objs = (t k).objs) := by
  cases op with
  | get k a =>
    have hGet := ((h k).get (a := a) k.max_pos).2
    rw [exec_get]
    constructor
    · intro hCreates
      unfold IdOp.Creates at hCreates
      rw [if_pos hCreates] at hGet
      refine ⟨k, { id := makeId 0 0, no := (t k).objs.length }, ?_, rfl⟩
      rw [update_self, hGet]
      exact mem_append_right _ (mem_singleton_self _)
    · intro hNot j
      unfold IdOp.Creates at hNot
      rw [if_neg hNot] at hGet
      rcases eq_or_ne j k with rfl | hj
      · rw [update_self, hGet]
      · rw [update_of_ne hj]
  | rmid k p id =>
    rw [h.exec_other (by simp)]
    exact ⟨False.elim, fun _ _ => rfl⟩
  | set k p id uid gid mode =>
    rw [h.exec_other (by simp)]
    exact ⟨False.elim, fun _ _ => rfl⟩

theorem objs_foldl (h : t.Vacant) {ops : List IdOp} (hOps : ∀ op ∈ ops, ¬op.Creates) (k : Kind) :
    ((ops.foldl exec t) k).objs = (t k).objs := by
  induction ops generalizing t with
  | nil => rfl
  | cons op ops ih =>
    rw [foldl_cons, ih (h.exec op) fun op' hOp => hOps op' (mem_cons_of_mem _ hOp)]
    exact (h.objs_exec op).2 (hOps op mem_cons_self) k

/-- Identifiers are stable throughout a run exactly when the run makes no object. -/
theorem ids_stable_iff (ops : List IdOp) :
    (∀ n ≤ ops.length, Stable ((ops.take n).foldl exec boot)) ↔ ∀ op ∈ ops, ¬op.Creates := by
  constructor
  · intro hStable op hOp hCreates
    obtain ⟨as, bs, rfl⟩ := append_of_mem hOp
    have hNow := hStable (as.length + 1) (by simp)
    rw [take_length_add_append, take_succ_cons, take_zero, foldl_append, foldl_cons,
      foldl_nil] at hNow
    have hBefore := vacant_boot.foldl as
    obtain ⟨k, o, ho, hLive⟩ := (hBefore.objs_exec op).1 hCreates
    have hResolve := (hNow k).1 o ho hLive
    rw [(hBefore.exec op).resolve] at hResolve
    cases hResolve
  · intro hNone n _ k
    have hObjs : (((ops.take n).foldl exec boot) k).objs = [] :=
      objs_foldl vacant_boot (fun op hOp => hNone op (mem_of_mem_take hOp)) k
    rw [hObjs]
    exact ⟨by simp, by simp, List.Pairwise.nil⟩

/-- The identifier that `sysv_msgget` returns resolves to nothing. -/
theorem msgget_unresolved : ∃ a : GetArgs, a = ⟨⟨1, 0, 0⟩, 0, true, false, 0, 0, true⟩ ∧
      (sysvMsgget (boot .msg) a).1 = .ok 0 ∧
      (boot.exec (.get .msg a)).resolve .msg 0 = none ∧ ¬Stable (boot.exec (.get .msg a)) := by
  refine ⟨_, rfl, by decide +kernel, by decide +kernel, fun hStable => ?_⟩
  have hResolve := (hStable .msg).1 { id := 0, no := 0 } (by decide +kernel) rfl
  revert hResolve
  decide +kernel

end Tables

end Gnos.Ipc
