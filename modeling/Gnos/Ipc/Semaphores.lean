import Gnos.Ipc.Ids
import Gnos.ProofKit.Runs

/-! Semaphores: `sysv_semtimedop`, the settings of `sysv_semctl`, and the adjustments that an exit
rolls back, on one set, by the identifier that `sysv_semget` has returned for it.  A call ends with
one pass of its loop; an array of operations is tried on the values before the call and then applied
in order. -/

namespace Gnos.Ipc

open ProofKit Function List

def int32 (x : ℤ) : ℤ := x.bmod (2 ^ 32)

structure Sem where
  val : ℤ := 0
  pid : ℕ := 0
  ncnt : ℤ := 0
  zcnt : ℤ := 0
  deriving DecidableEq

structure Undo where
  pid : ℕ
  adj : ℕ → ℤ

structure SemSet where
  used : Bool
  perm : Perm
  nsems : ℕ
  sems : ℕ → Sem
  undos : List Undo

/-- `kops_t`; of the flags `IPC_NOWAIT` and `SEM_UNDO` count. -/
structure SemBuf where
  num : ℕ
  op : BitVec 16
  nowait : Bool := false
  undo : Bool := false
  deriving DecidableEq

/-- What `semop_try` returns: `-E_RANGE`, `-E_AGAIN`, 0 and 1. -/
inductive TryResult where
  | range | again | wait | applied
  deriving DecidableEq

inductive SemResult where
  | done
  | err (e : Err)
  | wait
  deriving DecidableEq

/-- The marks of one call: at which semaphores it is counted. -/
abbrev Counted := ℕ → Bool

namespace SemSet

def modify (st : SemSet) (n : ℕ) (f : Sem → Sem) : SemSet :=
  { st with sems := update st.sems n (f (st.sems n)) }

def setUndos (st : SemSet) (us : List Undo) : SemSet := { st with undos := us }

/-- The sleeper is counted at the semaphore of an operation that does not fit. -/
def bump (st : SemSet) (b : SemBuf) : SemSet :=
  st.modify b.num fun s =>
    if b.op.toInt < 0 then { s with ncnt := s.ncnt + 1 }
    else if b.op.toInt = 0 then { s with zcnt := s.zcnt + 1 }
    else s

/-- The first sweep of `semop_try`: whether every operation fits, or nothing for `-E_AGAIN`. -/
def scan : List SemBuf → Bool → SemSet → Counted → Option Bool × SemSet × Counted
  | [], ok, st, counted => (some ok, st, counted)
  | b :: bs, ok, st, counted =>
    if int32 ((st.sems b.num).val + b.op.toInt) < 0 then
      if b.nowait then (none, st, counted)
      else if counted b.num then scan bs false st counted
      else scan bs false (st.bump b) (update counted b.num true)
    else scan bs ok st counted

/-- The process's record gets `op` at semaphore `n` taken off. -/
def adjust (pid n : ℕ) (op : ℤ) : List Undo → List Undo
  | [] => []
  | u :: us =>
    if u.pid = pid then { u with adj := update u.adj n (int32 (u.adj n - op)) } :: us
    else u :: adjust pid n op us

/-- A record for the process, unless it has one or `kmalloc` fails. -/
def ensureUndo (pid : ℕ) (mem : Bool) (us : List Undo) : List Undo :=
  if us.any (·.pid = pid) || !mem then us else ⟨pid, fun _ => 0⟩ :: us

/-- The second sweep for one operation; `mem` is whether `kmalloc` succeeds. -/
def applyOne (p : Caller) (mem : Bool) (st : SemSet) (b : SemBuf) : SemSet :=
  let st := st.modify b.num fun s => { s with val := int32 (s.val + b.op.toInt), pid := p.pid }
  if b.undo then st.setUndos (adjust p.pid b.num b.op.toInt (ensureUndo p.pid mem st.undos)) else st

def uncount (st : SemSet) (counted : Counted) (n : ℕ) : SemSet :=
  if counted n then st.modify n fun s => if 0 < s.ncnt then { s with ncnt := s.ncnt - 1 } else s
  else st

/-- The second sweep of `semop_try`; `mem i` is whether `kmalloc` succeeds at operation `i`. -/
def applyFrom (p : Caller) (mem : ℕ → Bool) : ℕ → List SemBuf → SemSet → Counted → SemSet × Counted
  | _, [], st, counted => (st, counted)
  | i, b :: bs, st, counted =>
    applyFrom p mem (i + 1) bs ((applyOne p (mem i) st b).uncount counted b.num)
      (update counted b.num false)

def semopTry (st : SemSet) (p : Caller) (sops : List SemBuf) (mem : ℕ → Bool) (counted : Counted) :
    TryResult × SemSet × Counted :=
  if sops.any fun b => st.nsems ≤ b.num then (.range, st, counted)
  else
    match scan sops true st counted with
    | (none, st, counted) => (.again, st, counted)
    | (some false, st, counted) => (.wait, st, counted)
    | (some true, st, counted) => (.applied, applyFrom p mem 0 sops st counted)

/-- One pass of the loop of `sysv_semtimedop`, before its deadline. -/
def pass (st : SemSet) (p : Caller) (sops : List SemBuf) (mem : ℕ → Bool) (counted : Counted) :
    SemResult × SemSet × Counted :=
  if st.used = false then (.err .idrm, st, counted)
  else
    match st.semopTry p sops mem counted with
    | (.range, st, counted) => (.err .range, st, counted)
    | (.again, st, counted) => (.err .again, st, counted)
    | (.wait, st, counted) => (.wait, st, counted)
    | (.applied, st, counted) => (.done, st, counted)

def maxSops : ℕ := 128

/-- `sysv_semtimedop` up to the end of its first pass; `semset_at` finds no set that is not in
use. -/
def semtimedop (st : SemSet) (p : Caller) (sops : List SemBuf) (mem : ℕ → Bool) :
    SemResult × SemSet × Counted :=
  if sops = [] ∨ maxSops < sops.length then (.err .inval, st, fun _ => false)
  else if st.used = false then (.err .inval, st, fun _ => false)
  else if permitted p st.perm .write = false then (.err .acces, st, fun _ => false)
  else st.pass p sops mem fun _ => false

def setval (st : SemSet) (p : Caller) (semnum : ℤ) (val : BitVec 32) : SemResult × SemSet :=
  if st.used = false then (.err .inval, st)
  else if semnum < 0 ∨ st.nsems ≤ semnum then (.err .range, st)
  else if permitted p st.perm .write = false then (.err .acces, st)
  else (.done, st.modify semnum.toNat fun s => { s with val := val.toInt, pid := 0 })

def assign (st : SemSet) (arr : ℕ → BitVec 16) : SemSet :=
  { st with
    sems := fun n =>
      if n < st.nsems then { st.sems n with val := (arr n).toNat, pid := 0 } else st.sems n }

def setall (st : SemSet) (p : Caller) (arr : ℕ → BitVec 16) : SemResult × SemSet :=
  if st.used = false then (.err .inval, st)
  else if permitted p st.perm .write = false then (.err .acces, st)
  else (.done, st.assign arr)

/-- The inner loop of `sem_undo_all`: the adjustments of one record. -/
def payBack (st : SemSet) (u : Undo) : SemSet :=
  { st with
    sems := fun n =>
      if n < st.nsems ∧ u.adj n ≠ 0 then { st.sems n with val := int32 ((st.sems n).val + u.adj n) }
      else st.sems n }

def semUndoAll (st : SemSet) (pid : ℕ) : SemSet :=
  if st.used then
    ((st.undos.filter (·.pid = pid)).foldl payBack st).setUndos (st.undos.filter (·.pid ≠ pid))
  else st

end SemSet

/-- `SEMVMX`: the largest value of a semaphore. -/
def semvmx : ℤ := 32767

/-- An operation may proceed on a value: 0 on 0 only, a negative one on at least its magnitude, and
none beyond the largest value. -/
def Allowed (v op : ℤ) : Prop := (op = 0 → v = 0) ∧ 0 ≤ v + op ∧ v + op ≤ semvmx

instance (v op : ℤ) : Decidable (Allowed v op) := inferInstanceAs (Decidable (_ ∧ _))

namespace Sops

def stepVals (v : ℕ → ℤ) (b : SemBuf) : ℕ → ℤ := update v b.num (v b.num + b.op.toInt)

/-- Every operation may proceed where its turn comes. -/
def InOrder : (ℕ → ℤ) → List SemBuf → Prop
  | _, [] => True
  | v, b :: bs => Allowed (v b.num) b.op.toInt ∧ InOrder (stepVals v b) bs

instance InOrder.instDecidable : (v : ℕ → ℤ) → (bs : List SemBuf) → Decidable (InOrder v bs)
  | _, [] => inferInstanceAs (Decidable True)
  | v, b :: bs =>
    have := InOrder.instDecidable (stepVals v b) bs
    inferInstanceAs (Decidable (_ ∧ _))

def after (v : ℕ → ℤ) (sops : List SemBuf) : ℕ → ℤ := sops.foldl stepVals v

/-- What a call that is applied adds to the debts of its process: the opposite of its operations
with `SEM_UNDO`. -/
def debt (d : ℕ → ℤ) (sops : List SemBuf) : ℕ → ℤ :=
  sops.foldl (fun d b => if b.undo then update d b.num (d b.num - b.op.toInt) else d) d

end Sops

namespace SemSet

def vals (st : SemSet) (n : ℕ) : ℤ := (st.sems n).val

def adjOf (st : SemSet) (pid n : ℕ) : ℤ :=
  match st.undos.find? (·.pid = pid) with
  | some u => u.adj n
  | none => 0

end SemSet

inductive SemOp where
  | semop (p : Caller) (sops : List SemBuf) (mem : ℕ → Bool)
  | retry (p : Caller) (sops : List SemBuf) (mem : ℕ → Bool) (counted : Counted)
  | setval (p : Caller) (semnum : ℤ) (val : BitVec 32)
  | setall (p : Caller) (arr : ℕ → BitVec 16)
  | exit (pid : ℕ)

structure SemTrack where
  st : SemSet
  owed : ℕ → ℕ → ℤ

namespace SemTrack

/-- The state after a pass: a process owes more only when its operations were applied. -/
def settle (t : SemTrack) (p : Caller) (sops : List SemBuf) (r : SemResult × SemSet × Counted) :
    SemTrack where
  st := r.2.1
  owed := if r.1 = .done then update t.owed p.pid (Sops.debt (t.owed p.pid) sops) else t.owed

def exec (t : SemTrack) : SemOp → SemTrack
  | .semop p sops mem => t.settle p sops (t.st.semtimedop p sops mem)
  | .retry p sops mem counted => t.settle p sops (t.st.pass p sops mem counted)
  | .setval p semnum val => { t with st := (t.st.setval p semnum val).2 }
  | .setall p arr => { t with st := (t.st.setall p arr).2 }
  | .exit pid => ⟨t.st.semUndoAll pid, update t.owed pid fun _ => 0⟩

end SemTrack

namespace SemSet

/-- The errors that the arguments of a call, its permission or the removal of the set explain. -/
def Refuses (st : SemSet) (p : Caller) (sops : List SemBuf) : Err → Prop
  | .inval => sops = [] ∨ maxSops < sops.length
  | .acces => permitted p st.perm .write = false
  | .range => ∃ b ∈ sops, st.nsems ≤ b.num
  | .idrm => st.used = false
  | _ => False

/-- A call that is not applied waits or gives up with `EAGAIN`, unless it is refused. -/
def Declines (st : SemSet) (p : Caller) (sops : List SemBuf) (r : SemResult) : Prop :=
  r = .wait ∨ r = .err .again ∨ ∃ e, r = .err e ∧ st.Refuses p sops e

/-- Operations that each fit the values before the call also fit where their turn comes, and there
is memory for the record. -/
def SoundOps (st : SemSet) (p : Caller) (sops : List SemBuf) (mem : ℕ → Bool) : Prop :=
  (∀ b ∈ sops, b.num < st.nsems ∧ 0 ≤ st.vals b.num + b.op.toInt) → Sops.InOrder st.vals sops ∧
      ((∃ u ∈ st.undos, u.pid = p.pid) ∨ ∀ i < sops.length, mem i)

end SemSet

/-- The condition on one call, in the state before it.  What an exiting process owes leaves every
value in its range. -/
def SemTrack.Sound (t : SemTrack) : SemOp → Prop
  | .semop p sops mem => t.st.SoundOps p sops mem
  | .retry p sops mem _ => t.st.SoundOps p sops mem
  | .setval _ _ val => 0 ≤ val.toInt ∧ val.toInt ≤ semvmx
  | .setall _ arr => ∀ n < t.st.nsems, (arr n).toNat ≤ semvmx
  | .exit pid =>
    ∀ n < t.st.nsems, 0 ≤ t.st.vals n + t.owed pid n ∧ t.st.vals n + t.owed pid n ≤ semvmx

instance (t : SemTrack) : (op : SemOp) → Decidable (t.Sound op)
  | .semop .. => inferInstanceAs (Decidable ((∀ b ∈ _, _) → _ ∧ _))
  | .retry .. => inferInstanceAs (Decidable ((∀ b ∈ _, _) → _ ∧ _))
  | .setval .. => inferInstanceAs (Decidable (_ ∧ _))
  | .setall .. => inferInstanceAs (Decidable (∀ n < t.st.nsems, _))
  | .exit _ => inferInstanceAs (Decidable (∀ n < t.st.nsems, _))

namespace SemTrack

/-- What `sysv_semget` leaves in a set, but for what the slot says: all values are 0 and nobody owes
anything. -/
def ofSlot (used : Bool) (perm : Perm) (nsems : ℕ) : SemTrack where
  st := { used := used, perm := perm, nsems := nsems, sems := fun _ => {}, undos := [] }
  owed := fun _ _ => 0

/-- A set that `sysv_semget` has made. -/
def Made (t : SemTrack) : Prop := ∃ s, Tables.Fresh .sem s ∧ t = ofSlot s.used s.perm s.size.toNat

/-- A set whose values are 0, in use or not. -/
def Start (t : SemTrack) : Prop := ∃ used perm nsems, t = ofSlot used perm nsems

/-- The states that sound calls reach on a set in use. -/
def Reached : SemTrack → Prop := Reaches Start (fun t op => t.st.used ∧ t.Sound op) exec

def InRange (t : SemTrack) : Prop := ∀ n < t.st.nsems, 0 ≤ t.st.vals n ∧ t.st.vals n ≤ semvmx

/-- A pass applied all its operations in order and recorded them, or it changed no value and no
record and waits. -/
def Atomic (t : SemTrack) (p : Caller) (sops : List SemBuf) (r : SemResult × SemSet × Counted) :
    Prop :=
  (r.1 = .done ∧ Sops.InOrder t.st.vals sops ∧ r.2.1.vals = Sops.after t.st.vals sops ∧
    (∀ n, r.2.1.adjOf p.pid n = int32 (Sops.debt (t.owed p.pid) sops n)) ∧
    ∀ q n, q ≠ p.pid → r.2.1.adjOf q n = t.st.adjOf q n) ∨
  (t.st.Declines p sops r.1 ∧ r.2.1.vals = t.st.vals ∧ r.2.1.undos = t.st.undos)

/-- A call is atomic, and an exit pays back exactly what the process owes. -/
def Keeps (t : SemTrack) : SemOp → Prop
  | .semop p sops mem => t.Atomic p sops (t.st.semtimedop p sops mem)
  | .retry p sops mem counted => t.Atomic p sops (t.st.pass p sops mem counted)
  | .setval .. => True
  | .setall .. => True
  | .exit pid => (∀ n < t.st.nsems, (t.st.semUndoAll pid).vals n = t.st.vals n + t.owed pid n ∧
      0 ≤ (t.st.semUndoAll pid).vals n) ∧ ∀ n, (t.st.semUndoAll pid).adjOf pid n = 0

end SemTrack

theorem int32_of_range {x : ℤ} (hLow : -2147483648 ≤ x) (hHigh : x ≤ 2147483647) : int32 x = x := by
  unfold int32
  rw [Int.bmod_eq_of_le] <;> omega

theorem int32_add_int32 (x y : ℤ) : int32 (x + int32 y) = int32 (x + y) := by
  exact Int.add_bmod_bmod

theorem int32_int32_sub (x y : ℤ) : int32 (int32 x - y) = int32 (x - y) := by
  exact Int.bmod_sub_bmod

theorem op_range (op : BitVec 16) : -32768 ≤ op.toInt ∧ op.toInt ≤ 32767 := by
  have hLow := BitVec.le_toInt op
  have hHigh := BitVec.toInt_lt (x := op)
  omega

namespace Undos

variable {us : List Undo} {pid : ℕ}

def look (us : List Undo) (pid n : ℕ) : ℤ :=
  match us.find? (·.pid = pid) with
  | some u => u.adj n
  | none => 0

theorem look_cons (u : Undo) (us : List Undo) (pid n : ℕ) :
    look (u :: us) pid n = if u.pid = pid then u.adj n else look us pid n := by
  unfold look
  by_cases hu : u.pid = pid
  · rw [find?_cons_of_pos (by simpa using hu), if_pos hu]
  · rw [find?_cons_of_neg (by simpa using hu), if_neg hu]

theorem look_of_notMem (h : ∀ u ∈ us, u.pid ≠ pid) (n : ℕ) : look us pid n = 0 := by
  unfold look
  rw [find?_eq_none.mpr fun u hu => by simpa using h u hu]

theorem pids_adjust (pid n : ℕ) (op : ℤ) (us : List Undo) :
    (SemSet.adjust pid n op us).map (·.pid) = us.map (·.pid) := by
  induction us with
  | nil => rfl
  | cons u us ih =>
    unfold SemSet.adjust
    split
    · rfl
    · rw [map_cons, map_cons, ih]

theorem look_adjust (h : ∃ u ∈ us, u.pid = pid) (m : ℕ) (op : ℤ) (q n : ℕ) :
    look (SemSet.adjust pid m op us) q n =
      if q = pid ∧ n = m then int32 (look us pid m - op) else look us q n := by
  induction us with
  | nil =>
    obtain ⟨u, hu, -⟩ := h
    cases hu
  | cons u us ih =>
    unfold SemSet.adjust
    by_cases hu : u.pid = pid
    · rw [if_pos hu, look_cons, look_cons, look_cons, if_pos hu]
      dsimp only
      rw [hu]
      by_cases hq : q = pid
      · rw [if_pos hq.symm, update_apply]
        by_cases hn : n = m
        · rw [if_pos hn, if_pos ⟨hq, hn⟩]
        · rw [if_neg hn, if_neg fun hBoth => hn hBoth.2, if_pos hq.symm]
      · rw [if_neg fun hEq => hq hEq.symm, if_neg fun hBoth => hq hBoth.1,
          if_neg fun hEq => hq hEq.symm]
    · have hRest : ∃ u ∈ us, u.pid = pid := by
        obtain ⟨v, hv, hPid⟩ := h
        rcases mem_cons.mp hv with rfl | hv
        · exact absurd hPid hu
        · exact ⟨v, hv, hPid⟩
      rw [if_neg hu, look_cons, look_cons, look_cons, if_neg hu, ih hRest]
      by_cases hq : u.pid = q
      · have hne : ¬(q = pid ∧ n = m) := fun hBoth => hu (hq.trans hBoth.1)
        rw [if_pos hq, if_neg hne, if_pos hq]
      · rw [if_neg hq, if_neg hq]

theorem look_ensureUndo (pid : ℕ) (mem : Bool) (us : List Undo) (q n : ℕ) :
    look (SemSet.ensureUndo pid mem us) q n = look us q n := by
  unfold SemSet.ensureUndo
  split_ifs with hNew
  · rfl
  · rw [Bool.or_eq_true, not_or, any_eq_true] at hNew
    rw [look_cons]
    by_cases hq : pid = q
    · rw [if_pos hq, look_of_notMem]
      intro u hu hPid
      exact hNew.1 ⟨u, hu, by simpa using hPid.trans hq.symm⟩
    · rw [if_neg hq]

theorem mem_ensureUndo {mem : Bool} (h : (∃ u ∈ us, u.pid = pid) ∨ mem) :
    ∃ u ∈ SemSet.ensureUndo pid mem us, u.pid = pid := by
  unfold SemSet.ensureUndo
  split_ifs with hOld
  · rcases h with h | h
    · exact h
    · rw [h, Bool.or_eq_true, any_eq_true] at hOld
      rcases hOld with ⟨u, hu, hPid⟩ | hFalse
      · exact ⟨u, hu, by simpa using hPid⟩
      · cases hFalse
  · exact ⟨_, mem_cons_self, rfl⟩

theorem nodup_ensureUndo (h : (us.map (·.pid)).Nodup) (pid : ℕ) (mem : Bool) :
    ((SemSet.ensureUndo pid mem us).map (·.pid)).Nodup := by
  unfold SemSet.ensureUndo
  split_ifs with hNew
  · exact h
  · rw [Bool.or_eq_true, not_or, any_eq_true] at hNew
    rw [map_cons, nodup_cons]
    refine ⟨fun hMem => ?_, h⟩
    obtain ⟨u, hu, hPid⟩ := mem_map.mp hMem
    exact hNew.1 ⟨u, hu, by simpa using hPid⟩

theorem filter_pid (h : (us.map (·.pid)).Nodup) (pid : ℕ) :
    us.filter (·.pid = pid) = (us.find? (·.pid = pid)).toList := by
  induction us with
  | nil => rfl
  | cons u us ih =>
    rw [map_cons, nodup_cons] at h
    by_cases hu : u.pid = pid
    · have hNone : us.filter (·.pid = pid) = [] := by
        refine filter_eq_nil_iff.mpr fun v hv hPid => h.1 ?_
        rw [hu]
        exact mem_map.mpr ⟨v, hv, by simpa using hPid⟩
      rw [filter_cons_of_pos (by simpa using hu), find?_cons_of_pos (by simpa using hu), hNone]
      rfl
    · rw [filter_cons_of_neg (by simpa using hu), find?_cons_of_neg (by simpa using hu), ih h.2]

theorem look_filter_ne (us : List Undo) (pid q n : ℕ) :
    look (us.filter (·.pid ≠ pid)) q n = if q = pid then 0 else look us q n := by
  induction us with
  | nil =>
    split <;> rfl
  | cons u us ih =>
    by_cases hu : u.pid = pid
    · rw [filter_cons_of_neg (by simpa using hu), ih, look_cons]
      by_cases hq : q = pid
      · rw [if_pos hq, if_pos hq]
      · rw [if_neg hq, if_neg hq, if_neg fun hEq => hq (hEq.symm.trans hu)]
    · rw [filter_cons_of_pos (by simpa using hu), look_cons, look_cons, ih]
      by_cases hq : u.pid = q
      · rw [if_pos hq, if_pos hq, if_neg fun hEq => hu (hq.trans hEq)]
      · rw [if_neg hq, if_neg hq]

end Undos

namespace SemSet

variable {st st' : SemSet} {p : Caller} {mem : ℕ → Bool} {counted : Counted} {bs : List SemBuf}

structure Quiet (st st' : SemSet) : Prop where
  vals : st'.vals = st.vals
  undos : st'.undos = st.undos
  nsems : st'.nsems = st.nsems

theorem Quiet.refl (st : SemSet) : Quiet st st := ⟨rfl, rfl, rfl⟩

theorem Quiet.trans {st'' : SemSet} (h : Quiet st st') (h' : Quiet st' st'') : Quiet st st'' :=
  ⟨h'.vals.trans h.vals, h'.undos.trans h.undos, h'.nsems.trans h.nsems⟩

section

variable (st)

theorem vals_modify (n : ℕ) (f : Sem → Sem) :
    (st.modify n f).vals = update st.vals n (f (st.sems n)).val :=
  comp_update Sem.val st.sems n _

theorem quiet_modify {n : ℕ} {f : Sem → Sem} (hf : ∀ s, (f s).val = s.val) :
    Quiet st (st.modify n f) := by
  refine ⟨?_, rfl, rfl⟩
  rw [vals_modify, hf]
  exact update_eq_self n st.vals

theorem quiet_bump (b : SemBuf) : Quiet st (st.bump b) := by
  refine quiet_modify st fun s => ?_
  split
  · rfl
  · split <;> rfl

theorem quiet_uncount (counted : Counted) (n : ℕ) : Quiet st (st.uncount counted n) := by
  unfold uncount
  split
  · refine quiet_modify st fun s => ?_
    split <;> rfl
  · exact .refl st

end

theorem quiet_scan (bs : List SemBuf) (ok : Bool) (st : SemSet) (counted : Counted) :
    Quiet st (scan bs ok st counted).2.1 := by
  induction bs generalizing ok st counted with
  | nil => exact .refl st
  | cons b bs ih =>
    unfold scan
    split
    · split
      · exact .refl st
      · split
        · exact ih _ _ _
        · exact (quiet_bump st b).trans (ih _ _ _)
    · exact ih _ _ _

theorem scan_true {ok : Bool} (h : (scan bs ok st counted).1 = some true) :
    ok ∧ scan bs ok st counted = (some true, st, counted) ∧
      ∀ b ∈ bs, 0 ≤ int32 (st.vals b.num + b.op.toInt) := by
  induction bs generalizing ok st counted with
  | nil =>
    obtain rfl : ok := Option.some.inj h
    exact ⟨rfl, rfl, by simp⟩
  | cons b bs ih =>
    unfold scan at h ⊢
    split at h
    · split at h
      · cases h
      · split at h
        · cases (ih h).1
        · cases (ih h).1
    · rename_i hFits
      obtain ⟨hOk, hScan, hRest⟩ := ih h
      rw [if_neg hFits]
      refine ⟨hOk, hScan, fun c hc => ?_⟩
      rcases mem_cons.mp hc with rfl | hc
      · exact Int.not_lt.mp hFits
      · exact hRest c hc

theorem adjOf_eq (st : SemSet) (pid n : ℕ) : st.adjOf pid n = Undos.look st.undos pid n := rfl

theorem applyOne_vals (b : SemBuf) (m : Bool) (h : Allowed (st.vals b.num) b.op.toInt) :
    (applyOne p m st b).vals = Sops.stepVals st.vals b := by
  have hVals : (applyOne p m st b).vals =
      update st.vals b.num (int32 (st.vals b.num + b.op.toInt)) := by
    have hModify := vals_modify st b.num fun s =>
      { s with val := int32 (s.val + b.op.toInt), pid := p.pid }
    unfold applyOne
    split <;> exact hModify
  obtain ⟨-, hLow, hHigh⟩ := h
  unfold semvmx at hHigh
  rw [hVals, int32_of_range (by omega) (by omega)]
  rfl

theorem applyOne_nsems (b : SemBuf) (m : Bool) : (applyOne p m st b).nsems = st.nsems := by
  unfold applyOne
  split <;> rfl

theorem applyOne_undos (b : SemBuf) {m : Bool} (hUnique : (st.undos.map (·.pid)).Nodup)
    (hRecord : (∃ u ∈ st.undos, u.pid = p.pid) ∨ m) :
    ((applyOne p m st b).undos.map (·.pid)).Nodup ∧
      (∀ q n, (applyOne p m st b).adjOf q n =
        if b.undo ∧ q = p.pid ∧ n = b.num then int32 (st.adjOf p.pid b.num - b.op.toInt)
        else st.adjOf q n) ∧
      ((∃ u ∈ st.undos, u.pid = p.pid) → ∃ u ∈ (applyOne p m st b).undos, u.pid = p.pid) := by
  unfold applyOne
  by_cases hUndo : b.undo
  · rw [if_pos hUndo]
    have hEnsure := Undos.mem_ensureUndo hRecord
    have hPids := Undos.pids_adjust p.pid b.num b.op.toInt (ensureUndo p.pid m st.undos)
    refine ⟨?_, ?_, fun _ => ?_⟩
    · show ((adjust p.pid b.num b.op.toInt (ensureUndo p.pid m st.undos)).map (·.pid)).Nodup
      rw [hPids]
      exact Undos.nodup_ensureUndo hUnique p.pid m
    · intro q n
      show Undos.look (adjust p.pid b.num b.op.toInt (ensureUndo p.pid m st.undos)) q n = _
      rw [Undos.look_adjust hEnsure, Undos.look_ensureUndo, Undos.look_ensureUndo]
      simp only [hUndo, true_and]
      rfl
    · obtain ⟨u, hu, hPid⟩ := hEnsure
      have hMem : p.pid ∈ (ensureUndo p.pid m st.undos).map (·.pid) := mem_map.mpr ⟨u, hu, hPid⟩
      rw [← hPids] at hMem
      exact mem_map.mp hMem
  · rw [if_neg hUndo]
    refine ⟨hUnique, fun q n => ?_, fun h => h⟩
    rw [if_neg fun hAll => hUndo hAll.1]
    rfl

theorem applyFrom_vals {i : ℕ} (h : Sops.InOrder st.vals bs) :
    let st' := (applyFrom p mem i bs st counted).1
    st'.vals = Sops.after st.vals bs ∧ st'.nsems = st.nsems := by
  induction bs generalizing i st counted with
  | nil => exact ⟨rfl, rfl⟩
  | cons b bs ih =>
    obtain ⟨hAllowed, hRest⟩ := h
    have hOne := applyOne_vals (p := p) b (mem i) hAllowed
    have hQuiet := quiet_uncount (applyOne p (mem i) st b) counted b.num
    have hNsems := @applyOne_nsems st p b (mem i)
    have hVals : ((applyOne p (mem i) st b).uncount counted b.num).vals = Sops.stepVals st.vals b :=
      hQuiet.vals.trans hOne
    rw [← hVals] at hRest
    obtain ⟨hAfter, hNsems'⟩ := @ih _ (update counted b.num false) (i + 1) hRest
    refine ⟨?_, hNsems'.trans (hQuiet.nsems.trans hNsems)⟩
    rw [hVals] at hAfter
    exact hAfter

theorem applyFrom_undos {i : ℕ} {d : ℕ → ℤ} (hUnique : (st.undos.map (·.pid)).Nodup)
    (hRecord : (∃ u ∈ st.undos, u.pid = p.pid) ∨ ∀ j < bs.length, mem (i + j))
    (hOwed : ∀ n, st.adjOf p.pid n = int32 (d n)) :
    let st' := (applyFrom p mem i bs st counted).1
    (st'.undos.map (·.pid)).Nodup ∧ (∀ n, st'.adjOf p.pid n = int32 (Sops.debt d bs n)) ∧
      ∀ q n, q ≠ p.pid → st'.adjOf q n = st.adjOf q n := by
  induction bs generalizing i st counted d with
  | nil => exact ⟨hUnique, hOwed, fun _ _ _ => rfl⟩
  | cons b bs ih =>
    have hOneRecord : (∃ u ∈ st.undos, u.pid = p.pid) ∨ mem i :=
      hRecord.imp_right fun hMem => hMem 0 (Nat.succ_pos _)
    obtain ⟨hUnique', hAdj, hStays⟩ := applyOne_undos b hUnique hOneRecord
    have hQuiet := quiet_uncount (applyOne p (mem i) st b) counted b.num
    unfold applyFrom
    generalize applyOne p (mem i) st b = s1 at hUnique' hAdj hStays hQuiet ⊢
    have hLook : ∀ q n, (s1.uncount counted b.num).adjOf q n = s1.adjOf q n := by
      intro q n
      rw [adjOf_eq, hQuiet.undos, ← adjOf_eq]
    have hRecord' : (∃ u ∈ (s1.uncount counted b.num).undos, u.pid = p.pid) ∨
        ∀ j < bs.length, mem (i + 1 + j) := by
      rw [hQuiet.undos]
      refine hRecord.imp hStays fun hMem j hj => ?_
      have hNext := hMem (j + 1) (Nat.succ_lt_succ hj)
      rwa [show i + 1 + j = i + (j + 1) by omega]
    have hOwed' : ∀ n, (s1.uncount counted b.num).adjOf p.pid n = int32
        ((if b.undo then update d b.num (d b.num - b.op.toInt) else d) n) := by
      intro n
      rw [hLook, hAdj]
      by_cases hUndo : b.undo
      · rw [if_pos hUndo, update_apply]
        by_cases hn : n = b.num
        · rw [if_pos ⟨hUndo, rfl, hn⟩, if_pos hn, hOwed, int32_int32_sub]
        · rw [if_neg fun hAll => hn hAll.2.2, if_neg hn, hOwed]
      · rw [if_neg fun hAll => hUndo hAll.1, if_neg hUndo, hOwed]
    obtain ⟨hEnd, hDebt, hOthers⟩ := @ih _ (update counted b.num false) (i + 1) _
      (hQuiet.undos ▸ hUnique') hRecord' hOwed'
    refine ⟨hEnd, hDebt, fun q n hq => ?_⟩
    rw [hOthers q n hq, hLook, hAdj, if_neg fun hAll => hq hAll.2.1]

theorem semtimedop_of_unused (hUsed : st.used = false) (sops : List SemBuf) :
    st.semtimedop p sops mem = (.err .inval, st, fun _ => false) := by
  unfold semtimedop
  rw [if_pos hUsed, ite_self]

theorem Declines.ne_done {sops : List SemBuf} {r : SemResult} (h : st.Declines p sops r) :
    r ≠ .done := by
  rintro rfl
  obtain h | h | ⟨e, h, -⟩ := h
  all_goals cases h

theorem pass_cases (st : SemSet) (p : Caller) (sops : List SemBuf) (mem : ℕ → Bool)
    (counted : Counted) : (st.Declines p sops (st.pass p sops mem counted).1 ∧
      Quiet st (st.pass p sops mem counted).2.1) ∨
      (∀ b ∈ sops, b.num < st.nsems ∧ 0 ≤ int32 (st.vals b.num + b.op.toInt)) ∧
        st.pass p sops mem counted = (.done, applyFrom p mem 0 sops st counted) := by
  unfold pass
  by_cases hUsed : st.used = false
  · rw [if_pos hUsed]
    exact .inl ⟨.inr (.inr ⟨_, rfl, hUsed⟩), .refl st⟩
  rw [if_neg hUsed]
  unfold semopTry
  by_cases hRange : (sops.any fun b => st.nsems ≤ b.num)
  · rw [if_pos hRange]
    refine .inl ⟨.inr (.inr ⟨_, rfl, ?_⟩), .refl st⟩
    simpa [Refuses] using hRange
  rw [if_neg hRange]
  have hQuiet := quiet_scan sops true st counted
  cases hScan : scan sops true st counted with
  | mk verdict rest =>
    rw [hScan] at hQuiet
    rcases verdict with _ | _ | _
    · exact .inl ⟨.inr (.inl rfl), hQuiet⟩
    · exact .inl ⟨.inl rfl, hQuiet⟩
    · obtain ⟨-, hEq, hFits⟩ := scan_true (by rw [hScan])
      rw [hScan] at hEq
      cases hEq
      refine .inr ⟨fun b hb => ⟨?_, hFits b hb⟩, rfl⟩
      rw [any_eq_true] at hRange
      by_contra hBig
      exact hRange ⟨b, hb, by simpa using hBig⟩

end SemSet

namespace SemTrack

/-- The values are in their range, and the records are what the processes owe. -/
structure Solvent (t : SemTrack) : Prop where
  range : t.InRange
  unique : (t.st.undos.map (·.pid)).Nodup
  owed : ∀ pid n, t.st.adjOf pid n = int32 (t.owed pid n)

variable {t : SemTrack} {p : Caller} {sops : List SemBuf} {mem : ℕ → Bool}

theorem after_range {v : ℕ → ℤ} {k : ℕ} (hRange : ∀ n < k, 0 ≤ v n ∧ v n ≤ semvmx)
    (hOrder : Sops.InOrder v sops) :
    ∀ n < k, 0 ≤ Sops.after v sops n ∧ Sops.after v sops n ≤ semvmx := by
  induction sops generalizing v with
  | nil => exact hRange
  | cons b bs ih =>
    obtain ⟨⟨-, hLow, hHigh⟩, hRest⟩ := hOrder
    refine ih (fun n hn => ?_) hRest
    unfold Sops.stepVals
    rw [update_apply]
    split
    · exact ⟨hLow, hHigh⟩
    · exact hRange n hn

section

variable (h : t.Solvent)
include h

theorem Solvent.fits {n : ℕ} (hn : n < t.st.nsems) (op : BitVec 16) :
    int32 (t.st.vals n + op.toInt) = t.st.vals n + op.toInt := by
  obtain ⟨hLow, hHigh⟩ := h.range n hn
  obtain ⟨hOpLow, hOpHigh⟩ := op_range op
  unfold semvmx at hHigh
  exact int32_of_range (by omega) (by omega)

theorem Solvent.pass (hSound : t.st.SoundOps p sops mem) (counted : Counted) :
    t.Atomic p sops (t.st.pass p sops mem counted) ∧
      (t.settle p sops (t.st.pass p sops mem counted)).Solvent := by
  rcases t.st.pass_cases p sops mem counted with ⟨hDeclines, hQuiet⟩ | ⟨hFits, hPass⟩
  · refine ⟨.inr ⟨hDeclines, hQuiet.vals, hQuiet.undos⟩, ?_⟩
    unfold settle
    rw [if_neg hDeclines.ne_done]
    refine ⟨fun n hn => ?_, by rw [hQuiet.undos]; exact h.unique, ?_⟩
    · rw [hQuiet.vals]
      exact h.range n (hQuiet.nsems ▸ hn)
    · intro pid n
      rw [SemSet.adjOf_eq, hQuiet.undos, ← SemSet.adjOf_eq]
      exact h.owed pid n
  · obtain ⟨hOrder, hRecord⟩ := hSound fun b hb => by
      obtain ⟨hn, hLow⟩ := hFits b hb
      rw [h.fits hn] at hLow
      exact ⟨hn, hLow⟩
    obtain ⟨hVals, hNsems⟩ := @SemSet.applyFrom_vals t.st p mem counted sops 0 hOrder
    obtain ⟨hUnique, hDebt, hOthers⟩ :=
      @SemSet.applyFrom_undos t.st p mem counted sops 0 _ h.unique (by simpa using hRecord)
        (h.owed p.pid)
    rw [hPass]
    refine ⟨.inl ⟨rfl, hOrder, hVals, hDebt, hOthers⟩, ?_⟩
    unfold settle
    rw [if_pos rfl]
    refine ⟨fun n hn => ?_, hUnique, fun pid n => ?_⟩
    · rw [hVals]
      exact after_range h.range hOrder n (hNsems ▸ hn)
    · dsimp only
      rcases eq_or_ne pid p.pid with rfl | hPid
      · rw [update_self]
        exact hDebt n
      · rw [update_of_ne hPid]
        exact (hOthers pid n hPid).trans (h.owed pid n)

theorem Solvent.semtimedop (hUse : t.st.used) (hSound : t.st.SoundOps p sops mem) :
    t.Atomic p sops (t.st.semtimedop p sops mem) ∧
      (t.settle p sops (t.st.semtimedop p sops mem)).Solvent := by
  unfold SemSet.semtimedop
  rw [if_neg (ne_false_of_eq_true hUse)]
  split
  · rename_i hArgs
    exact ⟨.inr ⟨.inr (.inr ⟨_, rfl, hArgs⟩), rfl, rfl⟩, h⟩
  · split
    · rename_i hPerm
      exact ⟨.inr ⟨.inr (.inr ⟨_, rfl, hPerm⟩), rfl, rfl⟩, h⟩
    · exact h.pass hSound _

theorem Solvent.setval {semnum : ℤ} {val : BitVec 32} (hSound : t.Sound (.setval p semnum val)) :
    (t.exec (.setval p semnum val)).Solvent := by
  unfold exec SemSet.setval
  dsimp only
  split_ifs
  · exact h
  · exact h
  · exact h
  · refine ⟨fun n hn => ?_, h.unique, h.owed⟩
    rw [SemSet.vals_modify, update_apply]
    split
    · exact hSound
    · exact h.range n hn

theorem Solvent.setall {arr : ℕ → BitVec 16} (hSound : t.Sound (.setall p arr)) :
    (t.exec (.setall p arr)).Solvent := by
  unfold exec SemSet.setall
  dsimp only
  split_ifs
  · exact h
  · exact h
  · refine ⟨fun n (hn : n < t.st.nsems) => ?_, h.unique, h.owed⟩
    have hVal : (t.st.assign arr).vals n = (arr n).toNat := by
      unfold SemSet.vals SemSet.assign
      dsimp only
      rw [if_pos hn]
    rw [hVal]
    exact ⟨Int.natCast_nonneg _, hSound n hn⟩

theorem semUndoAll_spec (hUse : t.st.used) (pid : ℕ) :
    let st' := t.st.semUndoAll pid
    (∀ n < t.st.nsems, st'.vals n = int32 (t.st.vals n + t.st.adjOf pid n)) ∧
      st'.undos = t.st.undos.filter (·.pid ≠ pid) ∧ st'.nsems = t.st.nsems := by
  have hSame : ∀ n < t.st.nsems, int32 (t.st.vals n + 0) = t.st.vals n := by
    intro n hn
    have hFits := h.fits hn 0
    simpa using hFits
  unfold SemSet.semUndoAll SemSet.adjOf
  rw [if_pos hUse, Undos.filter_pid h.unique]
  cases t.st.undos.find? (·.pid = pid) with
  | none => exact ⟨fun n hn => (hSame n hn).symm, rfl, rfl⟩
  | some u =>
    refine ⟨fun n hn => ?_, rfl, rfl⟩
    show (SemSet.payBack t.st u).vals n = _
    unfold SemSet.payBack SemSet.vals
    dsimp only
    by_cases hAdj : u.adj n ≠ 0
    · rw [if_pos ⟨hn, hAdj⟩]
    · rw [if_neg fun hBoth => hAdj hBoth.2, not_not.mp hAdj]
      exact (hSame n hn).symm

theorem Solvent.exit (hUse : t.st.used) {pid : ℕ} (hSound : t.Sound (.exit pid)) :
    t.Keeps (.exit pid) ∧ (t.exec (.exit pid)).Solvent := by
  obtain ⟨hVals, hUndos, hNsems⟩ := semUndoAll_spec h hUse pid
  have hPaid : ∀ n < t.st.nsems, (t.st.semUndoAll pid).vals n = t.st.vals n + t.owed pid n := by
    intro n hn
    obtain ⟨hLow, hHigh⟩ := hSound n hn
    unfold semvmx at hHigh
    rw [hVals n hn, h.owed, int32_add_int32, int32_of_range (by omega) (by omega)]
  have hAdj : ∀ q n, (t.st.semUndoAll pid).adjOf q n = if q = pid then 0 else t.st.adjOf q n := by
    intro q n
    rw [SemSet.adjOf_eq, hUndos, Undos.look_filter_ne]
    rfl
  refine ⟨⟨fun n hn => ⟨hPaid n hn, ?_⟩, fun n => by rw [hAdj, if_pos rfl]⟩, fun n hn => ?_, ?_, ?_⟩
  · rw [hPaid n hn]
    exact (hSound n hn).1
  · have hn' : n < t.st.nsems := hNsems ▸ hn
    show 0 ≤ (t.st.semUndoAll pid).vals n ∧ (t.st.semUndoAll pid).vals n ≤ semvmx
    rw [hPaid n hn']
    exact hSound n hn'
  · show ((t.st.semUndoAll pid).undos.map (·.pid)).Nodup
    rw [hUndos]
    exact h.unique.sublist (filter_sublist.map _)
  · intro q n
    show (t.st.semUndoAll pid).adjOf q n = int32 (update t.owed pid (fun _ => 0) q n)
    rw [hAdj, update_apply]
    split
    · rfl
    · exact h.owed q n

theorem Solvent.exec (hUse : t.st.used) {op : SemOp} (hSound : t.Sound op) :
    t.Keeps op ∧ (t.exec op).Solvent := by
  cases op with
  | semop p sops mem => exact h.semtimedop hUse hSound
  | retry p sops mem counted => exact h.pass hSound counted
  | setval p semnum val => exact ⟨trivial, h.setval hSound⟩
  | setall p arr => exact ⟨trivial, h.setall hSound⟩
  | exit pid => exact h.exit hUse hSound

end

theorem Start.solvent (h : t.Start) : t.Solvent := by
  obtain ⟨used, perm, nsems, rfl⟩ := h
  refine ⟨fun n _ => ?_, nodup_nil, fun pid n => rfl⟩
  show 0 ≤ (0 : ℤ) ∧ 0 ≤ semvmx
  decide

theorem Reached.solvent (h : t.Reached) : t.Solvent :=
  Reaches.invariant (fun _ hStart => hStart.solvent)
    (fun _ _ hInv hGuard => (hInv.exec hGuard.1 hGuard.2).2) h

section

variable {perm : Perm} {nsems : ℕ}

/-- Nothing changes a set that is not in use. -/
theorem exec_unused (op : SemOp) :
    (ofSlot false perm nsems).exec op = ofSlot false perm nsems := by
  cases op with
  | semop p sops mem =>
    unfold exec
    dsimp only
    rw [SemSet.semtimedop_of_unused rfl]
    rfl
  | retry p sops mem counted => rfl
  | setval p semnum val => rfl
  | setall p arr => rfl
  | exit pid =>
    show SemTrack.mk _ (update (fun _ _ => (0 : ℤ)) pid fun _ => 0) = _
    rw [show update (fun _ _ => (0 : ℤ)) pid (fun _ => 0) = fun _ _ => 0 from
      update_eq_self pid fun _ _ => (0 : ℤ)]
    rfl

/-- A call on a set that is not in use fails, whether it may proceed or not. -/
theorem keeps_unused_iff (op : SemOp) : (ofSlot false perm nsems).Keeps op ↔
    ∀ p sops mem, op = .semop p sops mem → sops = [] ∨ SemSet.maxSops < sops.length := by
  cases op with
  | semop p sops mem =>
    unfold Keeps
    dsimp only
    rw [SemSet.semtimedop_of_unused rfl]
    constructor
    · rintro (⟨hDone, -⟩ | ⟨hDeclines, -⟩) p' sops' mem' ⟨⟩
      · cases hDone
      · obtain h | h | ⟨e, h, hRefuses⟩ := hDeclines
        · cases h
        · cases h
        · cases h
          exact hRefuses
    · intro hArgs
      exact .inr ⟨.inr (.inr ⟨_, rfl, hArgs p sops mem rfl⟩), rfl, rfl⟩
  | retry p sops mem counted =>
    exact ⟨fun _ _ _ _ h => (by cases h), fun _ => .inr ⟨.inr (.inr ⟨_, rfl, rfl⟩), rfl, rfl⟩⟩
  | setval p semnum val => exact ⟨fun _ _ _ _ h => (by cases h), fun _ => trivial⟩
  | setall p arr => exact ⟨fun _ _ _ _ h => (by cases h), fun _ => trivial⟩
  | exit pid =>
    exact ⟨fun _ _ _ _ h => (by cases h), fun _ => ⟨fun n _ => ⟨rfl, le_refl _⟩, fun n => rfl⟩⟩

end

/-- On a set that `sysv_semget` has made, calls are atomic exactly as long as every `semop` is
refused for its arguments: the set is not in use.  In every state that sound calls reach on a set in
use, values are in their range, the next call applies all its operations in order or none, and an
exit pays back exactly what the process owes. -/
theorem semop_atomic (t : SemTrack) :
    (Made t → ∀ ops, (Along Keeps exec t ops ∧ (ops.foldl exec t).InRange ↔
      ∀ p sops mem, .semop p sops mem ∈ ops → sops = [] ∨ SemSet.maxSops < sops.length)) ∧
    (Reached t → t.InRange ∧ ∀ op, t.st.used → t.Sound op → t.Keeps op) := by
  constructor
  · rintro ⟨s, hFresh, rfl⟩ ops
    rw [hFresh.unused]
    have hRange := (Start.solvent ⟨false, s.perm, s.size.toNat, rfl⟩).range
    have hFixed (op : SemOp) (_ : Keeps (ofSlot false s.perm s.size.toNat) op) :
        (ofSlot false s.perm s.size.toNat).exec op = ofSlot false s.perm s.size.toNat :=
      exec_unused op
    obtain ⟨hIff, hStays⟩ := along_of_fixed hFixed ops
    simp only [keeps_unused_iff] at hIff
    constructor
    · rintro ⟨hAlong, -⟩ p sops mem hOp
      exact hIff.mp hAlong _ hOp p sops mem rfl
    · intro hArgs
      have hAlong := hIff.mpr fun op hOp p sops mem hEq => hArgs p sops mem (hEq ▸ hOp)
      exact ⟨hAlong, by rw [hStays hAlong]; exact hRange⟩
  · intro hReached
    have hSolvent := hReached.solvent
    exact ⟨hSolvent.range, fun op hUse hSound => (hSolvent.exec hUse hSound).1⟩

def root : Caller := ⟨1, 0, 0⟩

def rootSemop (sops : List SemBuf) : SemOp := .semop root sops fun _ => true

/-- On a set in use two units with `SEM_UNDO` and one without, then one of the two is taken back. -/
def twoUndone : SemTrack :=
  [rootSemop [⟨0, 2, false, true⟩, ⟨1, 1, false, false⟩],
    rootSemop [⟨0, -1, false, true⟩]].foldl exec (ofSlot true {} 2)

theorem semop_atomic_twoUndone : twoUndone.Keeps (.exit 1) ∧
      twoUndone.st.vals 0 = 1 ∧ twoUndone.st.vals 1 = 1 ∧ twoUndone.owed 1 0 = -1 := by
  have hReached : twoUndone.Reached := Reaches.foldl (.start ⟨_, _, _, rfl⟩) _ (by decide +kernel)
  refine ⟨((semop_atomic _).2 hReached).2 (.exit 1) ?_ ?_, ?_, ?_, ?_⟩
  all_goals decide +kernel

-- Why the operations must fit in order: each of two of -1 fits a value of 1, so both are applied.
example : ([rootSemop [⟨0, 1, false, false⟩],
      rootSemop [⟨0, -1, false, false⟩, ⟨0, -1, false, false⟩]].foldl exec
      (ofSlot true {} 2)).st.vals 0 = -1 := by
  decide +kernel

/-- `sysv_semget` of two semaphores by root, the first call since boot. -/
def rootGet : GetArgs := ⟨root, 0, true, false, 0, 2, true⟩

/-- An operation that may proceed on the set that the call has made fails. -/
theorem semop_refused :
    ∃ s, Tables.Fresh .sem s ∧ s = (sysvSemget (Tables.boot .sem) rootGet).2.slots 0 ∧
      ((ofSlot s.used s.perm s.size.toNat).st.semtimedop root [⟨0, 1, false, false⟩]
        fun _ => true).1 = .err .inval ∧
      ¬(ofSlot s.used s.perm s.size.toNat).Keeps (rootSemop [⟨0, 1, false, false⟩]) := by
  refine ⟨_, ⟨[], rootGet, 0, by decide +kernel, rfl⟩, rfl, by decide +kernel, ?_⟩
  rintro (⟨hDone, -⟩ | ⟨h | h | ⟨e, h, hRefuses⟩, -⟩)
  · exact absurd hDone (by decide +kernel)
  · exact absurd h (by decide +kernel)
  · exact absurd h (by decide +kernel)
  · obtain rfl : e = .inval := by
      have hErr : SemResult.err .inval = .err e := h
      exact (SemResult.err.inj hErr).symm
    exact absurd hRefuses (by simp [SemSet.Refuses, SemSet.maxSops])

end SemTrack

end Gnos.Ipc
