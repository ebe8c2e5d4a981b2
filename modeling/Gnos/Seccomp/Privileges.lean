import Gnos.Proc.Run
import Gnos.Seccomp.Model

/-! Credentials: the `set*id` calls of `src/kernel/syscall.c`, `inherit_creds` and the set-user-ID
block at the end of `proc_execve` of `src/kernel/proc.c`.  Beside the credentials of every task a
run keeps those that the task would have if the set-id bits of files had not counted since its tree
set `no_new_privs`. -/

namespace Gnos

open ProofKit Seccomp Function

structure Ids where
  real : BitVec 32
  effective : BitVec 32
  saved : BitVec 32
  deriving DecidableEq

structure Creds where
  user : Ids
  group : Ids
  deriving DecidableEq

def idKeep : BitVec 32 := 0xFFFFFFFF
def ePerm : ℤ := 1

variable (ids : Ids)

namespace Ids

def allowed (root : Bool) (id : BitVec 32) : Bool :=
  root || id = ids.real || id = ids.effective || id = ids.saved

def accepts (root : Bool) (id : BitVec 32) : Bool := id = idKeep || ids.allowed root id

def pick (old id : BitVec 32) : BitVec 32 := if id = idKeep then old else id

def setres (root : Bool) (r e s : BitVec 32) : Option Ids :=
  if ids.accepts root r && ids.accepts root e && ids.accepts root s then
    some ⟨pick ids.real r, pick ids.effective e, pick ids.saved s⟩
  else none

def set (root : Bool) (id : BitVec 32) : Option Ids :=
  if root then some ⟨id, id, id⟩
  else if ids.allowed root id then some { ids with effective := id }
  else none

/-- The saved id follows the effective one if the real id was given, or an effective id other than
the old real one. -/
def setre (root : Bool) (r e : BitVec 32) : Option Ids :=
  if ids.accepts root r && ids.accepts root e then
    let effective := pick ids.effective e
    some ⟨pick ids.real r, effective,
      if r ≠ idKeep || (e ≠ idKeep && e ≠ ids.real) then effective else ids.saved⟩
  else none

end Ids

/-- The file that execve found, and whether it came to it through `#!`. -/
structure ExecFile where
  fUid : BitVec 32
  fGid : BitVec 32
  fMode : BitVec 32
  interpUsed : Bool

namespace Creds

def root (c : Creds) : Bool := c.user.effective = 0

/-- The end of a call that sets the user ids: they change, or the call is refused. -/
def setUser (c : Creds) : Option Ids → ℤ × Creds
  | none => (-ePerm, c)
  | some ids => (0, { c with user := ids })

def setGroup (c : Creds) : Option Ids → ℤ × Creds
  | none => (-ePerm, c)
  | some ids => (0, { c with group := ids })

def sysSetresuid (c : Creds) (r e s : BitVec 32) : ℤ × Creds :=
  c.setUser (c.user.setres c.root r e s)

def sysSetresgid (c : Creds) (r e s : BitVec 32) : ℤ × Creds :=
  c.setGroup (c.group.setres c.root r e s)

def sysSetuid (c : Creds) (uid : BitVec 32) : ℤ × Creds := c.setUser (c.user.set c.root uid)

def sysSetgid (c : Creds) (gid : BitVec 32) : ℤ × Creds := c.setGroup (c.group.set c.root gid)

def sysSetreuid (c : Creds) (r e : BitVec 32) : ℤ × Creds := c.setUser (c.user.setre c.root r e)

def sysSetregid (c : Creds) (r e : BitVec 32) : ℤ × Creds := c.setGroup (c.group.setre c.root r e)

end Creds

namespace ExecFile

def suid (f : ExecFile) : Bool := f.fMode &&& 0o4000 ≠ 0

def sgid (f : ExecFile) : Bool := f.fMode &&& 0o2000 ≠ 0

def applyIds (f : ExecFile) (c : Creds) : Creds :=
  if f.interpUsed then c
  else
    let c := if f.suid then { c with user := ⟨c.user.real, f.fUid, f.fUid⟩ } else c
    if f.sgid then { c with group := ⟨c.group.real, f.fGid, f.fGid⟩ } else c

end ExecFile

inductive SetId
  | setresuid (r e s : BitVec 32)
  | setresgid (r e s : BitVec 32)
  | setuid (uid : BitVec 32)
  | setgid (gid : BitVec 32)
  | setreuid (r e : BitVec 32)
  | setregid (r e : BitVec 32)

def SetId.exec (c : Creds) : SetId → ℤ × Creds
  | .setresuid r e s => c.sysSetresuid r e s
  | .setresgid r e s => c.sysSetresgid r e s
  | .setuid uid => c.sysSetuid uid
  | .setgid gid => c.sysSetgid gid
  | .setreuid r e => c.sysSetreuid r e
  | .setregid r e => c.sysSetregid r e

def Creds.Agrees (c d : Creds) : Prop :=
  c.user.effective = d.user.effective ∧ c.user.saved = d.user.saved ∧
    c.group.effective = d.group.effective ∧ c.group.saved = d.group.saved

namespace ExecFile

/-- The set-id bits of the file give ids that are held already. -/
def Idle (f : ExecFile) (c : Creds) : Prop :=
  f.interpUsed = false → (f.suid → c.user.effective = f.fUid ∧ c.user.saved = f.fUid) ∧
      (f.sgid → c.group.effective = f.fGid ∧ c.group.saved = f.fGid)

instance (f : ExecFile) (c : Creds) : Decidable (f.Idle c) := by
  unfold Idle
  infer_instance

variable {f : ExecFile} {c : Creds}

theorem Idle.applyIds_eq (h : f.Idle c) : f.applyIds c = c := by
  obtain ⟨⟨uid, euid, suid⟩, gid, egid, sgid⟩ := c
  unfold applyIds
  by_cases hInterp : f.interpUsed
  · rw [if_pos hInterp]
  · obtain ⟨hUser, hGroup⟩ := h (Bool.not_eq_true _ ▸ hInterp)
    dsimp only at hUser hGroup ⊢
    split_ifs with hg hs hs
    · obtain ⟨rfl, rfl⟩ := hUser hs
      obtain ⟨rfl, rfl⟩ := hGroup hg
      rfl
    · obtain ⟨rfl, rfl⟩ := hGroup hg
      rfl
    · obtain ⟨rfl, rfl⟩ := hUser hs
      rfl
    · rfl

theorem agrees_applyIds_iff : (f.applyIds c).Agrees c ↔ f.Idle c := by
  constructor
  · intro h hInterp
    unfold applyIds at h
    rw [if_neg (by simp [hInterp])] at h
    constructor
    · intro hs
      rw [if_pos hs] at h
      split at h <;> exact ⟨h.1.symm, h.2.1.symm⟩
    · intro hg
      rw [if_pos hg] at h
      exact ⟨h.2.2.1.symm, h.2.2.2.symm⟩
  · intro h
    rw [h.applyIds_eq]
    exact ⟨rfl, rfl, rfl, rfl⟩

end ExecFile

structure Realm where
  k : Kernel
  creds : ℕ → Creds
  /-- The task, or one it descends from, has set `no_new_privs`; the descent is later than that. -/
  bound : ℕ → Bool
  /-- What a bound task would have by itself: set-id bits have not counted since it is bound. -/
  due : ℕ → Creds

inductive PrivOp
  | task (op : Kernel.TaskOp)
  | execve (p : ℕ) (f : ExecFile)
  | setId (p : ℕ) (call : SetId)
  | prctl (p : ℕ) (option : BitVec 32) (arg2 : Word)

def Kernel.TaskOp.birth (k : Kernel) : Kernel.TaskOp → Option (ℕ × ℕ)
  | .fork p admitted weight => (k.newTask p false admitted weight).1.map (p, ·)
  | .clone p thread _ admitted weight => (k.newTask p thread admitted weight).1.map (p, ·)
  | _ => none

namespace Realm

def inheritCreds (s : Realm) (child parent : ℕ) : Realm :=
  { s with
    creds := update s.creds child (s.creds parent)
    bound := update s.bound child (s.bound parent)
    due := update s.due child (s.due parent) }

def setKernel (s : Realm) (k : Kernel) : Realm := { s with k := k }

def bind (s : Realm) (p : ℕ) : Realm :=
  { s with
    bound := update s.bound p true
    due := if s.bound p then s.due else update s.due p (s.creds p) }

def exec (s : Realm) : PrivOp → Realm
  | .task op =>
    match op.birth s.k with
    | none => s.setKernel (op.exec s.k)
    | some (parent, child) => (s.setKernel (op.exec s.k)).inheritCreds child parent
  | .execve p f =>
    { s with k := s.k.procExecve p, creds := update s.creds p (f.applyIds (s.creds p)) }
  | .setId p call =>
    { s with
      creds := update s.creds p (call.exec (s.creds p)).2
      due := update s.due p (call.exec (s.due p)).2 }
  | .prctl p option arg2 =>
    let s' := s.setKernel (s.k.seccompPrctl p option arg2).2
    if option = prSetNoNewPrivs ∧ arg2 = 1 then s'.bind p else s'

def Enabled (s : Realm) : PrivOp → Prop
  | .task (.execve _) => False
  | .task op => op.Enabled s.k
  | .execve p _ | .setId p _ | .prctl p _ _ => (s.k.procs p).state = .running

instance (s : Realm) (op : PrivOp) : Decidable (s.Enabled op) := by
  cases op with
  | task op => rcases op <;> unfold Enabled <;> infer_instance
  | execve | setId | prctl => unfold Enabled; infer_instance

/-- A bound task executes only files with idle set-id bits. -/
def Careful (s : Realm) : PrivOp → Prop
  | .execve p f => s.bound p → f.Idle (s.creds p)
  | _ => True

instance (s : Realm) (op : PrivOp) : Decidable (s.Careful op) := by
  rcases op <;> unfold Careful <;> infer_instance

def Start (s : Realm) : Prop := s.k.OnlyInit ∧ ∀ p, s.bound p = false

/-- No effective or saved id of a bound task comes from a set-id bit. -/
def Honoured (s : Realm) : Prop :=
  ∀ q, s.k.Alive q → s.bound q → (s.creds q).Agrees (s.due q)

def Inv (s : Realm) : Prop := ∀ q, s.bound q → s.creds q = s.due q

variable {s : Realm}

section

variable (h : s.Inv)
include h

theorem Inv.honoured : s.Honoured := fun q _ hBound => by
  rw [h q hBound]
  exact ⟨rfl, rfl, rfl, rfl⟩

theorem Inv.inheritCreds (child parent : ℕ) : (s.inheritCreds child parent).Inv := by
  intro q hBound
  unfold Realm.inheritCreds at hBound ⊢
  dsimp only at hBound ⊢
  by_cases hq : q = child
  · subst hq
    rw [update_self] at hBound ⊢
    rw [update_self]
    exact h parent hBound
  · rw [update_of_ne hq] at hBound ⊢
    rw [update_of_ne hq]
    exact h q hBound

theorem Inv.bind (p : ℕ) : (s.bind p).Inv := by
  intro q hBound
  unfold Realm.bind at hBound ⊢
  dsimp only at hBound ⊢
  by_cases hq : q = p
  · subst hq
    split
    next hOld => exact h q hOld
    next => rw [update_self]
  · rw [update_of_ne hq] at hBound
    split
    · exact h q hBound
    · rw [update_of_ne hq]
      exact h q hBound

theorem Inv.setId (p : ℕ) (call : SetId) : (s.exec (.setId p call)).Inv := by
  intro q hBound
  change update s.creds p (call.exec (s.creds p)).2 q = update s.due p (call.exec (s.due p)).2 q
  by_cases hq : q = p
  · subst hq
    rw [update_self, update_self, h q hBound]
  · rw [update_of_ne hq, update_of_ne hq]
    exact h q hBound

theorem Inv.execve {p : ℕ} {f : ExecFile} (hIdle : s.bound p → f.Idle (s.creds p)) :
    (s.exec (.execve p f)).Inv := by
  intro q hBound
  change update s.creds p (f.applyIds (s.creds p)) q = s.due q
  by_cases hq : q = p
  · subst hq
    rw [update_self, (hIdle hBound).applyIds_eq]
    exact h q hBound
  · rw [update_of_ne hq]
    exact h q hBound

theorem Inv.exec {op : PrivOp} (hCareful : s.Careful op) : (s.exec op).Inv := by
  cases op with
  | task op =>
    unfold Realm.exec
    dsimp only
    split
    · exact h
    · exact Inv.inheritCreds (s := s.setKernel _) h _ _
  | execve p f => exact h.execve hCareful
  | setId p call => exact h.setId p call
  | prctl p option arg2 =>
    unfold Realm.exec
    dsimp only
    split
    · exact Inv.bind (s := s.setKernel _) h p
    · exact h

end

end Realm

theorem Kernel.alive_procExecve {k : Kernel} {p : ℕ} (h : k.Alive p) :
    (k.procExecve p).Alive p := by
  obtain ⟨m, hm, hDead⟩ := (alive_iff k p).mp h
  have hRoster := roster_procExecve k p
  simp only [Roster.condemn, Roster.renew, Roster.alter_alter] at hRoster
  refine (alive_iff _ p).mpr ⟨_, hRoster ▸ Roster.member_alter_eq_some.mpr ⟨m, hm, rfl⟩, ?_⟩
  split_ifs <;> exact hDead

namespace Realm

variable {s : Realm}

theorem Inv.careful_of_honoured (h : s.Inv) {op : PrivOp} (hOn : s.Enabled op)
    (hAfter : (s.exec op).Honoured) : s.Careful op := by
  cases op with
  | execve p f =>
    intro hBound
    have hAlive : (s.exec (.execve p f)).k.Alive p :=
      Kernel.alive_procExecve (Kernel.alive_of_running hOn)
    have hAgrees := hAfter p hAlive hBound
    change (update s.creds p (f.applyIds (s.creds p)) p).Agrees (s.due p) at hAgrees
    rw [update_self, ← h p hBound] at hAgrees
    exact ExecFile.agrees_applyIds_iff.mp hAgrees
  | task | setId | prctl => trivial

/-- As long as bound tasks execute only files with idle set-id bits, `no_new_privs` is honoured in
the whole tree; the first step that is not careful breaks it. -/
theorem no_new_privs_honoured_iff
    (hRun : Reaches Start (fun s op => s.Enabled op ∧ s.Careful op) exec s) :
    s.Honoured ∧ ∀ op, s.Enabled op → ((s.exec op).Honoured ↔ s.Careful op) := by
  have hInv : s.Inv := by
    refine Reaches.invariant (I := Inv) ?_ (fun s op h hStep => h.exec hStep.2) hRun
    rintro s ⟨-, hFree⟩ q hBound
    exact absurd (hFree q) (by simp [hBound])
  exact ⟨hInv.honoured, fun op hOn =>
    ⟨hInv.careful_of_honoured hOn, fun hCareful => (hInv.exec hCareful).honoured⟩⟩

def initRealm (uid : BitVec 32) : Realm where
  k := Kernel.initKernel
  creds _ := ⟨⟨uid, uid, uid⟩, ⟨uid, uid, uid⟩⟩
  bound _ := false
  due _ := ⟨⟨uid, uid, uid⟩, ⟨uid, uid, uid⟩⟩

theorem start_initRealm (uid : BitVec 32) : (initRealm uid).Start :=
  ⟨Kernel.onlyInit_initKernel, fun _ => rfl⟩

def suRoot : ExecFile := ⟨0, 0, 0o4755, false⟩

/-- Init becomes user 1000 and sets `no_new_privs`. -/
def bindOps : List PrivOp := [.setId 0 (.setuid 1000), .prctl 0 prSetNoNewPrivs 1]

def childOps : List PrivOp := [.task (.fork 0 true 1024), .task (.dispatch 1)]

theorem no_new_privs_honoured_in_child :
    ((bindOps ++ childOps).foldl exec (initRealm 0)).Honoured := by
  refine (no_new_privs_honoured_iff (Reaches.foldl (.start (start_initRealm 0)) _ ?_)).1
  decide +kernel

/-- A child of a task that set `no_new_privs` does not have the flag, and a program of root with the
set-user-ID bit makes it root. -/
theorem no_new_privs_not_honoured : let s := (bindOps ++ childOps).foldl exec (initRealm 0)
    Along Enabled exec (initRealm 0) (bindOps ++ childOps ++ [.execve 1 suRoot]) ∧
      (s.k.procs 0).noNewPrivs ∧ (s.k.procs 1).noNewPrivs = false ∧ s.bound 1 ∧
      (s.creds 1).user.effective = 1000 ∧
      ((s.exec (.execve 1 suRoot)).creds 1).user = ⟨1000, 0, 0⟩ ∧
      ¬ (s.exec (.execve 1 suRoot)).Honoured := by
  refine ⟨by decide +kernel, by decide +kernel, by decide +kernel, by decide +kernel,
    by decide +kernel, by decide +kernel, fun h => ?_⟩
  refine absurd (h 1 ?_ (by decide +kernel)).1 (by decide +kernel)
  unfold Kernel.Alive
  decide +kernel

end Realm

end Gnos
