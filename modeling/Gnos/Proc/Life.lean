import Gnos.Proc.Signal

/-! The life of a task in `src/kernel/proc.c`: fork and clone, execve, exit and wait.  The caller is
the slot of `g_current`.  Memory, files, credentials, names and result codes are left out; where a
function ends by yielding or blocking, the switch is the scheduler's. -/

namespace Gnos

open Signal

namespace Proc

/-- What a new task takes from its creator; a thread joins the creator's group. -/
def inherit (parent : Proc) (thread : Bool) (x : Proc) : Proc :=
  { x with
    ppid := parent.pid
    tgid := if thread then parent.tgid else x.tgid
    sigIgnored := parent.sigIgnored
    sigMask := parent.sigMask
    handler := parent.handler }

def setDying (x : Proc) : Proc := { x with groupDying := true }

def setVforkParent (pid : ℤ) (x : Proc) : Proc := { x with vforkParent := pid }

def renew (x : Proc) : Proc := { x with pid := x.tgid, handler := fun _ => 0 }

def die (status : ℤ) (x : Proc) : Proc := { x with exitStatus := status, state := .zombie }

def setTermSig (sig : ℕ) (x : Proc) : Proc := { x with termSig := sig }

/-- `seccomp_free`. -/
def freeFilter (x : Proc) : Proc := { x with seccompFilter := none }

def setReported (x : Proc) : Proc := { x with reported := true }

end Proc

variable (k : Kernel) (p : ℕ)

namespace Kernel

/-- The common part of `proc_fork` and `proc_clone`: the slot of the child.  `admitted` says that
there is memory and that the pids controller agrees; `weight` is the `eff_weight` of the cgroup. -/
def newTask (thread admitted : Bool) (weight : BitVec 32) : Option ℕ × Kernel :=
  match k.freeSlot with
  | none => (none, k)
  | some i =>
    let parent := k.procs p
    let k := k.procAlloc i
    match parent.cg with
    | none => (none, k.slotRelease i)
    | some c =>
      if admitted && (k.cgs c).live then
        (some i, ((k.cgAttach i c weight).modify i (.inherit parent thread)).enqueueFresh i)
      else (none, k.slotRelease i)

def procFork (admitted : Bool) (weight : BitVec 32) : Kernel :=
  (k.newTask p false admitted weight).2

/-- `proc_clone` with `CLONE_THREAD` and `CLONE_VFORK` or not. -/
def procClone (thread vfork admitted : Bool) (weight : BitVec 32) : Kernel :=
  match k.newTask p thread admitted weight with
  | (none, k) => k
  | (some i, k) =>
    if vfork then (k.modify i (.setVforkParent (k.procs p).pid)).modify p (.block .vfork) else k

def vforkWakeParent : Kernel :=
  if (k.procs p).vforkParent = 0 then k
  else
    let pp := k.procByPid (k.procs p).vforkParent
    let k := k.modify p (.setVforkParent 0)
    match pp with
    | none => k
    | some q =>
      if (k.procs q).state = .blocked ∧ (k.procs q).waitReason = .vfork then k.enqueueFresh q else k

/-- Sentences slot `i` to die if it is in group `tgid`, and wakes it. -/
def condemnOne (tgid : ℤ) (self : Bool) (k : Kernel) (i : ℕ) : Kernel :=
  if (k.procs i).state = .unused ∨ (k.procs i).tgid ≠ tgid ∨ i = p ∧ self = false then k
  else
    let k := k.modify i .setDying
    if i ≠ p ∧ (k.procs i).state = .blocked then k.schedWake i else k

/-- The loop over the group of `p` of `proc_execve` and, with the caller itself, of
`proc_exit_group`. -/
def condemn (self : Bool) : Kernel :=
  (List.range maxProcs).foldl (condemnOne p (k.procs p).tgid self) k

/-- `proc_execve` that succeeds; one that fails changes nothing. -/
def procExecve : Kernel :=
  ((k.condemn p false).modify p .renew).vforkWakeParent p

/-- The orphans of `p` go to init. -/
def adopt : Kernel :=
  { k with
    procs := fun j =>
      let x := k.procs j
      if x.state ≠ .unused ∧ x.ppid = (k.procs p).pid ∧ x.tgid ≠ (k.procs p).tgid then
        { x with ppid := 1 }
      else x }

def procTeardown : Kernel := ((k.modify p .freeFilter).cgDetach p).adopt p

def procNotifyParent : Kernel :=
  match k.procByPid (k.procs p).ppid with
  | none => k
  | some parent =>
    let k := k.procSignal parent sigchld
    if (k.procs parent).state = .blocked ∧ (k.procs parent).waitReason = .child then
      k.schedWake parent
    else k

/-- `proc_exit_group` by the leader. -/
def exitLeader (status : ℤ) : Kernel :=
  (((k.condemn p true).procTeardown p).modify p (.die status)).procNotifyParent p

/-- `proc_exit_group` by a thread: it closes out the leader, and then itself. -/
def exitForLeader (p leader : ℕ) (status : ℤ) : Kernel :=
  let k := (k.condemn p true).rqRemove leader
  let k := (k.procTeardown leader).modify leader (.setTermSig (k.procs p).termSig)
  let k := k.modify leader (.die status)
  (k.procTeardown p).modify p (.die status)

/-- `proc_exit_group`.  Without a leader the kernel follows a null pointer; nothing is said about
what it does then. -/
def procExitGroup (status : ℤ) : Kernel :=
  if (k.procs p).pid = (k.procs p).tgid then k.exitLeader p status
  else
    match k.procByPid (k.procs p).tgid with
    | none => k
    | some leader => k.exitForLeader p leader status

def procExit (status : ℤ) : Kernel :=
  if (k.procs p).pid = (k.procs p).tgid then k.procExitGroup p status
  else ((k.procTeardown p).vforkWakeParent p).modify p (.die status)

/-- `c` is a child that `proc_waitpid` looks at. -/
def isChild (pid : ℤ) (c : ℕ) : Bool :=
  (k.procs c).state ≠ .unused && (k.procs c).ppid = (k.procs p).pid &&
    (pid ≤ 0 || (k.procs c).pid = pid) && (k.procs c).pid = (k.procs c).tgid

/-- There is something to report about `c`. -/
def reportable (untraced : Bool) (c : ℕ) : Bool :=
  let x := k.procs c
  x.state = .zombie || (x.traced && x.ptraceStopped && !x.reported) ||
    (untraced && x.state = .stopped && !x.reported)

/-- Releases slot `j` if it holds a zombie of the group `cpid`. -/
def sweepOne (cpid : ℤ) (c : ℕ) (k : Kernel) (j : ℕ) : Kernel :=
  if (k.procs j).state = .zombie ∧ (k.procs j).tgid = cpid ∧ j ≠ c then k.slotRelease j else k

/-- Releases the zombie leader `c` and the zombies of its group. -/
def reap (c : ℕ) : Kernel :=
  (List.range maxProcs).foldl (sweepOne (k.procs c).pid c) (k.slotRelease c)

/-- One turn of the loop of `proc_waitpid`: it reports on a child, fails, returns or blocks. -/
def procWaitpid (pid : ℤ) (untraced nohang : Bool) : Kernel :=
  match (List.range maxProcs).find? fun c => k.isChild p pid c && k.reportable untraced c with
  | some c => if (k.procs c).state = .zombie then k.reap c else k.modify c .setReported
  | none =>
    if nohang || !(List.range maxProcs).any (k.isChild p pid) then k else k.modify p (.block .child)

def dispatch : Kernel := (k.rqRemove p).modify p (.setState .running)

end Kernel

end Gnos
