import Gnos.Proc.Drift

/-! The stops of a traced task (`src/kernel/ptrace.c`): who ends them, and which of them a system
call makes.  The register image is in `Gnos.Ptrace.Image`; here a stop is where a task waits. -/

namespace Gnos

open ProofKit Signal Kernel Kernel.TaskOp
open Function (update update_of_ne update_self)

namespace Proc

variable {op : Kernel.TaskOp} {sig : ℕ}

/-- A task at the beginning of `ptrace_stop`. -/
def beginStop (sig : ℕ) (x : Proc) : Proc :=
  { x with
    ptraceStopped := true
    ptraceSyscallPhase := false
    stopSig := sig
    reported := false
    ptraceRegsValid := true }

/-- The end of `ptrace_stop`, and `ptrace_inject_resume_sig`. -/
def endStop (x : Proc) : Proc :=
  { x with
    ptraceRegsValid := false
    sigPending :=
      if 0 < x.ptraceResumeSig ∧ x.ptraceResumeSig < nsig then
        x.sigPending ||| sigmask x.ptraceResumeSig.toNat
      else x.sigPending
    ptraceResumeSig := 0
    ptraceStopped := false }

/-- A task that `PTRACE_TRACEME` or `PTRACE_ATTACH` makes a tracee. -/
def beTraced (tracer : ℤ) (x : Proc) : Proc :=
  { x with
    traced := true
    tracerPid := tracer
    traceSysGood := false
    ptraceMode := .cont
    ptraceStopped := false
    ptraceRegsValid := false }

def resumed (mode : RunMode) (sig : ℤ) (x : Proc) : Proc :=
  { x with ptraceMode := mode, ptraceResumeSig := sig, ptraceStopped := false, reported := false }

def detached (x : Proc) : Proc := { x with traced := false, tracerPid := 0, traceSysGood := false }

def setPhase (x : Proc) : Proc := { x with ptraceSyscallPhase := true }

def setSysGood (on : Bool) (x : Proc) : Proc := { x with traceSysGood := on }

def clearStopped (x : Proc) : Proc := { x with ptraceStopped := false }

def takeSignal (sig : ℕ) (x : Proc) : Proc :=
  { x with sigPending := x.sigPending &&& ~~~ sigmask sig }

def jobStopped (sig : ℕ) (x : Proc) : Proc :=
  { x with state := .stopped, stopSig := sig, reported := false }

def underSyscall (x : Proc) : Bool := x.traced && x.ptraceMode = .syscall

def trapSig (x : Proc) : ℕ := if x.traceSysGood then 0x85 else 5

/-- The signal that `proc_check_signals` takes next. -/
def nextSignal (x : Proc) : Option ℕ :=
  (List.range nsig).find? fun sig =>
    0 < sig && decide (x.sigPending &&& ~~~ x.sigIgnored &&& ~~~ x.sigMask &&& sigmask sig ≠ 0)

end Proc

namespace Kernel

/-- Tells the task `pid` about a child: `SIGCHLD`, and the end of its `waitpid`. -/
def notify (k : Kernel) (pid : ℤ) : Kernel :=
  match k.procByPid pid with
  | none => k
  | some t =>
    let k := k.procSignal t sigchld
    if (k.procs t).state = .blocked ∧ (k.procs t).waitReason = .child then k.schedWake t else k

/-- `ptrace_stop` up to where the task waits. -/
def ptraceStop (k : Kernel) (p sig : ℕ) : Kernel :=
  let k := k.modify p (.beginStop sig)
  (k.notify (k.procs p).tracerPid).modify p (.block .child)

def stopCurrent (k : Kernel) (p sig : ℕ) : Kernel :=
  let k := (k.modify p (.takeSignal sig)).modify p (.jobStopped sig)
  k.notify (k.procs p).ppid

def unpark (k : Kernel) (t : ℕ) : Kernel :=
  if (k.procs t).state = .blocked ∧ (k.procs t).waitReason = .child then k.schedWake t else k

/-- `ptrace_resume`: the task that is let go, if it is. -/
def ptraceResume (k : Kernel) (t : ℕ) (mode : RunMode) (sig : ℤ) : Option ℕ × Kernel :=
  if (k.procs t).ptraceStopped = false ∨ sig < 0 ∨ nsig ≤ sig then (none, k)
  else (some t, (k.modify t (.resumed mode sig)).unpark t)

inductive Request
  | traceme
  | attach
  | cont (sig : ℤ)
  | syscall (sig : ℤ)
  | kill
  | detach (sig : ℤ)
  | setoptions (sysGood : Bool)
  deriving DecidableEq

def ptraceAttach (k : Kernel) (self t : ℕ) : Kernel :=
  if (k.procs t).ppid ≠ (k.procs self).pid ∨ (k.procs t).state = .unused ∨
      (k.procs t).state = .zombie ∨ (k.procs t).traced then k
  else (k.modify t (.beTraced (k.procs self).pid)).procSignal t sigstop

def ptraceDetach (k : Kernel) (t : ℕ) (sig : ℤ) : Option ℕ × Kernel :=
  match k.ptraceResume t .cont sig with
  | (none, k) => (none, k)
  | (some t, k) => (some t, k.modify t .detached)

def tracerRequest (k : Kernel) (t : ℕ) : Request → Option ℕ × Kernel
  | .cont sig => k.ptraceResume t .cont sig
  | .syscall sig => k.ptraceResume t .syscall sig
  | .kill => (some t, ((k.modify t .clearStopped).unpark t).procSignal t sigkill)
  | .detach sig => k.ptraceDetach t sig
  | .setoptions sysGood => (none, k.modify t (.setSysGood sysGood))
  | .traceme | .attach => (none, k)

/-- `sys_ptrace` by `self`: the task that is let go, if one is. -/
def sysPtrace (k : Kernel) (self : ℕ) (pid : ℤ) (request : Request) : Option ℕ × Kernel :=
  if request = .traceme then
    if (k.procs self).traced then (none, k)
    else (none, k.modify self (.beTraced (k.procs self).ppid))
  else
    match k.procByPid pid with
    | none => (none, k)
    | some t =>
      if request = .attach then (none, k.ptraceAttach self t)
      else if (k.procs t).tracerPid ≠ (k.procs self).pid then (none, k)
      else k.tracerRequest t request

end Kernel

/-! ### Where tasks are -/

/-- A system call: whether it began under `PTRACE_SYSCALL`, and the stops it has made. -/
structure CallRec where
  under : Bool := false
  entries : ℕ := 0
  exits : ℕ := 0
  deriving DecidableEq

/-- Where a stop was made: in `proc_check_signals`, or at either end of a system call. -/
inductive Site
  | signal
  | entry
  | exit
  deriving DecidableEq

def CallRec.stop (c : CallRec) : Site → CallRec
  | .signal => c
  | .entry => { c with entries := c.entries + 1 }
  | .exit => { c with exits := c.exits + 1 }

inductive Place
  | outside
  | inCall (c : CallRec)
  | inStop (site : Site) (c : CallRec)
  deriving DecidableEq

def Place.stopped : Place → Bool
  | .inStop .. => true
  | _ => false

/-- The process table, where each task is, and whether it has been let go since it stopped: by its
tracer, or by `SIGKILL`. -/
structure Tracees where
  k : Kernel
  place : ℕ → Place
  released : ℕ → Bool

namespace Tracees

inductive Op
  /-- What tasks and processors do; a job-control stop is `jobStop`. -/
  | task (op : Kernel.TaskOp)
  | jobStop (p sig : ℕ)
  | enter (p : ℕ)
  /-- The handler is done. -/
  | finish (p : ℕ)
  /-- A signal is taken on the way back to user mode. -/
  | signalStop (p sig : ℕ)
  /-- The task goes on past its stop. -/
  | leave (p : ℕ)
  | ptrace (self : ℕ) (pid : ℤ) (request : Kernel.Request)

def halt (s : Tracees) (k : Kernel) (p sig : ℕ) (site : Site) (c : CallRec) : Tracees where
  k := k.ptraceStop p sig
  place := update s.place p (.inStop site (c.stop site))
  released := update s.released p false

def move (s : Tracees) (p : ℕ) (place : Place) : Tracees :=
  { s with place := update s.place p place }

/-- What a step of the table does to places: a new task is outside of any call. -/
def execTask (s : Tracees) (op : Kernel.TaskOp) : Tracees where
  k := op.exec s.k
  place :=
    match op.newborn s.k with
    | some i => update s.place i .outside
    | none => s.place
  released :=
    match op with
    | .signal p sig => update s.released p (s.released p || decide (sig = sigkill))
    | _ => s.released

/-- `ptrace_syscall_enter`. -/
def execEnter (s : Tracees) (p : ℕ) : Tracees :=
  let x := s.k.procs p
  if x.underSyscall then
    s.halt (s.k.modify p .setPhase) p x.trapSig .entry { under := true }
  else s.move p (.inCall {})

/-- `ptrace_syscall_exit`. -/
def execFinish (s : Tracees) (p : ℕ) : Tracees :=
  let x := s.k.procs p
  match s.place p with
  | .inCall c =>
    if x.underSyscall && x.ptraceSyscallPhase then
      s.halt s.k p x.trapSig .exit c
    else s.move p .outside
  | _ => s

def execLeave (s : Tracees) (p : ℕ) : Tracees :=
  match s.place p with
  | .inStop site c =>
    { s.move p (if site = Site.entry then .inCall c else .outside) with k := s.k.modify p .endStop }
  | _ => s

def execPtrace (s : Tracees) (self : ℕ) (pid : ℤ) (request : Kernel.Request) : Tracees :=
  let (freed, k) := s.k.sysPtrace self pid request
  { s with
    k := k
    released :=
      match freed with
      | some t => update s.released t true
      | none => s.released }

def exec (s : Tracees) : Op → Tracees
  | .task op => s.execTask op
  | .jobStop p sig => { s with k := s.k.stopCurrent p sig }
  | .enter p => s.execEnter p
  | .finish p => s.execFinish p
  | .signalStop p sig => s.halt (s.k.modify p (.takeSignal sig)) p sig .signal {}
  | .leave p => s.execLeave p
  | .ptrace self pid request => s.execPtrace self pid request

/-- The task is on a processor and in no stop; a thread of its group may have ended it meanwhile. -/
def Free (s : Tracees) (p : ℕ) : Prop :=
  ((s.k.procs p).state = .running ∨ (s.k.procs p).state = .zombie) ∧ (s.place p).stopped = false

/-- A task in a stop does nothing but go on when it runs.  Processors preempt and take any task, and
any task may be woken: `sched_wake_queue` asks for the queue only that a task last waited on. -/
def Enabled (s : Tracees) : Op → Prop
  | .task op =>
    match op with
    | .fork p .. | .clone p .. | .execve p | .exit p _ | .exitGroup p _ | .waitpid p ..
    | .block p _ =>
      s.Free p
    | .preempt p => (s.k.procs p).state = .running
    | .dispatch p => (s.k.procs p).state = .ready
    | .wake _ | .signal .. => True
    | .stop _ => False
  | .jobStop p _ => s.Free p
  | .enter p => s.Free p ∧ s.place p = .outside
  | .finish p => s.Free p ∧ s.place p ≠ .outside
  | .signalStop p sig => s.Free p ∧ s.place p = .outside ∧
      (s.k.procs p).traced ∧ (s.k.procs p).nextSignal = some sig ∧ sig ≠ sigkill
  | .leave p => (s.k.procs p).state = .running ∧ (s.place p).stopped
  | .ptrace self .. => s.Free self

instance (s : Tracees) (p : ℕ) : Decidable (s.Free p) := by
  unfold Free
  infer_instance

instance (s : Tracees) (op : Op) : Decidable (s.Enabled op) := by
  cases op with
  | task op => rcases op <;> unfold Enabled <;> infer_instance
  | jobStop | enter | finish | signalStop | leave | ptrace =>
    unfold Enabled
    infer_instance

structure Start (s : Tracees) : Prop where
  init : Kernel.OnlyInit s.k
  phase : ∀ p, (s.k.procs p).ptraceSyscallPhase = false
  place : ∀ p, s.place p = .outside

/-- The task is in a stop and has not been let go. -/
def Held (s : Tracees) (p : ℕ) : Prop := (s.place p).stopped ∧ s.released p = false

instance (s : Tracees) (p : ℕ) : Decidable (s.Held p) := by
  unfold Held
  infer_instance

/-- The task `pid`, if there is one, is not held. -/
def NotHeld (s : Tracees) (pid : ℤ) : Prop := ∀ q ∈ s.k.procByPid pid, ¬ s.Held q

instance (s : Tracees) (pid : ℤ) : Decidable (s.NotHeld pid) := by
  unfold NotHeld
  infer_instance

/-- Nobody in the group of `p` is held. -/
def NoneHeld (s : Tracees) (p : ℕ) : Prop :=
  ∀ q, (s.k.procs q).tgid = (s.k.procs p).tgid → ¬ s.Held q

def Op.actor : Op → Option ℕ
  | .task op => op.caller
  | .jobStop p _ | .enter p | .finish p | .signalStop p _ | .leave p => some p
  | .ptrace self .. => some self

/-- The step is not one of a task that was ended while it ran. -/
def Living (s : Tracees) (op : Op) : Prop := ∀ p ∈ op.actor, (s.k.procs p).state ≠ .zombie

instance (s : Tracees) (op : Op) : Decidable (s.Living op) := by
  unfold Living
  infer_instance

/-- No task that is held gets a signal but `SIGKILL`, `SIGCONT` and those it ignores, or is woken
otherwise, or is told of the end or the stop of a child, or has its group ended by another
thread. -/
def Undisturbed (s : Tracees) : Op → Prop
  | .task op =>
    match op with
    | .signal p sig =>
      s.Held p → sig = sigkill ∨ sig = sigcont ∨ (s.k.procs p).sigIgnored &&& sigmask sig ≠ 0
    | .wake p => s.Held p → (s.k.procs p).state ≠ .blocked
    | .execve p => s.NoneHeld p
    | .exit p _ | .exitGroup p _ => s.NoneHeld p ∧ s.NotHeld (s.k.procs p).ppid
    | _ => True
  | .jobStop p _ => s.NotHeld (s.k.procs p).ppid
  | .enter p | .signalStop p _ => s.NotHeld (s.k.procs p).tracerPid
  | .finish _ | .leave _ | .ptrace .. => True

def Careful (s : Tracees) (op : Op) : Prop := s.Living op ∧ s.Undisturbed op

/-- With this step a system call ends that began under `PTRACE_SYSCALL` and is still under it. -/
def EndsUnder (s : Tracees) (c : CallRec) : Op → Prop
  | .finish p => s.place p = .inCall c ∧ c.under ∧ (s.k.procs p).underSyscall ∧
      (s.execFinish p).place p = .outside
  | .leave p => s.place p = .inStop .exit c ∧ c.under
  | _ => False

/-- A system call that ends under `PTRACE_SYSCALL` with this step has made one stop at each end. -/
def Paired (s : Tracees) (op : Op) : Prop :=
  ∀ c, s.EndsUnder c op → c.entries = 1 ∧ c.exits = 1

end Tracees

namespace Kernel

/-! ### What leaves a task in its stop -/

variable {k k' : Kernel} {p q : ℕ} {leader : ℕ}

/-- The task is traced and waits as in a stop. -/
def Waits (k : Kernel) (q : ℕ) : Prop :=
  (k.procs q).state = .blocked ∧ (k.procs q).waitReason = .child ∧ (k.procs q).traced

namespace Waits

section

variable (h : Waits k q)
include h

theorem alive : Alive k q := alive_of_state h.1 (by decide)

theorem congr (hProc : k'.procs q = k.procs q) : Waits k' q := by
  unfold Waits
  rw [hProc]
  exact h

theorem of_touches (hT : Touches p k k') (hne : q ≠ p) : Waits k' q :=
  h.congr (hT.other q hne)

theorem modify_of_ne (f : Proc → Proc) (hne : q ≠ p) : Waits (k.modify p f) q :=
  h.congr (procs_modify_of_ne _ _ hne)

theorem modify (p : ℕ) {f : Proc → Proc} (hf : ∀ x, (f x).state = x.state ∧
      (f x).waitReason = x.waitReason ∧ (f x).traced = x.traced) : Waits (k.modify p f) q := by
  by_cases hqp : q = p
  · subst hqp
    obtain ⟨hState, hReason, hTraced⟩ := hf (k.procs q)
    unfold Waits
    rw [procs_modify_self, hState, hReason, hTraced]
    exact h
  · exact h.modify_of_ne f hqp

end

end Waits

theorem Closed.notify {P : ℕ → Prop} {R : Kernel → Kernel → Prop} (h : Closed P R) (k : Kernel)
    (pid : ℤ) (hp : ∀ t, k.procByPid pid = some t → P t) : R k (k.notify pid) := by
  unfold Kernel.notify
  split
  · exact h.refl k
  next t hFind => exact h.told (hp t hFind) k

theorem closed_of_ne (q : ℕ) : Closed (· ≠ q) fun k k' => ∀ r, r = q → k'.procs r = k.procs r :=
  .same id (fun hp hq => absurd hq hp) fun hp hq => absurd hq hp

theorem procs_procSignal_of_ne (k : Kernel) (sig : ℕ) (hne : q ≠ p) :
    (k.procSignal p sig).procs q = k.procs q :=
  (closed_of_ne q).procSignal hne.symm k sig q rfl

theorem procs_notify_of_ne (k : Kernel) (pid : ℤ) (hne : k.procByPid pid ≠ some q) :
    (k.notify pid).procs q = k.procs q :=
  (closed_of_ne q).notify k pid (fun _ hFind hEq => hne (hEq ▸ hFind)) q rfl

theorem procs_condemn_of_ne (k : Kernel) (p : ℕ) (self : Bool)
    (hne : (k.procs q).tgid ≠ (k.procs p).tgid) : (k.condemn p self).procs q = k.procs q := by
  unfold condemn
  refine List.foldlRecOn (motive := fun k' : Kernel => k'.procs q = k.procs q) _ _ rfl
    fun k' hk i _ => ?_
  unfold condemnOne
  split
  · exact hk
  next hIn =>
    have hqi : q ≠ i := fun hEq => hIn (.inr (.inl (by rw [← hEq, hk]; exact hne)))
    dsimp only
    split
    · rw [(touches_schedWake _ i).other q hqi, procs_modify_of_ne _ _ hqi, hk]
    · rw [procs_modify_of_ne _ _ hqi, hk]

namespace Waits

section

variable (h : Waits k q)
include h

theorem condemn (self : Bool) (hne : (k.procs q).tgid ≠ (k.procs p).tgid) :
    Waits (k.condemn p self) q :=
  h.congr (procs_condemn_of_ne k p self hne)

theorem vforkWakeParent (p : ℕ) : Waits (k.vforkWakeParent p) q := by
  have hClear : Waits (k.modify p (.setVforkParent 0)) q := h.modify p fun _ => ⟨rfl, rfl, rfl⟩
  unfold Kernel.vforkWakeParent
  dsimp only
  split
  · exact h
  · split
    · exact hClear
    next r _ =>
      split
      next hVfork =>
        refine hClear.of_touches (touches_enqueueFresh _ r) fun hEq => ?_
        rw [← hEq] at hVfork
        exact absurd (hVfork.2.symm.trans hClear.2.1) (by decide)
      next => exact hClear

theorem procTeardown (hne : q ≠ p) : Waits (k.procTeardown p) q := by
  have hDetach : Waits ((k.modify p .freeFilter).cgDetach p) q :=
    (h.modify_of_ne _ hne).of_touches (touches_cgDetach _ p) hne
  unfold Kernel.procTeardown adopt Waits
  dsimp only
  split <;> exact hDetach

theorem notify {pid : ℤ} (hne : k.procByPid pid ≠ some q) : Waits (notify k pid) q :=
  h.congr (procs_notify_of_ne k pid hne)

end

theorem state_procTeardown_of_ne (k : Kernel) (hne : q ≠ p) :
    ((k.procTeardown p).procs q).state = (k.procs q).state := by
  have hDetach : ((k.modify p .freeFilter).cgDetach p).procs q = k.procs q := by
    rw [(touches_cgDetach _ p).other q hne, procs_modify_of_ne _ _ hne]
  unfold Kernel.procTeardown adopt
  dsimp only
  rw [hDetach]
  split <;> rfl

end Waits

theorem parent_exitLeader (hUsed : (k.procs p).state ≠ .unused) (status : ℤ) :
    let k' := ((k.condemn p true).procTeardown p).modify p (.die status)
    k'.procByPid (k'.procs p).ppid = k.procByPid (k.procs p).ppid := by
  intro k'
  have hRoster : k'.roster = _ := (roster_procNotifyParent k' p).symm.trans
    (roster_exitLeader hUsed status)
  simp only [Roster.condemn, Roster.adopt, Roster.die, Roster.alter_alter] at hRoster
  have hPpid : (k'.procs p).ppid = (k.procs p).ppid := by
    have hMember : k'.roster.member p = _ := (congrArg (fun r => r.member p) hRoster).trans
        (Roster.member_alter_eq_some.mpr ⟨_, member_of_used hUsed, rfl⟩)
    rw [(of_member hMember).2.2.1]
    split_ifs <;> simp_all
  rw [procByPid_eq_find, procByPid_eq_find, hPpid, hRoster]
  refine Roster.find_alter (fun j m => ?_) _
  split_ifs <;> rfl

namespace Waits

theorem exitLeader (h : Waits k q) (hne : q ≠ p) (hGroup : (k.procs q).tgid ≠ (k.procs p).tgid)
    (hParent : k.procByPid (k.procs p).ppid ≠ some q) (hUsed : (k.procs p).state ≠ .unused)
    (status : ℤ) : Waits (k.exitLeader p status) q := by
  have hDead : Waits (((k.condemn p true).procTeardown p).modify p (.die status)) q :=
    ((h.condemn true hGroup).procTeardown hne).modify_of_ne _ hne
  have hSame := parent_exitLeader hUsed status
  exact hDead.notify (hSame ▸ hParent)

theorem exitForLeader (h : Waits k q) (hne : q ≠ p) (hLeader : q ≠ leader)
    (hGroup : (k.procs q).tgid ≠ (k.procs p).tgid) (status : ℤ) :
    Waits (k.exitForLeader p leader status) q := by
  have hRemoved : Waits ((k.condemn p true).rqRemove leader) q :=
    (h.condemn true hGroup).of_touches (touches_rqRemove _ leader) hLeader
  exact ((((hRemoved.procTeardown hLeader).modify_of_ne _ hLeader).modify_of_ne _
    hLeader).procTeardown hne).modify_of_ne _ hne

theorem state_exitForLeader (k : Kernel) (hne : leader ≠ p) (status : ℤ) :
    ((k.exitForLeader p leader status).procs leader).state = .zombie := by
  unfold Kernel.exitForLeader
  rw [procs_modify_of_ne _ _ hne, state_procTeardown_of_ne _ hne, procs_modify_self]
  rfl

section

variable (h : Waits k q) (hne : q ≠ p) (hGroup : (k.procs q).tgid ≠ (k.procs p).tgid)
include h hne hGroup

section

variable (hParent : k.procByPid (k.procs p).ppid ≠ some q) (hUsed : (k.procs p).state ≠ .unused)
  (status : ℤ)
include hParent hUsed

theorem procExitGroup : Waits (k.procExitGroup p status) q ∨
      ((k.procExitGroup p status).procs q).state = .zombie := by
  unfold Kernel.procExitGroup
  split
  · exact .inl (h.exitLeader hne hGroup hParent hUsed status)
  · split
    · exact .inl h
    next leader hFind =>
      by_cases hLeader : q = leader
      · exact .inr (hLeader ▸ state_exitForLeader k (hLeader ▸ hne) status)
      · exact .inl (h.exitForLeader hne hLeader hGroup status)

theorem procExit : Waits (k.procExit p status) q ∨
    ((k.procExit p status).procs q).state = .zombie := by
  unfold Kernel.procExit
  split
  · exact h.procExitGroup hne hGroup hParent hUsed status
  · exact .inl (((h.procTeardown hne).vforkWakeParent p).modify_of_ne _ hne)

end

theorem procExecve : Waits (k.procExecve p) q :=
  ((h.condemn false hGroup).modify_of_ne .renew hne).vforkWakeParent p

end

section

variable (h : Waits k q)
include h

theorem procClone (hne : q ≠ p) (thread vfork admitted : Bool) (weight : BitVec 32) :
    Waits (k.procClone p thread vfork admitted weight) q := by
  refine h.congr ?_
  cases hFree : k.freeSlot with
  | none =>
    unfold Kernel.procClone newTask
    rw [hFree]
  | some i =>
    have hqi : q ≠ i := fun hEq => h.alive.1 (hEq ▸ state_freeSlot hFree)
    rw [(closed_of_ne q).procClone hFree hqi.symm hne.symm
      (fun k' c r hr => ?_) vfork admitted q rfl, procs_procAlloc_of_ne k hqi]
    rw [hr, procs_modify_of_ne _ _ hqi, cgAttach, procs_setCg, procs_modify_of_ne _ _ hqi]

theorem slotRelease (p : ℕ) : Waits (k.slotRelease p) q := by
  unfold Kernel.slotRelease
  dsimp only
  split
  · exact h
  next hFree =>
    refine h.modify_of_ne _ fun hEq => hFree (.inr (.inr ?_))
    rw [← hEq]
    exact h.1

theorem procWaitpid (hne : q ≠ p) (pid : ℤ) (untraced nohang : Bool) :
    Waits (k.procWaitpid p pid untraced nohang) q := by
  unfold Kernel.procWaitpid
  split
  next c _ =>
    split
    · refine List.foldlRecOn (motive := (Waits · q)) _ _ (h.slotRelease c) fun k' h' j _ => ?_
      unfold sweepOne
      split
      · exact h'.slotRelease j
      · exact h'
    · exact h.modify c fun _ => ⟨rfl, rfl, rfl⟩
  next =>
    split
    · exact h
    · exact h.modify_of_ne _ hne

theorem procSignal (hSig : sig = sigcont ∨ (k.procs q).sigIgnored &&& sigmask sig ≠ 0) :
    Waits (k.procSignal q sig) q := by
  have hNot : (k.procs q).state ≠ .stopped := by rw [h.1]; decide
  unfold Kernel.procSignal
  dsimp only
  split
  · exact h
  · split
    · exact h.modify q fun _ => ⟨rfl, rfl, rfl⟩
    next hCont =>
      rw [if_pos (hSig.resolve_left hCont)]
      exact h

end

end Waits

end Kernel

namespace Kernel

variable {k k' : Kernel} {p q : ℕ}

/-! ### The table -/

section

variable (k)

@[simp] theorem roster_notify (pid : ℤ) : (k.notify pid).roster = k.roster := by
  unfold notify
  dsimp only
  split
  · rfl
  · split
    · rw [roster_schedWake, roster_procSignal]
    · exact roster_procSignal k _ _

theorem traced_notify (pid : ℤ) (q : ℕ) : ((k.notify pid).procs q).traced = (k.procs q).traced := by
  have hClosed : Closed (fun _ => True) fun k k' => ∀ q, True →
      (k'.procs q).traced = (k.procs q).traced :=
    .same (fun x => x.traced) (fun _ _ h => by rw [h.tracing]) fun _ _ hf => by
      cases hf <;> exact fun _ => rfl
  exact hClosed.notify k pid (fun _ _ => trivial) q trivial

end

theorem roster_ptraceStop (h : Alive k p) (sig : ℕ) : (k.ptraceStop p sig).roster = k.roster := by
  have hBegin : (k.modify p (.beginStop sig)).roster = k.roster := roster_modify_of_eq _ rfl
  unfold ptraceStop
  rw [roster_block, roster_notify, hBegin]
  exact (alive_congr (by rw [roster_notify, hBegin])).mpr h

theorem waits_ptraceStop (h : (k.procs p).traced) (sig : ℕ) : Waits (k.ptraceStop p sig) p := by
  unfold ptraceStop Waits
  rw [procs_modify_self]
  refine ⟨rfl, rfl, ?_⟩
  show ((notify _ _).procs p).traced
  rw [traced_notify, procs_modify_self]
  exact h

theorem roster_jobStopped (h : Alive k p) (sig : ℕ) :
    ((k.modify p (.takeSignal sig)).modify p (.jobStopped sig)).roster = k.roster := by
  have hTake : (k.modify p (.takeSignal sig)).roster = k.roster := roster_modify_of_eq _ rfl
  rw [roster_modify_of_eq, hTake]
  have hAlive : Alive (k.modify p (.takeSignal sig)) p := (alive_congr (by rw [hTake])).mpr h
  exact memberOf_of_alive rfl hAlive ⟨nofun, nofun⟩

section

variable (h : Waits k q)
include h

theorem Waits.ptraceStop (hne : q ≠ p) (sig : ℕ)
    (hTracer : k.procByPid (k.procs p).tracerPid ≠ some q) : Waits (k.ptraceStop p sig) q := by
  have hBegin : (k.modify p (.beginStop sig)).roster = k.roster := roster_modify_of_eq _ rfl
  refine ((h.modify_of_ne _ hne).notify ?_).modify_of_ne _ hne
  rw [procByPid_eq_find, hBegin, ← procByPid_eq_find, procs_modify_self]
  exact hTracer

theorem Waits.stopCurrent (hAlive : Alive k p) (hne : q ≠ p) (sig : ℕ)
    (hParent : k.procByPid (k.procs p).ppid ≠ some q) : Waits (k.stopCurrent p sig) q := by
  refine ((h.modify_of_ne _ hne).modify_of_ne _ hne).notify ?_
  rw [procByPid_eq_find, roster_jobStopped hAlive, ← procByPid_eq_find, procs_modify_self,
    procs_modify_self]
  exact hParent

end

/-- The table stays, and so does every task that waits but the one that is let go. -/
def Frees (freed : Option ℕ) (k k' : Kernel) : Prop :=
  k'.roster = k.roster ∧ ∀ q, freed ≠ some q → Waits k q → Waits k' q

namespace Frees

variable {freed : Option ℕ} {t : ℕ}

theorem refl (freed : Option ℕ) (k : Kernel) : Frees freed k k := ⟨rfl, fun _ _ h => h⟩

theorem trans {k'' : Kernel} (h : Frees freed k k') (h' : Frees freed k' k'') : Frees freed k k'' :=
  ⟨h'.1.trans h.1, fun q hq hWaits => h'.2 q hq (h.2 q hq hWaits)⟩

theorem only (hRoster : k'.roster = k.roster) (hOther : ∀ q ≠ t, k'.procs q = k.procs q) :
    Frees (some t) k k' :=
  ⟨hRoster, fun q hq h => h.congr (hOther q fun hEq => hq (congrArg some hEq.symm))⟩

theorem modify (f : Proc → Proc) (hf : memberOf (f (k.procs t)) = memberOf (k.procs t)) :
    Frees (some t) k (k.modify t f) :=
  only (roster_modify_of_eq f hf) fun _ hq => procs_modify_of_ne _ _ hq

theorem unpark (k : Kernel) (t : ℕ) : Frees (some t) k (k.unpark t) := by
  unfold Kernel.unpark
  split
  · exact only (roster_schedWake k t) (touches_schedWake k t).other
  · exact refl _ k

theorem ptraceResume (k : Kernel) (t : ℕ) (mode : RunMode) (sig : ℤ) :
    let r := k.ptraceResume t mode sig
    Frees r.1 k r.2 := by
  unfold Kernel.ptraceResume
  split
  · exact refl none k
  · exact (modify _ rfl).trans (unpark _ t)

theorem tracerRequest (k : Kernel) (t : ℕ) (request : Request) :
    let r := k.tracerRequest t request
    Frees r.1 k r.2 := by
  cases request with
  | cont sig => exact ptraceResume k t .cont sig
  | syscall sig => exact ptraceResume k t .syscall sig
  | kill =>
    refine ((modify .clearStopped rfl).trans (unpark _ t)).trans ?_
    exact only (roster_procSignal _ t sigkill) fun _ hq => procs_procSignal_of_ne _ sigkill hq
  | detach sig =>
    have hResume := ptraceResume k t .cont sig
    show Frees (k.ptraceDetach t sig).1 k (k.ptraceDetach t sig).2
    unfold ptraceDetach
    generalize k.ptraceResume t .cont sig = done at hResume
    obtain ⟨_ | t', k'⟩ := done
    · exact hResume
    · exact hResume.trans (modify .detached rfl)
  | setoptions sysGood => exact ⟨roster_modify_of_eq _ rfl,
      fun _ _ h => h.modify t fun _ => ⟨rfl, rfl, rfl⟩⟩
  | traceme | attach => exact refl none k

/-- A task that waits in a stop is not the caller, and is traced already. -/
theorem sysPtrace {self : ℕ} (hRun : (k.procs self).state = .running) (pid : ℤ)
    (request : Request) : let r := k.sysPtrace self pid request
    Frees r.1 k r.2 := by
  have hTraced : ∀ t tracer, (k.modify t (.beTraced tracer)).roster = k.roster := fun t tracer =>
    roster_modify_of_eq _ rfl
  unfold Kernel.sysPtrace
  split
  · split
    · exact refl none k
    · refine ⟨hTraced self _, fun q _ h => h.modify_of_ne _ fun hEq => ?_⟩
      exact absurd (h.1.symm.trans (hEq ▸ hRun)) (by decide)
  · split
    · exact refl none k
    next t _ =>
      split
      · unfold ptraceAttach
        split
        · exact refl none k
        next hNew =>
          refine ⟨by rw [roster_procSignal, hTraced], fun q _ h => ?_⟩
          have hqt : q ≠ t := fun hEq => hNew (.inr (.inr (.inr (hEq ▸ h.2.2))))
          exact (h.modify_of_ne _ hqt).congr (procs_procSignal_of_ne _ sigstop hqt)
      · split
        · exact refl none k
        · exact tracerRequest k t request

end Frees

/-- No task is marked as being past the entry stop of its system call. -/
def Phaseless (k : Kernel) : Prop := ∀ q, (k.procs q).ptraceSyscallPhase = false

theorem stable_phase : Proc.Stable fun x => x.ptraceSyscallPhase = false where
  drift x y h hx := by
    cases h with
    | entity _ _ hTracing => rw [hTracing, hx]
    | _ => exact hx
  fresh _ := rfl
  inherit _ _ _ _ hx := hx

theorem phaseless_exec (h : k.Phaseless) (op : TaskOp) : (op.exec k).Phaseless :=
  op.stable_exec stable_phase h

namespace Phaseless

theorem modify (h : k.Phaseless) (p : ℕ) (f : Proc → Proc)
    (hf : ∀ x, (f x).ptraceSyscallPhase = x.ptraceSyscallPhase) : (k.modify p f).Phaseless := by
  intro q
  by_cases hqp : q = p
  · rw [hqp, procs_modify_self, hf]
    exact h p
  · rw [procs_modify_of_ne _ _ hqp]
    exact h q

theorem notify (h : k.Phaseless) (pid : ℤ) : (k.notify pid).Phaseless :=
  (closed_of_stable stable_phase).notify k pid (fun _ _ => trivial) h

theorem stopCurrent (h : k.Phaseless) (p sig : ℕ) : (k.stopCurrent p sig).Phaseless :=
  ((h.modify p (.takeSignal sig) fun _ => rfl).modify p (.jobStopped sig) fun _ => rfl).notify _

theorem ptraceStop (h : ∀ q ≠ p, (k.procs q).ptraceSyscallPhase = false) (sig : ℕ) :
    (k.ptraceStop p sig).Phaseless := by
  have hBegin : (k.modify p (.beginStop sig)).Phaseless := fun q => by
    by_cases hqp : q = p
    · rw [hqp, procs_modify_self]
      rfl
    · rw [procs_modify_of_ne _ _ hqp]
      exact h q hqp
  exact (hBegin.notify _).modify p (.block .child) fun _ => rfl

section

variable (h : k.Phaseless)
include h

theorem unpark (t : ℕ) : (k.unpark t).Phaseless := by
  unfold Kernel.unpark
  split
  · exact phaseless_exec h (.wake t)
  · exact h

theorem ptraceResume (t : ℕ) (mode : RunMode) (sig : ℤ) :
    (k.ptraceResume t mode sig).2.Phaseless := by
  unfold Kernel.ptraceResume
  split
  · exact h
  · exact (h.modify t (.resumed mode sig) fun _ => rfl).unpark t

theorem tracerRequest (t : ℕ) (request : Request) : (k.tracerRequest t request).2.Phaseless := by
  cases request with
  | cont sig => exact h.ptraceResume t .cont sig
  | syscall sig => exact h.ptraceResume t .syscall sig
  | kill =>
    exact phaseless_exec ((h.modify t .clearStopped fun _ => rfl).unpark t) (.signal t sigkill)
  | detach sig =>
    have hResume := h.ptraceResume t .cont sig
    show (k.ptraceDetach t sig).2.Phaseless
    unfold ptraceDetach
    generalize k.ptraceResume t .cont sig = done at hResume
    obtain ⟨_ | t', k'⟩ := done
    · exact hResume
    · exact hResume.modify t' .detached fun _ => rfl
  | setoptions sysGood => exact h.modify t (.setSysGood sysGood) fun _ => rfl
  | traceme | attach => exact h

theorem sysPtrace (self : ℕ) (pid : ℤ) (request : Request) :
    (k.sysPtrace self pid request).2.Phaseless := by
  unfold Kernel.sysPtrace
  split
  · split
    · exact h
    · exact h.modify self (.beTraced _) fun _ => rfl
  · split
    · exact h
    next t _ =>
      split
      · unfold ptraceAttach
        split
        · exact h
        · exact phaseless_exec (h.modify t (.beTraced _) fun _ => rfl) (.signal t sigstop)
      · split
        · exact h
        · exact h.tracerRequest t request

end

end Phaseless

theorem roster_stopCurrent (h : Alive k p) (sig : ℕ) : (k.stopCurrent p sig).roster = k.roster := by
  unfold stopCurrent
  rw [roster_notify, roster_jobStopped h]

end Kernel

namespace Tracees

variable {s : Tracees} {p q : ℕ}

/-! ### The invariant -/

/-- What is known of the system call that a task is in: it stops at its beginning only. -/
def Place.Counted : Place → Prop
  | .outside | .inStop .signal _ => True
  | .inCall c => c.exits = 0 ∧ c.entries = if c.under then 1 else 0
  | .inStop .entry c => c.exits = 0 ∧ c.entries = if c.under then 1 else 0
  | .inStop .exit _ => False

/-- `ptrace_stop` clears the mark that `ptrace_syscall_enter` sets before it. -/
structure Tally (s : Tracees) : Prop where
  phase : s.k.Phaseless
  counted : ∀ q, Place.Counted (s.place q)

structure Inv (s : Tracees) : Prop extends Tally s where
  held : ∀ q, Kernel.Alive s.k q → s.Held q → Kernel.Waits s.k q

theorem Free.running (h : s.Free p) (hLiving : (s.k.procs p).state ≠ .zombie) :
    (s.k.procs p).state = .running := h.1.resolve_right hLiving

theorem Enabled.taskOp (h : s.Enabled (.task op)) (hLiving : op.Living s.k) : op.Enabled s.k := by
  cases op with
  | fork | clone | execve | exit | exitGroup | waitpid | block => exact h.running (hLiving _ rfl)
  | preempt | dispatch => exact h
  | stop => exact h.elim
  | wake | signal => trivial

theorem Held.ne_of_free (h : s.Held q) (hFree : s.Free p) : q ≠ p := fun hEq => by
  rw [← hEq] at hFree
  exact absurd (h.1.symm.trans hFree.2) (by decide)

theorem waits_task (hOn : s.Enabled (.task op)) (hBoth : s.Careful (.task op)) (hHeld : s.Held q)
    (hKill : op ≠ .signal q sigkill) (h : Kernel.Waits s.k q) :
    Kernel.Waits (op.exec s.k) q ∨ ¬ Kernel.Alive (op.exec s.k) q := by
  obtain ⟨hLiving, hCareful⟩ := hBoth
  have hDead : ∀ {k : Kernel}, (k.procs q).state = .zombie → ¬ Alive k q := fun hZ hA => hA.2 hZ
  have hParent : ∀ {pid}, s.NotHeld pid → s.k.procByPid pid ≠ some q := fun hNot hFind =>
    hNot q hFind hHeld
  have hOther : ∀ {p st}, (s.k.procs p).state = st → st ≠ .blocked → q ≠ p := by
    rintro p st hState hSt rfl
    exact hSt (hState.symm.trans h.1)
  cases op with
  | fork p admitted weight =>
    rw [TaskOp.exec, procFork_eq]
    exact .inl (h.procClone (hHeld.ne_of_free hOn) false false admitted weight)
  | clone p thread vfork admitted weight =>
    exact .inl (h.procClone (hHeld.ne_of_free hOn) thread vfork admitted weight)
  | execve p =>
    exact .inl (h.procExecve (hHeld.ne_of_free hOn) fun hEq => hCareful q hEq hHeld)
  | exit p status =>
    exact (h.procExit (hHeld.ne_of_free hOn) (fun hEq => hCareful.1 q hEq hHeld)
      (hParent hCareful.2)
      (alive_of_running (hOn.running (hLiving p rfl))).1 status).imp_right hDead
  | exitGroup p status =>
    exact (h.procExitGroup (hHeld.ne_of_free hOn) (fun hEq => hCareful.1 q hEq hHeld)
      (hParent hCareful.2) (alive_of_running (hOn.running (hLiving p rfl))).1 status).imp_right
      hDead
  | waitpid p pid untraced nohang =>
    exact .inl (h.procWaitpid (hHeld.ne_of_free hOn) pid untraced nohang)
  | block p why => exact .inl (h.modify_of_ne _ (hHeld.ne_of_free hOn))
  | stop p => exact hOn.elim
  | preempt p => exact .inl (h.of_touches (touches_putPrev s.k p) (hOther hOn (by decide)))
  | dispatch p =>
    have hne : q ≠ p := hOther hOn (by decide)
    exact .inl ((h.of_touches (touches_rqRemove s.k p) hne).modify_of_ne _ hne)
  | wake p =>
    refine .inl (h.of_touches (touches_schedWake s.k p) fun hEq => ?_)
    subst hEq
    exact hCareful hHeld h.1
  | signal p sig =>
    by_cases hqp : q = p
    · subst hqp
      refine .inl (h.procSignal ((hCareful hHeld).resolve_left fun hEq => hKill ?_))
      rw [hEq]
    · exact .inl (h.congr (procs_procSignal_of_ne s.k sig hqp))

theorem released_execTask (h : (s.execTask op).released q = false) :
    s.released q = false ∧ op ≠ .signal q sigkill := by
  cases op with
  | signal p sig =>
    by_cases hqp : q = p
    · subst hqp
      change update s.released q _ q = false at h
      rw [update_self, Bool.or_eq_false_iff, decide_eq_false_iff_not] at h
      exact ⟨h.1, fun hEq => h.2 (signal.inj hEq).2⟩
    · change update s.released p _ q = false at h
      rw [update_of_ne hqp] at h
      exact ⟨h, fun hEq => hqp (signal.inj hEq).1.symm⟩
  | fork | clone | execve | exit | exitGroup | waitpid | block | stop | preempt | dispatch | wake =>
    exact ⟨h, by simp⟩

theorem place_execTask (s : Tracees) (op : Kernel.TaskOp) (q : ℕ) :
    op.newborn s.k = some q ∧ (s.execTask op).place q = .outside ∨
      op.newborn s.k ≠ some q ∧ (s.execTask op).place q = s.place q := by
  unfold execTask
  cases hNew : op.newborn s.k with
  | none => exact .inr ⟨by simp, rfl⟩
  | some i =>
    by_cases hqi : q = i
    · exact .inl ⟨by rw [hqi], by rw [hqi]; exact update_self _ _ _⟩
    · exact .inr ⟨fun hEq => hqi (Option.some.inj hEq).symm, update_of_ne hqi _ _⟩

namespace Tally

section

variable (h : Tally s) {place : Place}
include h

theorem of_place {s' : Tracees} (hPhase : s'.k.Phaseless)
    (hPlace : s'.place = update s.place p place) (hCounted : Place.Counted place) : Tally s' := by
  refine ⟨hPhase, fun q => ?_⟩
  rw [hPlace]
  by_cases hqp : q = p
  · rw [hqp, update_self]
    exact hCounted
  · rw [update_of_ne hqp]
    exact h.counted q

/-- The handler of a system call returns without a stop. -/
theorem execFinish_eq {c : CallRec} (hPlace : s.place p = .inCall c) :
    s.execFinish p = s.move p .outside := by
  unfold execFinish
  rw [hPlace]
  simp [h.phase p]

theorem exec (op : Op) : Tally (s.exec op) := by
  cases op with
  | task op =>
    refine ⟨phaseless_exec h.phase op, fun q => ?_⟩
    obtain ⟨-, hOut⟩ | ⟨-, hSame⟩ := s.place_execTask op q
    · exact hOut ▸ trivial
    · exact hSame ▸ h.counted q
  | jobStop p sig => exact ⟨h.phase.stopCurrent p sig, h.counted⟩
  | enter p =>
    show Tally (s.execEnter p)
    unfold execEnter
    dsimp only
    split
    · refine h.of_place (Phaseless.ptraceStop (fun q hqp => ?_) _) rfl ⟨rfl, rfl⟩
      rw [procs_modify_of_ne _ _ hqp]
      exact h.phase q
    · exact h.of_place h.phase rfl ⟨rfl, rfl⟩
  | finish p =>
    show Tally (s.execFinish p)
    cases hPlace : s.place p with
    | inCall c =>
      rw [h.execFinish_eq hPlace]
      exact h.of_place h.phase rfl trivial
    | outside | inStop =>
      unfold execFinish
      rw [hPlace]
      exact h
  | signalStop p sig =>
    refine h.of_place (Phaseless.ptraceStop (fun q hqp => ?_) _) rfl trivial
    rw [procs_modify_of_ne _ _ hqp]
    exact h.phase q
  | leave p =>
    show Tally (s.execLeave p)
    unfold execLeave
    split
    next site c hPlace =>
      refine h.of_place (h.phase.modify p .endStop fun _ => rfl) rfl ?_
      have hCounted := h.counted p
      rw [hPlace] at hCounted
      split
      next hEntry =>
        rw [hEntry] at hCounted
        exact hCounted
      next => trivial
    next => exact h
  | ptrace self pid request => exact ⟨h.phase.sysPtrace self pid request, h.counted⟩

end

theorem start (h : s.Start) : Tally s := ⟨h.phase, fun q => h.place q ▸ trivial⟩

end Tally

namespace Inv

section

variable (h : Inv s) {place : Place}
include h

theorem task (hOn : s.Enabled (.task op)) (hCareful : s.Careful (.task op)) :
    Inv (s.execTask op) := by
  refine ⟨h.toTally.exec (.task op), fun q hAlive hHeld => ?_⟩
  obtain ⟨-, hOut⟩ | ⟨hOld, hSame⟩ := s.place_execTask op q
  · exact absurd (hOut ▸ hHeld.1) (by decide)
  · obtain ⟨hReleased, hKill⟩ := released_execTask hHeld.2
    have hOldHeld : s.Held q := ⟨hSame ▸ hHeld.1, hReleased⟩
    have hWaits := h.held q (alive_of_exec (hOn.taskOp hCareful.1) hOld hAlive) hOldHeld
    exact (waits_task hOn hCareful hOldHeld hKill hWaits).resolve_right (not_not.mpr hAlive)

/-- A step that gives `p` another place. -/
theorem of_place {s' : Tracees} (hTally : Tally s') (hPlace : s'.place = update s.place p place)
    (hSelf : s'.Held p → Kernel.Waits s'.k p) (hReleased : ∀ q ≠ p, s'.released q = s.released q)
    (hAlive : ∀ q, Kernel.Alive s'.k q → Kernel.Alive s.k q)
    (hOther : ∀ q ≠ p, s.Held q → Kernel.Waits s.k q → Kernel.Waits s'.k q) : Inv s' := by
  have hSame : ∀ q ≠ p, s'.place q = s.place q := fun q hqp => by rw [hPlace, update_of_ne hqp]
  refine ⟨hTally, fun q hq hHeld => ?_⟩
  by_cases hqp : q = p
  · rw [hqp] at hHeld ⊢
    exact hSelf hHeld
  · have hOld : s.Held q := ⟨hSame q hqp ▸ hHeld.1, hReleased q hqp ▸ hHeld.2⟩
    exact hOther q hqp hOld (h.held q (hAlive q hq) hOld)

theorem halt {k : Kernel} {site : Site} {c : CallRec} (hTally : Tally (s.halt k p sig site c))
    (hAlive : Kernel.Alive s.k p) (hRoster : k.roster = s.k.roster)
    (hOther : ∀ q ≠ p, k.procs q = s.k.procs q) (hTraced : (k.procs p).traced)
    (hTracer : (k.procs p).tracerPid = (s.k.procs p).tracerPid)
    (hNotHeld : s.NotHeld (s.k.procs p).tracerPid) : Inv (s.halt k p sig site c) := by
  have hAlive' : Alive k p := (alive_congr (by rw [hRoster])).mpr hAlive
  refine h.of_place hTally rfl (fun _ => waits_ptraceStop hTraced sig)
    (fun q hqp => update_of_ne hqp _ _) (fun q hq => (alive_congr ?_).mp hq)
    fun q hqp hHeld hWaits => ?_
  · show (k.ptraceStop p sig).roster.member q = _
    rw [roster_ptraceStop hAlive', hRoster]
  · refine (hWaits.congr (hOther q hqp)).ptraceStop hqp sig fun hFind => ?_
    rw [hTracer, procByPid_eq_find, hRoster, ← procByPid_eq_find] at hFind
    exact hNotHeld q hFind hHeld

theorem move {k : Kernel} (hTally : Tally { s.move p place with k := k })
    (hRoster : k.roster = s.k.roster) (hOther : ∀ q ≠ p, k.procs q = s.k.procs q)
    (hOut : place.stopped = false) : Inv { s.move p place with k := k } := by
  refine h.of_place hTally rfl (fun hHeld => ?_) (fun _ _ => rfl)
    (fun q hq => (alive_congr (by rw [hRoster])).mp hq)
    fun q hqp _ hWaits => hWaits.congr (hOther q hqp)
  have hStopped : (update s.place p place p).stopped := hHeld.1
  rw [update_self, hOut] at hStopped
  exact absurd hStopped (by decide)

theorem enter (hOn : s.Enabled (.enter p)) (hCareful : s.Careful (.enter p)) :
    Inv (s.execEnter p) := by
  have hTally : Tally (s.execEnter p) := h.toTally.exec (.enter p)
  unfold execEnter at hTally ⊢
  dsimp only at hTally ⊢
  split at hTally
  next hUnder =>
    rw [if_pos hUnder]
    unfold Proc.underSyscall at hUnder
    rw [Bool.and_eq_true] at hUnder
    refine h.halt hTally (alive_of_running (hOn.1.running (hCareful.1 p rfl)))
      (roster_modify_of_eq _ rfl) (fun q hqp => procs_modify_of_ne _ _ hqp) ?_ ?_ hCareful.2
    · rw [procs_modify_self]
      exact hUnder.1
    · rw [procs_modify_self]
      rfl
  next hUnder =>
    rw [if_neg hUnder]
    exact h.move hTally rfl (fun _ _ => rfl) rfl

theorem finish (p : ℕ) : Inv (s.execFinish p) := by
  have hTally : Tally (s.execFinish p) := h.toTally.exec (.finish p)
  cases hPlace : s.place p with
  | inCall c =>
    rw [h.toTally.execFinish_eq hPlace] at hTally ⊢
    exact h.move hTally rfl (fun _ _ => rfl) rfl
  | outside | inStop =>
    unfold execFinish
    rw [hPlace]
    exact h

theorem leave (p : ℕ) : Inv (s.execLeave p) := by
  have hTally : Tally (s.execLeave p) := h.toTally.exec (.leave p)
  unfold execLeave at hTally ⊢
  split at hTally
  next site c hPlace =>
    refine h.move hTally (roster_modify_of_eq _ rfl) (fun q hqp => procs_modify_of_ne _ _ hqp) ?_
    split <;> rfl
  next => exact h

theorem signalStop (hOn : s.Enabled (.signalStop p sig))
    (hCareful : s.Careful (.signalStop p sig)) : Inv (s.exec (.signalStop p sig)) := by
  refine h.halt (h.toTally.exec (.signalStop p sig))
    (alive_of_running (hOn.1.running (hCareful.1 p rfl))) (roster_modify_of_eq _ rfl)
    (fun q hqp => procs_modify_of_ne _ _ hqp) ?_ ?_ hCareful.2
  · rw [procs_modify_self]
    exact hOn.2.2.1
  · rw [procs_modify_self]
    rfl

theorem jobStop (hOn : s.Free p) (hCareful : s.Careful (.jobStop p sig)) :
    Inv (s.exec (.jobStop p sig)) := by
  have hAlive := alive_of_running (hOn.running (hCareful.1 p rfl))
  refine ⟨h.toTally.exec _, fun q hq hHeld => ?_⟩
  have hq' : Alive s.k q := (alive_congr (by rw [← roster_stopCurrent hAlive sig]; rfl)).mp hq
  have hOldHeld : s.Held q := hHeld
  exact (h.held q hq' hOldHeld).stopCurrent hAlive (hOldHeld.ne_of_free hOn) sig fun hFind =>
    hCareful.2 q hFind hOldHeld

theorem ptrace {self : ℕ} (hRun : (s.k.procs self).state = .running) (pid : ℤ)
    (request : Kernel.Request) : Inv (s.execPtrace self pid request) := by
  have hTally : Tally (s.execPtrace self pid request) := h.toTally.exec (.ptrace self pid request)
  obtain ⟨hRoster, hWaits⟩ := Frees.sysPtrace hRun pid request
  unfold execPtrace at hTally ⊢
  generalize s.k.sysPtrace self pid request = r at hRoster hWaits hTally
  obtain ⟨freed, k⟩ := r
  refine ⟨hTally, fun q hq hHeld => ?_⟩
  obtain ⟨hStopped, hReleased⟩ := hHeld
  have hFreed : freed ≠ some q ∧ s.released q = false := by
    cases freed with
    | none => exact ⟨nofun, hReleased⟩
    | some t =>
      have hqt : q ≠ t := by
        rintro rfl
        simp at hReleased
      exact ⟨fun hEq => hqt (Option.some.inj hEq).symm,
        (update_of_ne hqt true s.released).symm.trans hReleased⟩
  have hAlive : Alive s.k q := (alive_congr (congrArg (·.member q) hRoster)).mp hq
  exact hWaits q hFreed.1 (h.held q hAlive ⟨hStopped, hFreed.2⟩)

theorem exec {op : Op} (hOn : s.Enabled op) (hCareful : s.Careful op) : Inv (s.exec op) := by
  cases op with
  | task op => exact h.task hOn hCareful
  | jobStop p sig => exact h.jobStop hOn hCareful
  | enter p => exact h.enter hOn hCareful
  | finish p => exact h.finish p
  | signalStop p sig => exact h.signalStop hOn hCareful
  | leave p => exact h.leave p
  | ptrace self pid request => exact h.ptrace (hOn.running (hCareful.1 self rfl)) pid request

end

theorem start (h : s.Start) : Inv s where
  toTally := Tally.start h
  held q _ hHeld := by
    have hStopped := hHeld.1
    rw [h.place q] at hStopped
    exact absurd hStopped (by decide)

theorem leaves (h : Inv s) (hOn : s.Enabled (.leave p)) : s.released p := by
  by_contra hNot
  have hWaits := h.held p (alive_of_running hOn.1) ⟨hOn.2, Bool.eq_false_iff.mpr hNot⟩
  exact absurd (hOn.1.symm.trans hWaits.1) (by decide)

end Inv

/-! ### Runs -/

def untraced : Tracees := ⟨initKernel, fun _ => .outside, fun _ => false⟩

end Tracees

end Gnos
