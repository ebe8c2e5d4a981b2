import Gnos.ProofKit.Treap
import Gnos.Signal.Frame

/-! The process table of `src/kernel/proc.h` and the kernel state around it.  A task is the index of
its slot in `g_procs`, a cgroup the index of its slot in `g_cgs`.  The fields of `proc_t` are
grouped by the part of the kernel that owns them. -/

namespace Gnos

open ProofKit Function

inductive ProcState where
  | unused
  | ready
  | running
  | blocked
  | stopped
  | zombie
  deriving DecidableEq

inductive WaitReason where
  | none
  | child
  | tty
  | pipe
  | net
  | sleep
  | futex
  | drm
  | cgroup
  | ipc
  | vfork
  | mutex
  deriving DecidableEq

def eevdfSlice : Word := 5 * 1024

def cgNice0 : BitVec 32 := 1024

/-- Scheduling and cgroup membership; a cgroup of `none` is -1, and `cgParkNext` is a pid or -1. -/
structure Entity where
  state : ProcState := .unused
  waitReason : WaitReason := .none
  wakeTick : Word := 0
  vruntime : Word := 0
  deadline : Word := 0
  slice : Word := eevdfSlice
  lastRunTick : Word := 0
  /-- A signed word. -/
  vlag : Word := 0
  tprio : BitVec 32 := 0
  piBoost : BitVec 32 := 0
  schedWeight : BitVec 32 := cgNice0
  rqCpu : ℤ := -1
  onCpu : ℤ := -1
  cg : Option ℕ := none
  cgParkNext : ℤ := -1

structure Ident where
  pid : ℤ := 0
  ppid : ℤ := 0
  tgid : ℤ := 0
  groupDying : Bool := false
  vforkParent : ℤ := 0
  exitStatus : ℤ := 0
  termSig : ℕ := 0

structure Signals where
  sigPending : Word := 0
  sigIgnored : Word := 0
  sigMask : Word := 0
  handler : ℕ → Word := fun _ => 0

/-- `PTRACE_RUN_CONT` and `PTRACE_RUN_SYSCALL`. -/
inductive RunMode where
  | cont
  | syscall
  deriving DecidableEq

/-- Tracing; the register snapshot itself is in `Ptrace.Snapshot`. -/
structure Tracing where
  traced : Bool := false
  tracerPid : ℤ := 0
  traceSysGood : Bool := false
  ptraceMode : RunMode := .cont
  ptraceStopped : Bool := false
  ptraceSyscallPhase : Bool := false
  ptraceResumeSig : ℤ := 0
  ptraceRegsValid : Bool := false
  stopSig : ℕ := 0
  reported : Bool := false

structure SockFilter where
  code : BitVec 16
  jt : BitVec 8
  jf : BitVec 8
  k : BitVec 32
  deriving DecidableEq

inductive SeccMode where
  | disabled
  | strict
  | filter
  deriving DecidableEq

/-- System call filtering; `seccomp_len` is the length of the filter. -/
structure Confined where
  seccMode : SeccMode := .disabled
  seccompFilter : Option (List SockFilter) := none
  noNewPrivs : Bool := false
  deriving DecidableEq

/-- The modelled fields of `proc_t`.  The defaults are those of `proc_alloc`. -/
structure Proc extends Entity, Ident, Signals, Tracing, Confined

namespace Proc

def setState (s : ProcState) (p : Proc) : Proc := { p with state := s }

def block (why : WaitReason) (p : Proc) : Proc := { p with state := .blocked, waitReason := why }

def setParkNext (pid : ℤ) (p : Proc) : Proc := { p with cgParkNext := pid }

end Proc

structure Rq where
  root : Treap ℕ := .nil
  vtime : Word := 0
  minVtime : Word := 0
  count : ℕ := 0

/-- The fields of a cgroup that the cpu controller uses; a parent of `none` is -1, and `parkHead` is
a pid or -1. -/
structure CpuCgroup where
  live : Bool := false
  parent : Option ℕ := none
  usageTotal : Word := 0
  usedPeriod : Word := 0
  periodStart : Word := 0
  periodTicks : BitVec 32 := 0
  quotaTicks : Word := 0
  throttled : Bool := false
  throttleStart : Word := 0
  throttledTotal : Word := 0
  nrThrottled : BitVec 32 := 0
  nprocs : ℕ := 0
  parkHead : ℤ := -1

structure Kernel where
  procs : ℕ → Proc
  gNextPid : ℤ
  rqs : ℕ → Rq
  cgs : ℕ → CpuCgroup
  current : ℕ → Option ℕ
  cpuAllowed : ℕ → BitVec 32
  ticks : Word

def maxProcs : ℕ := 64

namespace Kernel

def modify (k : Kernel) (i : ℕ) (f : Proc → Proc) : Kernel :=
  { k with procs := Function.update k.procs i (f (k.procs i)) }

def setRq (k : Kernel) (q : ℕ) (f : Rq → Rq) : Kernel :=
  { k with rqs := Function.update k.rqs q (f (k.rqs q)) }

def setCg (k : Kernel) (c : ℕ) (f : CpuCgroup → CpuCgroup) : Kernel :=
  { k with cgs := Function.update k.cgs c (f (k.cgs c)) }

def setCurrent (k : Kernel) (cpu : ℕ) (p : Option ℕ) : Kernel :=
  { k with current := Function.update k.current cpu p }

def procByPid (k : Kernel) (pid : ℤ) : Option ℕ :=
  (List.range maxProcs).find? fun i => (k.procs i).state ≠ .unused && (k.procs i).pid = pid

/-- `int` arithmetic, which wraps. -/
def wrapInt (n : ℤ) : ℤ := (BitVec.ofInt 32 n).toInt

def freeSlot (k : Kernel) : Option ℕ :=
  (List.range maxProcs).find? fun i => (k.procs i).state = .unused

/-- `proc_alloc` in slot `i`: a cleared task with the next number, its own group leader, still
`unused`. -/
def procAlloc (k : Kernel) (i : ℕ) : Kernel :=
  let pid := k.gNextPid
  { k.modify i fun _ => { pid := pid, tgid := pid } with gNextPid := wrapInt (pid + 1) }

def slotRelease (k : Kernel) (i : ℕ) : Kernel :=
  let state := (k.procs i).state
  if state = .ready ∨ state = .running ∨ state = .blocked then k
  else k.modify i (.setState .unused)

def cgDetach (k : Kernel) (i : ℕ) : Kernel :=
  let k := match (k.procs i).cg with
    | some c => if (k.cgs c).live then k.setCg c fun g => { g with nprocs := g.nprocs - 1 } else k
    | none => k
  k.modify i fun p => { p with cg := none, cgParkNext := -1 }

/-- `cg_attach_new` of a new task, past the checks; `weight` is the `eff_weight` of the cgroup. -/
def cgAttach (k : Kernel) (i c : ℕ) (weight : BitVec 32) : Kernel :=
  (k.modify i fun p => { p with cg := some c, schedWeight := weight }).setCg c
    fun g => { g with nprocs := g.nprocs + 1 }

theorem state_freeSlot {k : Kernel} {p : ℕ} (h : k.freeSlot = some p) :
    (k.procs p).state = .unused := by
  have hFound := List.find?_some h
  exact of_decide_eq_true hFound

section Updates

variable (k : Kernel) (i j q c : ℕ) (f : Proc → Proc) (g : Rq → Rq) (h : CpuCgroup → CpuCgroup)
  (p : Option ℕ)

@[simp] theorem procs_modify_self : (k.modify i f).procs i = f (k.procs i) :=
  update_self i _ _

theorem procs_modify_of_ne {i j : ℕ} (hne : j ≠ i) : (k.modify i f).procs j = k.procs j :=
  update_of_ne hne _ _

@[simp] theorem procs_procAlloc_self :
    (k.procAlloc i).procs i = { pid := k.gNextPid, tgid := k.gNextPid } :=
  update_self i _ _

theorem procs_procAlloc_of_ne {i j : ℕ} (hne : j ≠ i) : (k.procAlloc i).procs j = k.procs j :=
  update_of_ne hne _ _

@[simp] theorem rqs_modify : (k.modify i f).rqs = k.rqs := rfl

@[simp] theorem cgs_modify : (k.modify i f).cgs = k.cgs := rfl

@[simp] theorem current_modify : (k.modify i f).current = k.current := rfl

@[simp] theorem ticks_modify : (k.modify i f).ticks = k.ticks := rfl

@[simp] theorem procs_setRq : (k.setRq q g).procs = k.procs := rfl

@[simp] theorem rqs_setRq_self : (k.setRq q g).rqs q = g (k.rqs q) := update_self q _ _

theorem rqs_setRq_of_ne {q j : ℕ} (hne : j ≠ q) : (k.setRq q g).rqs j = k.rqs j :=
  update_of_ne hne _ _

@[simp] theorem procs_setCg : (k.setCg c h).procs = k.procs := rfl

@[simp] theorem cgs_setCg_self : (k.setCg c h).cgs c = h (k.cgs c) := update_self c _ _

theorem cgs_setCg_of_ne {c j : ℕ} (hne : j ≠ c) : (k.setCg c h).cgs j = k.cgs j :=
  update_of_ne hne _ _

@[simp] theorem procs_setCurrent : (k.setCurrent c p).procs = k.procs := rfl

@[simp] theorem current_setCurrent_self : (k.setCurrent c p).current c = p :=
  update_self c _ _

theorem current_setCurrent_of_ne {c j : ℕ} (hne : j ≠ c) :
    (k.setCurrent c p).current j = k.current j :=
  update_of_ne hne _ _

end Updates

end Kernel

end Gnos
