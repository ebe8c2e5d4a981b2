import Gnos.Signal.Frame
import Gnos.Vmm.Spaces

/-! Signal delivery and `rt_sigreturn` of `src/kernel/signal.c`.  User memory is what the kernel
sees through the task's address space; the fault handler may back a page while the kernel stores to
it. -/

namespace Gnos.Signal

open ProofKit Vmm

def userStackTop : ℕ := 0x0000700000000000

def userStackSize : ℕ := 64 * pageSize

def fpstateSize : ℕ := 512
def mxcsrOffset : ℕ := 24
def mxcsrValid : BitVec 32 := 0x0000FFBF

/-- `RFLAGS_USER`: the flags that a program may choose. -/
def rflagsUser : Word := 0x00240CD5

/-- `RFLAGS_FIXED`: the flags that the kernel sets in every frame. -/
def rflagsFixed : Word := 0x202
def saOnstack : Word := 0x08000000
def saRestart : Word := 0x10000000
def saNodefer : Word := 0x40000000
def saResethand : Word := 0x80000000
def ssDisable : BitVec 32 := 2
def syscallVector : Word := 0x80
def eIntr : ℕ := 4
def sigkill : ℕ := 9
def sigsegv : ℕ := 11
def sigstop : ℕ := 19

def sigmask (sig : ℕ) : Word := 1 <<< (sig - 1)

/-- `SIGMASK(SIGKILL) | SIGMASK(SIGSTOP)`. -/
def sigUncatchable : Word := sigmask sigkill ||| sigmask sigstop

structure SigAct where
  handler : Word := 0
  flags : Word := 0
  restorer : Word := 0
  mask : Word := 0
  deriving DecidableEq

structure Task where
  sigact : ℕ → SigAct
  sigMask : Word
  sigSavedMask : Word
  sigRestoreMask : Bool
  altSsSp : Word
  altSsSize : Word
  altSsFlags : BitVec 32
  /-- The number of the call that the trap came in with, a signed word. -/
  syscallNr : Word
  termSig : ℕ
  as : Option UserView
  /-- The image that `fxsave` writes. -/
  fpu : List (BitVec 8)

/-- A task in the kernel: its trap frame and the user memory that the kernel reaches. -/
structure Ctx where
  task : Task
  regs : Regs
  mem : Mem

def onUserStack (addr : Word) (len : ℕ) : Bool :=
  userStackTop - userStackSize ≤ addr.toNat && addr.toNat < userStackTop &&
    addr.toNat + len ≤ userStackTop

/-- `never_restarts`: sigsuspend, poll, ppoll, select and pselect6.  The parameter is an `int`. -/
def neverRestarts (nr : BitVec 32) : Bool :=
  nr = 130 || nr = 7 || nr = 271 || nr = 23 || nr = 270

variable (p : Task) (r : Regs) (sig : ℕ)

/-- The conditions under which `maybe_restart_syscall` rewinds. -/
def restarts : Bool :=
  r.vector = syscallVector && 0 ≤ p.syscallNr.toInt && r.rax.toInt = -(eIntr : ℤ) &&
    (p.sigact sig).flags &&& saRestart ≠ 0 && !neverRestarts (p.syscallNr.setWidth 32)

def maybeRestartSyscall : Regs :=
  if restarts p r sig then { r with rax := p.syscallNr, rip := r.rip - 2 } else r

/-- The two areas carved below `top`: the `fxsave` image, and the frame at 8 modulo 16. -/
def carveFp (top : Word) : Word := (top - 128 - 512) &&& ~~~63

def carveBase (top : Word) : Word := ((carveFp top - 440) &&& ~~~15) - 8

/-- The frame is carved from the alternate stack: the disposition asks for it, there is one, and
both areas are memory that the kernel may store to. -/
def onAlt : Bool :=
  let atop := p.altSsSp + p.altSsSize
  (p.sigact sig).flags &&& saOnstack ≠ 0 && p.altSsSp ≠ 0 && p.altSsSize ≠ 0 &&
    p.altSsFlags &&& ssDisable = 0 &&
    UserView.bufOk p.as (carveBase atop).toNat frameSize true &&
    UserView.bufOk p.as (carveFp atop).toNat fpstateSize true

def carveTop : Word :=
  if onAlt p sig then p.altSsSp + p.altSsSize else r.rsp

/-- The mask to come back to: the one in force, or the one that sigsuspend saved. -/
def retmask : Word := if p.sigRestoreMask then p.sigSavedMask else p.sigMask

def saveContext (oldmask fp : Word) : SigContext where
  r8 := r.r8
  r9 := r.r9
  r10 := r.r10
  r11 := r.r11
  r12 := r.r12
  r13 := r.r13
  r14 := r.r14
  r15 := r.r15
  rdi := r.rdi
  rsi := r.rsi
  rbp := r.rbp
  rbx := r.rbx
  rdx := r.rdx
  rax := r.rax
  rcx := r.rcx
  rsp := r.rsp
  rip := r.rip
  eflags := r.rflags
  cs := r.cs.setWidth 16
  ss := r.ss.setWidth 16
  err := r.errcode
  trapno := r.vector
  oldmask := oldmask
  fpstate := fp

/-- The frame for `sig`; `r` has been rewound already. -/
def buildFrame : RtSigframe where
  pretcode := (p.sigact sig).restorer
  ssSp := if onAlt p sig then p.altSsSp else 0
  ssFlags := if onAlt p sig then 0 else ssDisable
  ssSize := if onAlt p sig then p.altSsSize else 0
  ucMcontext := saveContext r (retmask p) (carveFp (carveTop p r sig))
  ucSigmask := retmask p
  siSigno := BitVec.ofNat 32 sig
  siCode := 0

def handlerMask : Word :=
  let act := p.sigact sig
  let mask := p.sigMask ||| act.mask
  let mask := if act.flags &&& saNodefer = 0 then mask ||| sigmask sig else mask
  mask &&& ~~~sigUncatchable

def enterHandler : Task :=
  { p with
    sigRestoreMask := false
    sigMask := handlerMask p sig
    sigact :=
      if (p.sigact sig).flags &&& saResethand ≠ 0 then Function.update p.sigact sig {}
      else p.sigact }

/-- `signal_deliver`: false stands for -1.  The rewind of an interrupted call stays even then. -/
def signalDeliver (c : Ctx) (sig : ℕ) : Bool × Ctx :=
  let p := c.task
  let act := p.sigact sig
  let r := maybeRestartSyscall p c.regs sig
  let fp := carveFp (carveTop p r sig)
  let base := carveBase (carveTop p r sig)
  if !onAlt p sig && (!onUserStack base frameSize || !onUserStack fp fpstateSize) then
    (false, { c with regs := r })
  else
    let m := c.mem.fill base.toNat frameSize 0
    let m := m.store fp.toNat p.fpu
    let m := m.writeFields base.toNat (buildFrame p r sig).fields
    (true, {
      task := enterHandler p sig
      mem := m
      regs := { r with
        rip := act.handler
        rsp := base
        rdi := BitVec.ofNat 64 sig
        rsi := base + 312
        rdx := base + 8
        rax := 0
        -- DF and TF
        rflags := r.rflags &&& ~~~(0x400 ||| 0x100) } })

/-- How `signal_return` ends: the task goes on, or it is killed. -/
inductive Outcome where
  | resumed (c : Ctx)
  | killed (c : Ctx)

/-- The registers that `signal_return` takes from the frame. -/
def restoreRegs (sc : SigContext) : Regs :=
  { r with
    r8 := sc.r8
    r9 := sc.r9
    r10 := sc.r10
    r11 := sc.r11
    r12 := sc.r12
    r13 := sc.r13
    r14 := sc.r14
    r15 := sc.r15
    rdi := sc.rdi
    rsi := sc.rsi
    rbp := sc.rbp
    rbx := sc.rbx
    rdx := sc.rdx
    rax := sc.rax
    rcx := sc.rcx
    rip := sc.rip
    rsp := sc.rsp
    cs := selUcode
    ss := selUdata
    rflags := (sc.eflags &&& rflagsUser) ||| rflagsFixed }

/-- `fxrstor` from the area that the frame names, when it lies on the stack. -/
def restoreFpu (fp : Word) (m : Mem) (fpu : List (BitVec 8)) : Mem × List (BitVec 8) :=
  if fp ≠ 0 && fp &&& 15 = 0 && onUserStack fp fpstateSize then
    let mxcsr := m.read32 (fp.toNat + mxcsrOffset) &&& mxcsrValid
    let m := m.write32 (fp.toNat + mxcsrOffset) mxcsr
    (m, m.load fp.toNat fpstateSize)
  else (m, fpu)

/-- `p->term_sig = SIGSEGV; proc_exit(0)`. -/
def kill (c : Ctx) : Outcome := .killed { c with task := { c.task with termSig := sigsegv } }

def signalReturn (c : Ctx) : Outcome :=
  let base := c.regs.rsp - 8
  if !onUserStack base frameSize then kill c
  else
    let sc := loadContext c.mem base.toNat
    let r := restoreRegs c.regs sc
    if userLimit ≤ r.rip.toNat || userLimit ≤ r.rsp.toNat then kill { c with regs := r }
    else
      let (m, fpu) := restoreFpu sc.fpstate c.mem c.task.fpu
      .resumed {
        task := { c.task with
          sigMask := loadSigmask c.mem base.toNat &&& ~~~sigUncatchable
          fpu := fpu
          syscallNr := -1 }
        regs := r
        mem := m }

end Gnos.Signal
