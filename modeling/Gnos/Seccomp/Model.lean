import Gnos.Proc.Life

/-! System call filters: `src/kernel/seccomp.c` and the check in `syscall_handler`.  Log lines and
the `SIGSYS` of a trap are left out. -/

namespace Gnos

namespace Seccomp

structure Args where
  a1 : Word
  a2 : Word
  a3 : Word
  a4 : Word
  a5 : Word
  a6 : Word
  deriving DecidableEq

/-- `struct seccomp_data`; the architecture is always `AUDIT_ARCH_X86_64`. -/
structure Data where
  nr : BitVec 32
  args : Args

def auditArchX8664 : BitVec 32 := 0xC000003E

def Data.bits (d : Data) : BitVec 448 :=
  d.args.a6 ++ d.args.a5 ++ d.args.a4 ++ d.args.a3 ++ d.args.a2 ++ d.args.a1 ++
    auditArchX8664 ++ d.nr

def retKillProcess : BitVec 32 := 0
def retKillThread : BitVec 32 := 0x00010000
def retTrap : BitVec 32 := 0x00020000
def retErrno : BitVec 32 := 0x00050000
def retTrace : BitVec 32 := 0x7ff00000
def retLog : BitVec 32 := 0x7ffc0000
def retAllow : BitVec 32 := 0x7fff0000
def retActionMask : BitVec 32 := 0xffff0000

/-- Accumulator, index, scratch memory and instruction pointer. -/
structure Bpf where
  a : BitVec 32 := 0
  x : BitVec 32 := 0
  m : BitVec 32 → BitVec 32 := fun _ => 0
  ip : ℕ := 0

inductive Turn
  | next (s : Bpf)
  | ret (v : BitVec 32)

section

variable (wild : BitVec 32 → BitVec 32)

/-- The word at byte `k` of the data; `wild` is what lies beyond. -/
def load (d : Data) (k : BitVec 32) : BitVec 32 :=
  if k.toNat + 4 ≤ 56 then (d.bits >>> (8 * k.toNat)).setWidth 32 else wild k

def bpfStep (d : Data) (pc : SockFilter) (s : Bpf) : Turn :=
  let k := pc.k
  let go (s : Bpf) : Turn := .next { s with ip := s.ip + 1 }
  let jump (c : Bool) : Turn := .next { s with ip := s.ip + 1 + (if c then pc.jt else pc.jf).toNat }
  match pc.code with
  -- the sum wraps at 32 bits
  | 0x20#16 => if 56 < (k + 4).toNat then .ret retKillProcess else go { s with a := load wild d k }
  | 0x54#16 => go { s with a := s.a &&& k }
  | 0x15#16 => jump (s.a = k)
  | 0x35#16 => jump (k ≤ s.a)
  | 0x25#16 => jump (k < s.a)
  | 0x45#16 => jump (s.a &&& k ≠ 0)
  | 0x1d#16 => jump (s.a = s.x)
  | 0x3d#16 => jump (s.x ≤ s.a)
  | 0x2d#16 => jump (s.x < s.a)
  | 0x4d#16 => jump (s.a &&& s.x ≠ 0)
  | 0x07#16 => go { s with x := s.a }
  | 0x02#16 => go { s with m := if k < 16 then Function.update s.m k s.a else s.m }
  | 0x03#16 => go { s with m := if k < 16 then Function.update s.m k s.x else s.m }
  | 0x60#16 => go { s with a := if k < 16 then s.m k else 0 }
  | 0x06#16 => .ret k
  | 0x16#16 => .ret s.a
  | _ => .ret retKillProcess

def bpfLoop (insn : List SockFilter) (d : Data) : ℕ → Bpf → BitVec 32
  | 0, _ => retKillProcess
  | ticks + 1, s =>
    match insn[s.ip]? with
    | none => retKillProcess
    | some pc =>
      match bpfStep wild d pc s with
      | .next s => bpfLoop insn d ticks s
      | .ret v => v

def bpfRun (insn : List SockFilter) (d : Data) : BitVec 32 :=
  bpfLoop wild insn d (insn.length * 4 + 64) {}

def action (f : List SockFilter) (d : Data) : BitVec 32 := bpfRun wild f d &&& retActionMask

/-- The calls of strict mode: read, write, lseek, rt_sigreturn, pread64, pwrite64, readv, writev,
exit, wait4 and exit_group. -/
def strictAllows (nr : BitVec 32) : Bool :=
  nr ∈ [0, 1, 8, 15, 17, 18, 19, 20, 60, 61, 231]

def eInval : ℤ := 22
def eNomem : ℤ := 12
def eNosys : ℤ := 38
def eKilled : ℤ := 256

/-- What `seccomp_check` returns for the result of a filter. -/
def ofResult (result : BitVec 32) : ℤ :=
  let act := result &&& retActionMask
  if act = retAllow ∨ act = retLog ∨ act = retTrace then 0
  else if act = retErrno then
    let e := (result &&& 0xffff).toNat
    -- the default has the sign twice
    if e = 0 then eInval else -e
  else if act = retKillProcess ∨ act = retKillThread then -eKilled
  else -eInval

/-- `seccomp_check`: 0 lets the call through. -/
def seccompCheck (c : Confined) (d : Data) : ℤ :=
  match c.seccMode with
  | .disabled => 0
  | .strict => if strictAllows d.nr then 0 else -eInval
  | .filter =>
    match c.seccompFilter with
    | none => 0
    | some f => if f.length = 0 then 0 else ofResult (bpfRun wild f d)

theorem ofResult_eq_zero {result : BitVec 32} (h : ofResult result = 0) :
    result &&& retActionMask = retAllow ∨ result &&& retActionMask = retLog ∨
      result &&& retActionMask = retTrace := by
  unfold ofResult at h
  dsimp only at h
  split at h
  · assumption
  · split at h
    · split at h
      · exact absurd h (by decide)
      · omega
    · split at h <;> exact absurd h (by decide)

end

/-- `PR_SET_SECCOMP`, `PR_SET_NO_NEW_PRIVS`, and the options that read them. -/
def prSetSeccomp : BitVec 32 := 22
def prGetSeccomp : BitVec 32 := 21
def prSetNoNewPrivs : BitVec 32 := 38
def prGetNoNewPrivs : BitVec 32 := 39

end Seccomp

open Seccomp

def SeccMode.toInt : SeccMode → ℤ
  | .disabled => 0
  | .strict => 1
  | .filter => 2

namespace Proc

def setNoNewPrivs (x : Proc) : Proc := { x with noNewPrivs := true }

def setStrict (x : Proc) : Proc := { x with seccMode := .strict }

def setFilter (f : List SockFilter) (x : Proc) : Proc :=
  { x with seccMode := .filter, seccompFilter := some f }

def unfiltered (x : Proc) : Proc := { x with seccMode := .disabled, seccompFilter := none }

end Proc

namespace Kernel

/-- `seccomp_prctl`: the result and the kernel. -/
def seccompPrctl (k : Kernel) (p : ℕ) (option : BitVec 32) (arg2 : Word) : ℤ × Kernel :=
  let x := k.procs p
  if option = prSetNoNewPrivs then
    if arg2 ≠ 1 then (-eInval, k) else (0, k.modify p .setNoNewPrivs)
  else if option = prGetNoNewPrivs then (if x.noNewPrivs then 1 else 0, k)
  else if option = prSetSeccomp then
    let mode := arg2.setWidth 32
    if x.seccMode = .filter then (-eInval, k)
    else if mode = 1 then (0, k.modify p .setStrict)
    else if mode = 2 ∧ x.noNewPrivs = false then (-eInval, k)
    else if mode ≠ 2 then (-eInval, k)
    -- no filter is installed
    else (0, k)
  else if option = prGetSeccomp then (x.seccMode.toInt, k)
  else (-eInval, k)

/-- Gives a copy of the filter of `p` to the thread in slot `i`; `room` says where there is memory
for it. -/
def tsyncOne (p : ℕ) (f : List SockFilter) (room : ℕ → Bool) (k : Kernel) (i : ℕ) : Kernel :=
  let x := k.procs i
  if i = p ∨ x.state = .unused ∨ x.tgid ≠ (k.procs p).tgid then k
  else if x.seccMode ≠ .filter ∧ x.noNewPrivs then
    k.modify i (if room i then .setFilter f else .unfiltered)
  else k

/-- `sys_seccomp`.  `fprog` is the program that the third argument points to, if it points to user
memory; `room` says for whom there is memory for a copy. -/
def sysSeccomp (k : Kernel) (p : ℕ) (op flags : Word) (fprog : Option (List SockFilter))
    (room : ℕ → Bool) : ℤ × Kernel :=
  if op = 1 then
    if (k.procs p).noNewPrivs = false then (-eInval, k)
    else if (k.procs p).seccMode = .filter then (-eInval, k)
    else
      match fprog with
      | none => (-eInval, k)
      | some f =>
        if f.length = 0 ∨ 256 < f.length then (-eInval, k)
        else if room p then
          let k := k.modify p (.setFilter f)
          if flags.getLsbD 0 then (0, (List.range maxProcs).foldl (tsyncOne p f room) k) else (0, k)
        else (-eNomem, k)
  else if op = 2 then
    let act := flags.setWidth 32 &&& retActionMask
    if act ∈ [retAllow, retLog, retErrno, retKillProcess, retTrap, retTrace] then (0, k)
    else (-eNosys, k)
  else (-eNosys, k)

/-- What `syscall_handler` does with a call. -/
inductive Outcome
  | refused (ret : ℤ)
  | killed
  | dispatched (nr : Word) (args : Args)
  deriving DecidableEq

def sysClone : Word := 56

/-- The arguments that are checked: three as they were at the entry, three as the tracer left
them. -/
def checkedArgs (entry now : Regs) : Args :=
  ⟨entry.rdi, entry.rsi, entry.rdx, now.r10, now.r8, now.r9⟩

/-- The arguments that a call gets.  `proc_clone` takes all of them from the registers as they are
now. -/
def dispatchedArgs (nr : Word) (entry now : Regs) : Args :=
  if nr = sysClone then ⟨now.rdi, now.rsi, now.rdx, now.r10, now.r8, now.r9⟩
  else checkedArgs entry now

/-- `syscall_handler` up to the switch: `entry` are the registers at the entry and `now` those after
the stop for a tracer.  No case of the switch has a number that is not an `int`. -/
def syscallHandler (k : Kernel) (p : ℕ) (wild : BitVec 32 → BitVec 32) (entry now : Regs) :
    Outcome :=
  let nr := now.rax
  let sc := seccompCheck wild (k.procs p).toConfined ⟨nr.setWidth 32, checkedArgs entry now⟩
  if sc = -eKilled then .killed
  else if sc ≠ 0 then .refused sc
  else if nr.toNat < 2 ^ 31 then .dispatched nr (dispatchedArgs nr entry now)
  else .refused (-eNosys)

end Kernel

end Gnos
