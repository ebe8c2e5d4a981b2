import Gnos.Signal.Model

/-! The register images of user memory that the kernel loads into a trap frame: the one in a signal
frame, and the snapshot of a ptrace stop (`src/kernel/ptrace.c`), which the tracer may rewrite with
`PTRACE_SETREGS` and `PTRACE_SETREGSET` before the stopped task takes it back. -/

namespace Gnos.Ptrace

open ProofKit Vmm Signal

/-- `sizeof(ptrace_user_regs_t)`. -/
def userRegsSize : ℕ := 216

/-- The snapshot of a stop: the bytes of `p->ptrace_regs` and `p->ptrace_regs_valid`. -/
structure Snapshot where
  regs : Mem
  valid : Bool

/-- The members that `regs_to_user` sets, at their offsets. -/
def userFields (r : Regs) (origRax : Word) : List (ℕ × Word) :=
  [(0, r.r15), (8, r.r14), (16, r.r13), (24, r.r12), (32, r.rbp), (40, r.rbx), (48, r.r11),
    (56, r.r10), (64, r.r9), (72, r.r8), (80, r.rax), (88, r.rcx), (96, r.rdx), (104, r.rsi),
    (112, r.rdi), (120, origRax), (128, r.rip), (136, r.cs), (144, r.rflags), (152, r.rsp),
    (160, r.ss)]

/-- `regs_to_user`, over the snapshot of an earlier stop. -/
def regsToUser (u : Mem) (r : Regs) (origRax : Word) : Mem :=
  (u.fill 0 userRegsSize 0).writeFields 0 (userFields r origRax)

variable (u : Snapshot)

def Snapshot.eflags : Word := u.regs.read64 144

/-- `regs_from_user`: the selectors stay as they are. -/
def regsFromUser (r : Regs) (u : Mem) : Regs :=
  { r with
    r15 := u.read64 0
    r14 := u.read64 8
    r13 := u.read64 16
    r12 := u.read64 24
    rbp := u.read64 32
    rbx := u.read64 40
    r11 := u.read64 48
    r10 := u.read64 56
    r9 := u.read64 64
    r8 := u.read64 72
    rax := u.read64 80
    rcx := u.read64 88
    rdx := u.read64 96
    rsi := u.read64 104
    rdi := u.read64 112
    rip := u.read64 128
    rflags := u.read64 144
    rsp := u.read64 152 }

/-- The snapshot that `ptrace_stop` takes before it blocks. -/
def takeSnapshot (r : Regs) (origRax : Word) : Snapshot :=
  { regs := regsToUser u.regs r origRax, valid := true }

/-- The end of `ptrace_stop`: the snapshot, as the tracer left it, goes back into the trap frame. -/
def replay (r : Regs) (u : Snapshot) : Regs × Snapshot :=
  if u.valid then (regsFromUser r u.regs, { u with valid := false }) else (r, u)

def eIo : ℤ := 5
def eFault : ℤ := 14

/-- `PTRACE_SETREGS`; `m` is the tracer's memory. -/
def setregs (m : Mem) (data : ℕ) : ℤ × Snapshot :=
  if !u.valid then (-eIo, u)
  else if !userPtrOk data userRegsSize then (-eFault, u)
  else (0, { u with regs := u.regs.store 0 (m.load data userRegsSize) })

/-- `PTRACE_SETREGSET`: the `iovec` at `addr` names the bytes, and its length comes back. -/
def setregset (m : Mem) (addr : ℕ) : ℤ × Snapshot × Mem :=
  if !userPtrOk addr 16 then (-eFault, u, m)
  else
    let base := (m.read64 addr).toNat
    let n := min (m.read64 (addr + 8)).toNat userRegsSize
    if !u.valid then (-eIo, u, m)
    else if n ≠ 0 && !userPtrOk base n then (-eFault, u, m)
    else
      (0, { u with regs := u.regs.store 0 (m.load base n) },
        m.write64 (addr + 8) (BitVec.ofNat 64 n))

/-- The snapshots that a tracer can leave at a stop which took `u`. -/
inductive Rewritten (u : Snapshot) : Snapshot → Prop where
  | stopped : Rewritten u u
  | setregs {v : Snapshot} (m : Mem) (data : ℕ) (h : Rewritten u v) :
      Rewritten u (setregs v m data).2
  | setregset {v : Snapshot} (m : Mem) (addr : ℕ) (h : Rewritten u v) :
      Rewritten u (setregset v m addr).2.1

/-- A trap frame that returns to ring 3 with interrupts on and without I/O privilege. -/
structure RingThree (r : Regs) : Prop where
  cs : r.cs = selUcode
  ss : r.ss = selUdata
  interrupts : r.rflags.getLsbD 9
  ioplLow : r.rflags.getLsbD 12 = false
  ioplHigh : r.rflags.getLsbD 13 = false

def kernelFlags (flags : Word) : Word := flags &&& ~~~rflagsUser

/-- `r` returns to ring 3 and has the kernel's flags from `flags`. -/
structure Unprivileged (flags : Word) (r : Regs) : Prop where
  ring : RingThree r
  kept : kernelFlags r.rflags = kernelFlags flags

theorem getLsbD_of_kernelFlags {f g : Word} (h : kernelFlags f = kernelFlags g) {i : ℕ}
    (hi : i < 64) (hKernel : rflagsUser.getLsbD i = false) : f.getLsbD i = g.getLsbD i := by
  have := congrArg (fun w => w.getLsbD i) h
  simpa only [kernelFlags, BitVec.getLsbD_and, BitVec.getLsbD_not, hi, hKernel, decide_true,
    Bool.not_false, Bool.and_true] using this

theorem RingThree.of_kernelFlags {r r' : Regs} (h : RingThree r) (hCs : r'.cs = r.cs)
    (hSs : r'.ss = r.ss) (hFlags : kernelFlags r'.rflags = kernelFlags r.rflags) :
    RingThree r' where
  cs := hCs.trans h.cs
  ss := hSs.trans h.ss
  interrupts := (getLsbD_of_kernelFlags hFlags (by decide) (by decide)).trans h.interrupts
  ioplLow := (getLsbD_of_kernelFlags hFlags (by decide) (by decide)).trans h.ioplLow
  ioplHigh := (getLsbD_of_kernelFlags hFlags (by decide) (by decide)).trans h.ioplHigh

theorem kernelFlags_restored (f : Word) :
    kernelFlags ((f &&& rflagsUser) ||| rflagsFixed) = kernelFlags rflagsFixed := by
  unfold kernelFlags
  rw [BitVec.and_or_distrib_right, BitVec.and_assoc, BitVec.and_not_self]
  simp

theorem unprivileged_restoreRegs (r : Regs) (sc : SigContext) :
    Unprivileged rflagsFixed (restoreRegs r sc) := by
  have hKept : kernelFlags (restoreRegs r sc).rflags = kernelFlags rflagsFixed :=
    kernelFlags_restored sc.eflags
  refine ⟨⟨rfl, rfl, ?_, ?_, ?_⟩, hKept⟩
  all_goals exact (getLsbD_of_kernelFlags hKept (by decide) (by decide)).trans (by decide)

theorem signalReturn_regs {c c' : Ctx} (h : signalReturn c = .resumed c') :
    ∃ sc, c'.regs = restoreRegs c.regs sc := by
  unfold signalReturn at h
  simp only at h
  split at h
  · exact absurd h (by simp [kill])
  · split at h
    · exact absurd h (by simp [kill])
    · cases h
      exact ⟨_, rfl⟩

theorem signalReturn_resumed {c : Ctx} (hStack : onUserStack (c.regs.rsp - 8) frameSize)
    (hRip : (loadContext c.mem (c.regs.rsp - 8).toNat).rip.toNat < userLimit)
    (hRsp : (loadContext c.mem (c.regs.rsp - 8).toNat).rsp.toNat < userLimit) :
    ∃ c', signalReturn c = .resumed c' := by
  have hLimits : ¬((userLimit ≤ (loadContext c.mem (c.regs.rsp - 8).toNat).rip.toNat ||
      userLimit ≤ (loadContext c.mem (c.regs.rsp - 8).toNat).rsp.toNat)) := by
    rw [Bool.or_eq_true, decide_eq_true_eq, decide_eq_true_eq]
    omega
  rw [signalReturn, hStack]
  exact ⟨_, if_neg hLimits⟩

theorem Rewritten.valid {u v : Snapshot} (h : Rewritten u v) (hu : u.valid) : v.valid := by
  induction h with
  | stopped => exact hu
  | setregs m data h ih =>
    unfold Ptrace.setregs
    split
    · exact ih
    · split
      · exact ih
      · exact ih
  | setregset m addr h ih =>
    unfold Ptrace.setregset
    simp only
    split
    · exact ih
    · split
      · exact ih
      · split
        · exact ih
        · exact ih

theorem unprivileged_replay {r : Regs} {u : Snapshot} (hRing : RingThree r) (hValid : u.valid) :
    Unprivileged r.rflags (replay r u).1 ↔ kernelFlags u.eflags = kernelFlags r.rflags := by
  rw [replay, if_pos hValid]
  constructor
  · intro h
    exact h.kept
  · intro h
    exact ⟨hRing.of_kernelFlags rfl rfl h, h⟩

/-- A signal frame never raises privilege.  A rewritten snapshot leaves privilege alone exactly when
its `eflags` has the kernel's flags of the frame that was stopped. -/
theorem image_keeps_privilege (c : Ctx) (r : Regs) (u v : Snapshot) (origRax : Word) :
    (∀ c', signalReturn c = .resumed c' → Unprivileged rflagsFixed c'.regs) ∧
    (RingThree r → Rewritten (takeSnapshot u r origRax) v →
      (Unprivileged r.rflags (replay r v).1 ↔ kernelFlags v.eflags = kernelFlags r.rflags)) := by
  constructor
  · intro c' h
    obtain ⟨sc, hRegs⟩ := signalReturn_regs h
    rw [hRegs]
    exact unprivileged_restoreRegs c.regs sc
  · intro hRing hRewritten
    exact unprivileged_replay hRing (hRewritten.valid rfl)

def stoppedFrame : Regs where
  r15 := 0
  r14 := 0
  r13 := 0
  r12 := 0
  r11 := 0
  r10 := 0
  r9 := 0
  r8 := 0
  rbp := 0
  rdi := 0
  rsi := 0
  rdx := 0
  rcx := 0
  rbx := 0
  rax := 0
  vector := 0x20
  errcode := 0
  rip := 0x400100
  cs := selUcode
  rflags := 0x202
  rsp := 0x00006FFFFFFFF000
  ss := selUdata

/-- Its snapshot after `PTRACE_SETREGS` from a buffer at 0x500000 that is zero but for `eflags`. -/
def setEflags (eflags : Word) : Snapshot :=
  (setregs (takeSnapshot { regs := fun _ => 0, valid := false } stoppedFrame 0)
    (Mem.write64 (fun _ => 0) (0x500000 + 144) eflags) 0x500000).2

theorem stoppedFrame_ringThree : RingThree stoppedFrame :=
  ⟨by decide, by decide, by decide, by decide, by decide⟩

/-- The task in `rt_sigreturn`, over a stack of zeros. -/
def returningCtx : Ctx where
  task := {
    sigact := fun _ => {}, sigMask := 0, sigSavedMask := 0, sigRestoreMask := false, altSsSp := 0,
    altSsSize := 0, altSsFlags := ssDisable, syscallNr := 15, termSig := 0, as := none, fpu := [] }
  regs := stoppedFrame
  mem := fun _ => 0

/-- A signal frame of zeros, and an image with carry, direction and identification set. -/
theorem image_keeps_privilege_user_flags :
    (∃ c', signalReturn returningCtx = .resumed c' ∧ Unprivileged rflagsFixed c'.regs) ∧
      Unprivileged stoppedFrame.rflags (replay stoppedFrame (setEflags 0x200603)).1 := by
  constructor
  · obtain ⟨c', h⟩ : ∃ c', signalReturn returningCtx = .resumed c' :=
      signalReturn_resumed (by decide +kernel) (by decide +kernel) (by decide +kernel)
    exact ⟨c', h, (image_keeps_privilege _ stoppedFrame (setEflags 0) (setEflags 0) 0).1 _ h⟩
  · exact ((image_keeps_privilege returningCtx _ _ _ _).2 stoppedFrame_ringThree
      (.setregs _ _ .stopped)).mpr (by decide +kernel)

/-- A tracer gives its tracee I/O privilege level 3 and turns interrupts off. -/
theorem setregs_raises_privilege : (replay stoppedFrame (setEflags 0x3002)).1.rflags = 0x3002 ∧
      ¬ Unprivileged stoppedFrame.rflags (replay stoppedFrame (setEflags 0x3002)).1 := by
  have hFlags : (replay stoppedFrame (setEflags 0x3002)).1.rflags = 0x3002 := by decide +kernel
  refine ⟨hFlags, fun h => ?_⟩
  have hOff := h.ring.interrupts
  exact absurd hOff (by decide)

end Gnos.Ptrace
