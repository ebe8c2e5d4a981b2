import Gnos.ProofKit.Memory

/-! The register frame of a trap (`src/kernel/panic.h`) and the signal frame of
`src/kernel/signal.c`, which is Linux's x86-64 `rt_sigframe` byte for byte. -/

namespace Gnos

open ProofKit

abbrev Word := BitVec 64

structure Regs where
  r15 : Word
  r14 : Word
  r13 : Word
  r12 : Word
  r11 : Word
  r10 : Word
  r9 : Word
  r8 : Word
  rbp : Word
  rdi : Word
  rsi : Word
  rdx : Word
  rcx : Word
  rbx : Word
  rax : Word
  vector : Word
  errcode : Word
  rip : Word
  cs : Word
  rflags : Word
  rsp : Word
  ss : Word
  deriving DecidableEq

/-- `SEL_UCODE` and `SEL_UDATA`: the selectors of ring 3. -/
def selUcode : Word := 0x23
def selUdata : Word := 0x1B

namespace Signal

@[ext] structure SigContext where
  r8 : Word
  r9 : Word
  r10 : Word
  r11 : Word
  r12 : Word
  r13 : Word
  r14 : Word
  r15 : Word
  rdi : Word
  rsi : Word
  rbp : Word
  rbx : Word
  rdx : Word
  rax : Word
  rcx : Word
  rsp : Word
  rip : Word
  eflags : Word
  cs : BitVec 16
  gs : BitVec 16 := 0
  fs : BitVec 16 := 0
  ss : BitVec 16
  err : Word
  trapno : Word
  oldmask : Word
  cr2 : Word := 0
  fpstate : Word

/-- `rt_sigframe_t`: the return address, the user context and the `siginfo`. -/
structure RtSigframe where
  pretcode : Word
  ucFlags : Word := 0
  ucLink : Word := 0
  ssSp : Word
  ssFlags : BitVec 32
  ssSize : Word
  ucMcontext : SigContext
  ucSigmask : Word
  siSigno : BitVec 32
  siCode : BitVec 32

/-- `sizeof(rt_sigframe_t)`. -/
def frameSize : ℕ := 440

/-- The members of `sigcontext_t` at their offsets in the frame. -/
def SigContext.fields (c : SigContext) : List (ℕ × Word) :=
  [(48, c.r8), (56, c.r9), (64, c.r10), (72, c.r11), (80, c.r12), (88, c.r13), (96, c.r14),
    (104, c.r15), (112, c.rdi), (120, c.rsi), (128, c.rbp), (136, c.rbx), (144, c.rdx),
    (152, c.rax), (160, c.rcx), (168, c.rsp), (176, c.rip), (184, c.eflags),
    (192, c.ss ++ c.fs ++ c.gs ++ c.cs), (200, c.err), (208, c.trapno), (216, c.oldmask),
    (224, c.cr2), (232, c.fpstate)]

/-- The words of the frame at their offsets; narrow members are packed, low member first. -/
def RtSigframe.fields (f : RtSigframe) : List (ℕ × Word) :=
  [(0, f.pretcode), (8, f.ucFlags), (16, f.ucLink), (24, f.ssSp), (32, f.ssFlags.setWidth 64),
    (40, f.ssSize)] ++ f.ucMcontext.fields ++
  [(304, f.ucSigmask), (312, f.siSigno.setWidth 64), (320, f.siCode.setWidth 64)]

def loadContext (m : Mem) (base : ℕ) : SigContext where
  r8 := m.read64 (base + 48)
  r9 := m.read64 (base + 56)
  r10 := m.read64 (base + 64)
  r11 := m.read64 (base + 72)
  r12 := m.read64 (base + 80)
  r13 := m.read64 (base + 88)
  r14 := m.read64 (base + 96)
  r15 := m.read64 (base + 104)
  rdi := m.read64 (base + 112)
  rsi := m.read64 (base + 120)
  rbp := m.read64 (base + 128)
  rbx := m.read64 (base + 136)
  rdx := m.read64 (base + 144)
  rax := m.read64 (base + 152)
  rcx := m.read64 (base + 160)
  rsp := m.read64 (base + 168)
  rip := m.read64 (base + 176)
  eflags := m.read64 (base + 184)
  cs := (m.read64 (base + 192)).extractLsb' 0 16
  gs := (m.read64 (base + 192)).extractLsb' 16 16
  fs := (m.read64 (base + 192)).extractLsb' 32 16
  ss := (m.read64 (base + 192)).extractLsb' 48 16
  err := m.read64 (base + 200)
  trapno := m.read64 (base + 208)
  oldmask := m.read64 (base + 216)
  cr2 := m.read64 (base + 224)
  fpstate := m.read64 (base + 232)

/-- `uc_sigmask` of the frame at `base`. -/
def loadSigmask (m : Mem) (base : ℕ) : Word := m.read64 (base + 304)

section Stored

variable {m m' : Mem} {base : ℕ} {f : RtSigframe}

theorem fields_order (f : RtSigframe) : f.fields.Pairwise fun x y => x.1 + 8 ≤ y.1 := by
  simp [RtSigframe.fields, SigContext.fields]

theorem fields_inside (f : RtSigframe) : ∀ x ∈ f.fields, x.1 + 8 ≤ frameSize := by
  simp [RtSigframe.fields, SigContext.fields, frameSize]

theorem read_stored (hSame : ∀ b, base ≤ b → b < base + frameSize →
      m' b = m.writeFields base f.fields b) {o : ℕ} {v : Word} (h : (o, v) ∈ f.fields) :
    m'.read64 (base + o) = v := by
  have hIn : o + 8 ≤ frameSize := fields_inside f _ h
  exact (Mem.read64_congr fun c hLo hHi => hSame c (by omega) (by omega)).trans
    (Mem.read64_writeFields (fields_order f) h)

theorem extract_packed (a b c d : BitVec 16) :
    (d ++ c ++ b ++ a).extractLsb' 0 16 = a ∧ (d ++ c ++ b ++ a).extractLsb' 16 16 = b ∧
      (d ++ c ++ b ++ a).extractLsb' 32 16 = c ∧ (d ++ c ++ b ++ a).extractLsb' 48 16 = d := by
  refine ⟨?_, ?_, ?_, ?_⟩ <;> ext i hi <;> simp <;> grind

section

variable (hSame : ∀ b, base ≤ b → b < base + frameSize → m' b = m.writeFields base f.fields b)
include hSame

theorem loadContext_stored : loadContext m' base = f.ucMcontext := by
  have word (i : Fin 24) : m'.read64 (base + (f.ucMcontext.fields.get i).1) =
      (f.ucMcontext.fields.get i).2 :=
    read_stored hSame (List.mem_append_left _ (List.mem_append_right _
      (List.get_mem f.ucMcontext.fields i)))
  obtain ⟨hCs, hGs, hFs, hSs⟩ := extract_packed f.ucMcontext.cs f.ucMcontext.gs f.ucMcontext.fs
    f.ucMcontext.ss
  have hSel := word 18
  exact SigContext.ext (word 0) (word 1) (word 2) (word 3) (word 4) (word 5) (word 6) (word 7)
    (word 8) (word 9) (word 10) (word 11) (word 12) (word 13) (word 14) (word 15) (word 16)
    (word 17) ((congrArg _ hSel).trans hCs) ((congrArg _ hSel).trans hGs)
    ((congrArg _ hSel).trans hFs) ((congrArg _ hSel).trans hSs) (word 19) (word 20) (word 21)
    (word 22) (word 23)

theorem loadSigmask_stored : loadSigmask m' base = f.ucSigmask :=
  read_stored hSame (by simp [RtSigframe.fields])

end

end Stored

end Signal

end Gnos
