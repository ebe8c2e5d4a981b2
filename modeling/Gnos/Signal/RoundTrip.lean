import Gnos.Signal.Model

/-! What `signal_return` makes of the frame that `signal_deliver` left.  The handler in between may
change every register and every byte of memory outside the frame. -/

namespace Gnos.Signal

open ProofKit Vmm

variable {c c₁ c₂ : Ctx} {sig : ℕ}

/-- Two trap frames hold the same user context: the general registers, RIP, RSP and the flags that
a program may choose. -/
structure SameUser (r r' : Regs) : Prop where
  r15 : r'.r15 = r.r15
  r14 : r'.r14 = r.r14
  r13 : r'.r13 = r.r13
  r12 : r'.r12 = r.r12
  r11 : r'.r11 = r.r11
  r10 : r'.r10 = r.r10
  r9 : r'.r9 = r.r9
  r8 : r'.r8 = r.r8
  rbp : r'.rbp = r.rbp
  rdi : r'.rdi = r.rdi
  rsi : r'.rsi = r.rsi
  rdx : r'.rdx = r.rdx
  rcx : r'.rcx = r.rcx
  rbx : r'.rbx = r.rbx
  rax : r'.rax = r.rax
  rip : r'.rip = r.rip
  rsp : r'.rsp = r.rsp
  rflags : r'.rflags &&& rflagsUser = r.rflags &&& rflagsUser

/-- The signal cut a call short that is to be made again: it ended with EINTR, the disposition has
SA_RESTART, and it is none of poll, select, sigsuspend, pselect6 and ppoll. -/
def MadeAgain (c : Ctx) (sig : ℕ) : Prop :=
  c.regs.vector = 128 ∧ c.regs.rax = -4 ∧ c.task.syscallNr.msb = false ∧
    (c.task.sigact sig).flags.getLsbD 28 ∧
    c.task.syscallNr.toNat % 2 ^ 32 ∉ [7, 23, 130, 270, 271]

instance (c : Ctx) (sig : ℕ) : Decidable (MadeAgain c sig) := by
  unfold MadeAgain
  infer_instance

/-- The context that delivery interrupts.  A call that is to be made again has its number in RAX,
and RIP at its instruction, of two bytes. -/
def interrupted (c : Ctx) (sig : ℕ) : Regs :=
  if MadeAgain c sig then { c.regs with rax := c.task.syscallNr, rip := c.regs.rip - 2 } else c.regs

/-- The task goes on in the interrupted context, under the mask from before: the one in force, or
the one that sigsuspend saved. -/
def Restored (c : Ctx) (sig : ℕ) : Outcome → Prop
  | .resumed c' => SameUser (interrupted c sig) c'.regs ∧
    c'.task.sigMask = if c.task.sigRestoreMask then c.task.sigSavedMask else c.task.sigMask
  | .killed _ => False

/-- A frame on the alternate stack lies in the window of the main stack, the interrupted context is
one of user mode, and the mask to come back to blocks neither SIGKILL nor SIGSTOP. -/
structure Returnable (c : Ctx) (sig : ℕ) : Prop where
  window : onAlt c.task sig → onUserStack (carveBase (c.task.altSsSp + c.task.altSsSize)) frameSize
  rip : (interrupted c sig).rip.toNat < userLimit
  rsp : (interrupted c sig).rsp.toNat < userLimit
  mask : retmask c.task &&& sigUncatchable = 0

theorem and_saRestart (flags : Word) : flags &&& saRestart ≠ 0 ↔ flags.getLsbD 28 := by
  have hBit : saRestart = BitVec.twoPow 64 28 := by decide
  rw [hBit, BitVec.and_twoPow]
  split_ifs with h
  · exact iff_of_true (by decide) h
  · exact iff_of_false (fun hNe => hNe rfl) h

theorem neverRestarts_iff (nr : Word) :
    neverRestarts (nr.setWidth 32) ↔ nr.toNat % 2 ^ 32 ∈ [7, 23, 130, 270, 271] := by
  simp only [neverRestarts, Bool.or_eq_true, decide_eq_true_eq, BitVec.toNat_eq,
    BitVec.toNat_setWidth,
    BitVec.toNat_ofNat, BitVec.ofNat_eq_ofNat, List.mem_cons, List.not_mem_nil, or_false]
  omega

theorem restarts_iff : restarts c.task c.regs sig ↔ MadeAgain c sig := by
  have hError : c.regs.rax.toInt = -(eIntr : ℤ) ↔ c.regs.rax = -4 := by
    rw [← BitVec.toInt_inj]
    exact Iff.rfl
  have hCall : 0 ≤ c.task.syscallNr.toInt ↔ c.task.syscallNr.msb = false := by
    rw [BitVec.msb_eq_toInt, decide_eq_false_iff_not, not_lt]
  simp only [restarts, MadeAgain, Bool.and_eq_true, decide_eq_true_eq, Bool.not_eq_true', hError,
    hCall, and_saRestart, ← neverRestarts_iff, Bool.not_eq_true]
  tauto

theorem maybeRestartSyscall_eq : maybeRestartSyscall c.task c.regs sig = interrupted c sig := by
  unfold maybeRestartSyscall interrupted
  simp only [restarts_iff]

def frameBase (c : Ctx) (sig : ℕ) : Word := carveBase (carveTop c.task (interrupted c sig) sig)

/-- A successful delivery leaves RSP at the frame, and the frame in memory; one on the main stack
passed the check of `signal_return`. -/
theorem signalDeliver_spec (h : signalDeliver c sig = (true, c₁)) : c₁.regs.rsp = frameBase c sig ∧
    (∃ m : Mem, c₁.mem = m.writeFields (frameBase c sig).toNat
      (buildFrame c.task (interrupted c sig) sig).fields) ∧
    (¬ onAlt c.task sig → onUserStack (frameBase c sig) frameSize) := by
  unfold signalDeliver at h
  simp only [maybeRestartSyscall_eq] at h
  split_ifs at h with hPlaced
  · exact absurd (congrArg Prod.fst h) (by simp)
  · obtain rfl := (congrArg Prod.snd h).symm
    refine ⟨rfl, ⟨_, rfl⟩, fun hMain => ?_⟩
    simp only [Bool.and_eq_true, Bool.or_eq_true, Bool.not_eq_true', not_and, not_or,
      Bool.not_eq_false] at hPlaced
    exact (hPlaced (by simpa using hMain)).1

/-- The check of `signal_return` passes for every frame in the window of the main stack. -/
theorem onUserStack_frameBase (h : signalDeliver c sig = (true, c₁)) :
    onUserStack (frameBase c sig) frameSize ↔
      (onAlt c.task sig → onUserStack (carveBase (c.task.altSsSp + c.task.altSsSize))
      frameSize) := by
  by_cases hAlt : onAlt c.task sig
  · simp [frameBase, carveTop, hAlt]
  · simp only [hAlt, (signalDeliver_spec h).2.2 hAlt, Bool.false_eq_true, false_imp_iff]

theorem rflags_restored (f : Word) :
    ((f &&& rflagsUser) ||| rflagsFixed) &&& rflagsUser = f &&& rflagsUser := by
  have hFixed : rflagsFixed &&& rflagsUser = 0#64 := by decide
  rw [BitVec.and_or_distrib_right, BitVec.and_assoc, BitVec.and_self, hFixed, BitVec.or_zero]

theorem sameUser_restoreRegs (r r' : Regs) (oldmask fp : Word) :
    SameUser r (restoreRegs r' (saveContext r oldmask fp)) :=
  ⟨rfl, rfl, rfl, rfl, rfl, rfl, rfl, rfl, rfl, rfl, rfl, rfl, rfl, rfl, rfl, rfl, rfl,
    rflags_restored r.rflags⟩

theorem and_not_eq_self (m u : Word) : m &&& ~~~u = m ↔ m &&& u = 0#64 := by
  constructor
  · intro h
    rw [← h, BitVec.and_assoc, BitVec.and_comm (~~~u), BitVec.and_not_self]
    exact BitVec.and_zero
  · intro h
    calc m &&& ~~~u = (m &&& ~~~u) ||| (m &&& u) := by rw [h, BitVec.or_zero]
      _ = m := by
        rw [← BitVec.and_or_distrib_left, BitVec.or_comm, BitVec.or_not_self, BitVec.and_allOnes]

theorem signalReturn_outside (h : onUserStack (c.regs.rsp - 8) frameSize = false) :
    signalReturn c = kill c := by
  rw [signalReturn, h]
  rfl

/-- Delivery followed by return is the identity on the user's context and on the mask exactly when
the state before delivery is `Returnable`. -/
theorem signal_round_trip (hDeliver : signalDeliver c sig = (true, c₁))
    (hRsp : c₂.regs.rsp = c₁.regs.rsp + 8)
    (hFrame : ∀ b, c₁.regs.rsp.toNat ≤ b → b < c₁.regs.rsp.toNat + frameSize →
      c₂.mem b = c₁.mem b) : Restored c sig (signalReturn c₂) ↔ Returnable c sig := by
  have hWindow := onUserStack_frameBase hDeliver
  obtain ⟨hBase, ⟨m, hMem⟩, -⟩ := signalDeliver_spec hDeliver
  rw [hBase, hMem] at hFrame
  have hReturn : c₂.regs.rsp - 8 = frameBase c sig := by rw [hRsp, hBase, BitVec.add_sub_cancel]
  rw [signalReturn, hReturn, loadContext_stored hFrame, loadSigmask_stored hFrame]
  dsimp only
  by_cases hStack : onUserStack (frameBase c sig) frameSize
  · rw [if_neg (by simp [hStack])]
    split
    next hUser =>
      -- killed: the interrupted context is not one of user mode
      rw [Bool.or_eq_true, decide_eq_true_eq, decide_eq_true_eq] at hUser
      refine iff_of_false id fun h => ?_
      exact hUser.elim (Nat.not_le.mpr h.rip) (Nat.not_le.mpr h.rsp)
    next hUser =>
      rw [Bool.or_eq_true, decide_eq_true_eq, decide_eq_true_eq, not_or] at hUser
      obtain ⟨hRip, hSp⟩ := hUser
      constructor
      · rintro ⟨-, hMask⟩
        exact ⟨hWindow.mp hStack, Nat.not_le.mp hRip, Nat.not_le.mp hSp,
          (and_not_eq_self _ _).mp hMask⟩
      · intro h
        exact ⟨sameUser_restoreRegs _ _ _ _, (and_not_eq_self _ _).mpr h.mask⟩
  · rw [if_pos (by simp [hStack])]
    exact iff_of_false id fun h => hStack (hWindow.mpr h.window)

/-- A task whose only registered handler takes SIGUSR1, on an alternate stack of two pages. -/
def altTask (flags : Word) : Task where
  sigact := Function.update (fun _ => {}) 10
    { handler := 0x401000, flags := flags, restorer := 0x402000 }
  sigMask := 0
  sigSavedMask := 0
  sigRestoreMask := false
  altSsSp := 0x10000000
  altSsSize := 0x2000
  altSsFlags := 0
  syscallNr := -1
  termSig := 0
  as := some {
    pteAt := fun _ => none
    mmaps := [{ base := 0x10000000, size := 0x2000, flags := { write := true, user := true } }] }
  fpu := []

def altCtx (flags : Word) : Ctx where
  task := altTask flags
  regs := {
    r15 := 0, r14 := 0, r13 := 0, r12 := 0, r11 := 0, r10 := 0, r9 := 0, r8 := 0, rbp := 0,
    rdi := 0,
    rsi := 0, rdx := 0, rcx := 0, rbx := 0, rax := 7, vector := 0x20, errcode := 0, rip := 0x400100,
    cs := selUcode, rflags := 0x202, rsp := 0x00006FFFFFFFF000, ss := selUdata }
  mem := fun _ => 0

/-- The handler's `ret`, which pops the return address and changes nothing else. -/
def handlerRet (c : Ctx) : Ctx := { c with regs := { c.regs with rsp := c.regs.rsp + 8 } }

theorem signal_round_trip_main_stack : ∃ c₁, signalDeliver (altCtx 0) 10 = (true, c₁) ∧
    Restored (altCtx 0) 10 (signalReturn (handlerRet c₁)) := by
  have hDelivered : (signalDeliver (altCtx 0) 10).1 := by decide +kernel
  have hReturnable : Returnable (altCtx 0) 10 :=
    ⟨by decide +kernel, by decide +kernel, by decide +kernel, by decide +kernel⟩
  obtain ⟨c₁, hDeliver⟩ : ∃ c₁, signalDeliver (altCtx 0) 10 = (true, c₁) :=
    ⟨_, Prod.ext hDelivered rfl⟩
  have hRsp : (handlerRet c₁).regs.rsp = c₁.regs.rsp + 8 := rfl
  exact ⟨c₁, hDeliver, (signal_round_trip hDeliver hRsp fun _ _ _ => rfl).mpr hReturnable⟩

/-- A handler that ran on the alternate stack cannot return: the frame there fails the check of
`signal_return`, and the task is killed. -/
theorem alt_stack_return_kills : (signalDeliver (altCtx saOnstack) 10).1 = true ∧
      ¬ Restored (altCtx saOnstack) 10
        (signalReturn (handlerRet (signalDeliver (altCtx saOnstack) 10).2)) := by
  refine ⟨by decide +kernel, fun h => ?_⟩
  rw [signalReturn_outside (by decide +kernel)] at h
  exact h

end Gnos.Signal
