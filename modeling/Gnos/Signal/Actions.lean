import Gnos.Proc.Drift

/-! Who may block or ignore a signal: `sys_signal`, `sys_rt_sigaction`, `sys_rt_sigprocmask` and
`sys_rt_sigsuspend` of `src/kernel/syscall.c`, together with delivery, `rt_sigreturn` and the life
of tasks. -/

namespace Gnos

open ProofKit Signal Vmm Kernel Function BitVec

variable {p sig : ℕ}

/-- The rest of the dispositions, whose handlers are in `Signals`, and what `rt_sigsuspend`
saves. -/
structure Actions where
  flags : ℕ → Word := fun _ => 0
  restorer : ℕ → Word := fun _ => 0
  mask : ℕ → Word := fun _ => 0
  sigSavedMask : Word := 0
  sigRestoreMask : Bool := false

structure SigProc extends Proc, Actions

variable (m : Mem)

namespace SigProc

def eInval : ℤ := 22
def eFault : ℤ := 14
def sigDfl : Word := 0
def sigIgn : Word := 1
def saRestorer : Word := 0x04000000
def sigBlock : ℤ := 0
def sigUnblock : ℤ := 1
def sigSetmask : ℤ := 2

def sigactionSize : ℕ := 32

def setAct (x : SigProc) (sig : ℕ) (a : SigAct) : SigProc :=
  { x with
    handler := update x.handler sig a.handler
    flags := update x.flags sig a.flags
    restorer := update x.restorer sig a.restorer
    mask := update x.mask sig a.mask }

def act (x : SigProc) (sig : ℕ) : SigAct :=
  ⟨x.handler sig, x.flags sig, x.restorer sig, x.mask sig⟩

def ignore (x : SigProc) (sig : ℕ) : SigProc :=
  { x with sigIgnored := x.sigIgnored ||| sigmask sig }

def heed (x : SigProc) (sig : ℕ) : SigProc :=
  { x with sigIgnored := x.sigIgnored &&& ~~~ sigmask sig }

def unpend (x : SigProc) (sig : ℕ) : SigProc :=
  { x with sigPending := x.sigPending &&& ~~~ sigmask sig }

def refuses (sig : ℤ) : Bool := sig ≤ 0 || (nsig : ℤ) ≤ sig || sig = sigkill || sig = sigstop

def sysSignal (x : SigProc) (sig disposition : ℤ) : ℤ × SigProc :=
  if refuses sig then (-eInval, x)
  else
    let ign := disposition = 1
    let x := x.setAct sig.toNat { handler := if ign then sigIgn else sigDfl }
    (0, if ign then x.ignore sig.toNat else x.heed sig.toNat)

def putAct (addr : ℕ) (a : SigAct) : Mem :=
  m.writeFields addr [(0, a.handler), (8, a.flags), (16, a.restorer), (24, a.mask)]

def getAct (addr : ℕ) : SigAct :=
  ⟨m.read64 addr, m.read64 (addr + 8), m.read64 (addr + 16), m.read64 (addr + 24)⟩

def callable (a : SigAct) : Bool :=
  a.flags &&& saRestorer ≠ 0 && userPtrOk a.restorer.toNat 1 && userPtrOk a.handler.toNat 1

def install (x : SigProc) (sig : ℕ) (a : SigAct) : SigProc :=
  let x := x.setAct sig { a with mask := a.mask &&& ~~~ sigUncatchable }
  if a.handler = sigIgn then (x.ignore sig).unpend sig else x.heed sig

/-- `sys_rt_sigaction`; `m` is the memory of the caller. -/
def sysRtSigaction (x : SigProc) (m : Mem) (sig : ℤ) (uact uold sigsetsize : Word) :
    ℤ × SigProc × Mem :=
  if refuses sig then (-eInval, x, m)
  else if sigsetsize ≠ 8 then (-eInval, x, m)
  else if uold ≠ 0 && !userPtrOk uold.toNat sigactionSize then (-eInval, x, m)
  else
    let m := if uold ≠ 0 then putAct m uold.toNat (x.act sig.toNat) else m
    if uact = 0 then (0, x, m)
    else if !userPtrOk uact.toNat sigactionSize then (-eInval, x, m)
    else
      let a := getAct m uact.toNat
      if a.handler ≠ sigDfl && a.handler ≠ sigIgn && !callable a then (-eFault, x, m)
      else (0, x.install sig.toNat a, m)

/-- The mask that `how` makes of `mask` and `set`. -/
def newMask (how : ℤ) (mask set : Word) : Option Word :=
  if how = sigBlock then some (mask ||| set)
  else if how = sigUnblock then some (mask &&& ~~~ set)
  else if how = sigSetmask then some set
  else none

def setMask (x : SigProc) (mask : Word) : SigProc := { x with sigMask := mask }

def sysRtSigprocmask (x : SigProc) (m : Mem) (how : ℤ) (uset uold sigsetsize : Word) :
    ℤ × SigProc × Mem :=
  if sigsetsize ≠ 8 then (-eInval, x, m)
  else if uold ≠ 0 && !userPtrOk uold.toNat 8 then (-eInval, x, m)
  else
    let m := if uold ≠ 0 then m.write64 uold.toNat x.sigMask else m
    if uset = 0 then (0, x, m)
    else if !userPtrOk uset.toNat 8 then (-eInval, x, m)
    else
      match newMask how x.sigMask (m.read64 uset.toNat) with
      | none => (-eInval, x, m)
      | some mask => (0, x.setMask (mask &&& ~~~ sigUncatchable), m)

def suspend (x : SigProc) (newmask : Word) : SigProc :=
  { x with sigSavedMask := x.sigMask, sigRestoreMask := true, sigMask := newmask }

/-- `sys_rt_sigsuspend` up to the wait, after which it returns `-E_INTR`. -/
def sysRtSigsuspend (x : SigProc) (m : Mem) (uset sigsetsize : Word) : ℤ × SigProc :=
  if sigsetsize ≠ 8 then (-eInval, x)
  else if !userPtrOk uset.toNat 8 then (-eFault, x)
  else (-eIntr, x.suspend (m.read64 uset.toNat &&& ~~~ sigUncatchable))

/-- The task as `signal.c` sees it; `t` has what the table does not keep. -/
def task (x : SigProc) (t : Task) : Task :=
  { t with
    sigact := x.act
    sigMask := x.sigMask
    sigSavedMask := x.sigSavedMask
    sigRestoreMask := x.sigRestoreMask
    termSig := x.termSig }

/-- What `signal.c` made of the task. -/
def ofTask (x : SigProc) (t : Task) : SigProc :=
  { x with
    handler := fun sig => (t.sigact sig).handler
    flags := fun sig => (t.sigact sig).flags
    restorer := fun sig => (t.sigact sig).restorer
    mask := fun sig => (t.sigact sig).mask
    sigMask := t.sigMask
    sigSavedMask := t.sigSavedMask
    sigRestoreMask := t.sigRestoreMask
    termSig := t.termSig }

/-- `signal_deliver` of a signal that `proc_check_signals` took: the task, and whether it lives
on. -/
def deliver (x : SigProc) (c : Ctx) (sig : ℕ) : Bool × SigProc :=
  let x := x.unpend sig
  let (ok, c) := signalDeliver { c with task := x.task c.task } sig
  (ok, x.ofTask c.task)

/-- `signal_return` from whatever frame is in the memory of `c`. -/
def sigreturn (x : SigProc) (c : Ctx) : Bool × SigProc :=
  match signalReturn { c with task := x.task c.task } with
  | .resumed c => (true, x.ofTask c.task)
  | .killed c => (false, x.ofTask c.task)

end SigProc

namespace Proc

/-- The signals that `proc_check_signals` acts on. -/
def deliverable (x : Proc) : Word := x.sigPending &&& ~~~ x.sigIgnored &&& ~~~ x.sigMask

/-- Neither of the two signals is blocked, ignored or caught. -/
def Exposed (x : Proc) : Prop :=
  x.sigMask &&& sigUncatchable = 0 ∧ x.sigIgnored &&& sigUncatchable = 0 ∧
    x.handler sigkill = 0 ∧ x.handler sigstop = 0

theorem exposed_congr {x y : Proc} (hMask : y.sigMask = x.sigMask)
    (hIgnored : y.sigIgnored = x.sigIgnored) (hHandler : y.handler = x.handler) (h : x.Exposed) :
    y.Exposed := by
  unfold Exposed
  rw [hMask, hIgnored, hHandler]
  exact h

theorem exposed_stable : Stable Exposed where
  drift x y hStep h := by
    cases hStep with
    | entity hIdent hSignals hTracing hConfined =>
      exact exposed_congr (by rw [hSignals]) (by rw [hSignals]) (by rw [hSignals]) h
    | renew => exact ⟨h.1, h.2.1, rfl, rfl⟩
    | pend | unstop | reported | dying | vforkParent | die | termSig | freeFilter | orphan =>
      exact exposed_congr rfl rfl rfl h
  fresh _ := ⟨zero_and, zero_and, rfl, rfl⟩
  inherit _ _ _ hParent _ := exposed_congr rfl rfl rfl hParent

end Proc

namespace SigProc

open Proc

theorem and_not_and (m u : Word) : m &&& ~~~ u &&& u = 0 := by
  rw [BitVec.and_assoc, BitVec.not_and_self]
  exact and_zero

theorem free_of_not_refuses {sig : ℤ} (h : refuses sig = false) :
    sigmask sig.toNat &&& sigUncatchable = 0 ∧ sig.toNat ≠ sigkill ∧ sig.toNat ≠ sigstop := by
  simp only [refuses, Bool.or_eq_false_iff, decide_eq_false_iff_not, not_le] at h
  have hAll : ∀ n < nsig, n ≠ sigkill → n ≠ sigstop → sigmask n &&& sigUncatchable = 0 := by decide
  have hKill' : sig.toNat ≠ sigkill := by omega
  have hStop' : sig.toNat ≠ sigstop := by omega
  exact ⟨hAll _ (by omega) hKill' hStop', hKill', hStop'⟩

variable {x : SigProc} (h : x.Exposed)
include h

theorem exposed_setAct (a : SigAct) (hKill : sig ≠ sigkill) (hStop : sig ≠ sigstop) :
    (x.setAct sig a).Exposed :=
  ⟨h.1, h.2.1, (update_of_ne hKill.symm _ _).trans h.2.2.1,
    (update_of_ne hStop.symm _ _).trans h.2.2.2⟩

theorem exposed_ignore (hFree : sigmask sig &&& sigUncatchable = 0) : (x.ignore sig).Exposed := by
  refine ⟨h.1, ?_, h.2.2⟩
  change (x.sigIgnored ||| sigmask sig) &&& sigUncatchable = 0
  rw [BitVec.and_comm, BitVec.and_or_distrib_left, BitVec.and_comm _ x.sigIgnored, h.2.1,
    BitVec.and_comm, hFree]
  exact or_zero

theorem exposed_heed (sig : ℕ) : (x.heed sig).Exposed := by
  refine ⟨h.1, ?_, h.2.2⟩
  change x.sigIgnored &&& ~~~ sigmask sig &&& sigUncatchable = 0
  rw [BitVec.and_assoc, BitVec.and_comm (~~~ sigmask sig), ← BitVec.and_assoc, h.2.1]
  exact zero_and

theorem exposed_sysSignal (sig disposition : ℤ) : (x.sysSignal sig disposition).2.Exposed := by
  unfold sysSignal
  split_ifs with hRefuses
  · exact h
  · rw [Bool.not_eq_true] at hRefuses
    obtain ⟨hFree, hKill, hStop⟩ := free_of_not_refuses hRefuses
    dsimp only
    split
    · exact exposed_ignore (exposed_setAct h _ hKill hStop) hFree
    · exact exposed_heed (exposed_setAct h _ hKill hStop) _

theorem exposed_install {sig : ℤ} (hRefuses : refuses sig = false) (a : SigAct) :
    (x.install sig.toNat a).Exposed := by
  obtain ⟨hFree, hKill, hStop⟩ := free_of_not_refuses hRefuses
  unfold install
  split
  · exact exposed_ignore (exposed_setAct h _ hKill hStop) hFree
  · exact exposed_heed (exposed_setAct h _ hKill hStop) _

theorem exposed_sysRtSigaction (sig : ℤ) (uact uold sigsetsize : Word) :
    (x.sysRtSigaction m sig uact uold sigsetsize).2.1.Exposed := by
  unfold sysRtSigaction
  by_cases hRefuses : refuses sig
  · rw [if_pos hRefuses]
    exact h
  · rw [Bool.not_eq_true] at hRefuses
    dsimp only
    split_ifs
    all_goals first | exact h | exact exposed_install h hRefuses _

theorem exposed_sysRtSigprocmask (how : ℤ) (uset uold sigsetsize : Word) :
    (x.sysRtSigprocmask m how uset uold sigsetsize).2.1.Exposed := by
  unfold sysRtSigprocmask
  dsimp only
  split
  · exact h
  split
  · exact h
  split
  · exact h
  split
  · exact h
  split
  · exact h
  · exact ⟨and_not_and _ _, h.2⟩

theorem exposed_sysRtSigsuspend (uset sigsetsize : Word) :
    (x.sysRtSigsuspend m uset sigsetsize).2.Exposed := by
  unfold sysRtSigsuspend
  split
  · exact h
  split
  · exact h
  · exact ⟨and_not_and _ _, h.2⟩

/-- The task that comes back from `signal.c`: its mask lets the signals through, and handlers were
at most taken away. -/
theorem exposed_ofTask {t : Task} (hMask : t.sigMask &&& sigUncatchable = 0)
    (hAct : ∀ sig, (t.sigact sig).handler = x.handler sig ∨ (t.sigact sig).handler = 0) :
    (x.ofTask t).Exposed := by
  refine ⟨hMask, h.2.1, ?_, ?_⟩
  · rcases hAct sigkill with hEq | hEq
    · exact hEq.trans h.2.2.1
    · exact hEq
  · rcases hAct sigstop with hEq | hEq
    · exact hEq.trans h.2.2.2
    · exact hEq

theorem exposed_deliver (c : Ctx) (sig : ℕ) : (x.deliver c sig).2.Exposed := by
  have hx : (x.unpend sig).Exposed := h
  unfold deliver signalDeliver
  dsimp only
  split
  · exact exposed_ofTask hx hx.1 fun _ => .inl rfl
  · refine exposed_ofTask hx (and_not_and _ _) fun s => ?_
    unfold enterHandler
    dsimp only
    split
    · by_cases hs : s = sig
      · rw [hs, update_self]
        exact .inr rfl
      · rw [update_of_ne hs]
        exact .inl rfl
    · exact .inl rfl

theorem exposed_sigreturn (c : Ctx) : (x.sigreturn c).2.Exposed := by
  unfold sigreturn signalReturn kill
  dsimp only
  split
  next c' hEnd =>
    split_ifs at hEnd
    cases hEnd
    exact exposed_ofTask h (and_not_and _ _) fun _ => .inl rfl
  next c' hEnd =>
    split_ifs at hEnd
    all_goals
      cases hEnd
      exact exposed_ofTask h h.1 fun _ => .inl rfl

end SigProc

structure Station where
  k : Kernel
  rest : ℕ → Actions

/-- In `deliver` and `sigreturn` the context is what the trap frame and the memory of the caller
hold. -/
inductive SigOp
  | task (op : Kernel.TaskOp)
  | signal (p : ℕ) (sig disposition : ℤ)
  | sigaction (p : ℕ) (m : Mem) (sig : ℤ) (uact uold sigsetsize : Word)
  | sigprocmask (p : ℕ) (m : Mem) (how : ℤ) (uset uold sigsetsize : Word)
  | sigsuspend (p : ℕ) (m : Mem) (uset sigsetsize : Word)
  | deliver (p : ℕ) (c : Ctx) (sig : ℕ)
  | sigreturn (p : ℕ) (c : Ctx)

namespace Station

def proc (s : Station) (p : ℕ) : SigProc := { s.k.procs p, s.rest p with }

def put (s : Station) (p : ℕ) (x : SigProc) : Station where
  k := s.k.modify p fun _ => x.toProc
  rest := update s.rest p x.toActions

/-- The dispositions after fork or clone: the child gets a copy, a slot given up again is
cleared. -/
def bequeath (s : Station) (p : ℕ) (made : Option ℕ) : ℕ → Actions :=
  match s.k.freeSlot with
  | none => s.rest
  | some i => update s.rest i
      (if made = some i then { s.rest p with sigSavedMask := 0, sigRestoreMask := false } else {})

/-- The dispositions after an operation on the process table; execve clears those of its caller. -/
def restAfter (s : Station) : Kernel.TaskOp → ℕ → Actions
  | .fork p admitted weight => s.bequeath p (s.k.newTask p false admitted weight).1
  | .clone p thread _ admitted weight => s.bequeath p (s.k.newTask p thread admitted weight).1
  | .execve p => update s.rest p
      { sigSavedMask := (s.rest p).sigSavedMask, sigRestoreMask := (s.rest p).sigRestoreMask }
  | _ => s.rest

def exec (s : Station) : SigOp → Station
  | .task op => { k := op.exec s.k, rest := s.restAfter op }
  | .signal p sig disposition => s.put p ((s.proc p).sysSignal sig disposition).2
  | .sigaction p m sig uact uold size =>
    s.put p ((s.proc p).sysRtSigaction m sig uact uold size).2.1
  | .sigprocmask p m how uset uold size =>
    s.put p ((s.proc p).sysRtSigprocmask m how uset uold size).2.1
  | .sigsuspend p m uset size => s.put p ((s.proc p).sysRtSigsuspend m uset size).2
  | .deliver p c sig =>
    let (ok, x) := (s.proc p).deliver c sig
    let s := s.put p x
    -- without room for the frame the whole group dies of the attempt
    if ok then s else { s with k := (s.k.modify p (.setTermSig sigsegv)).procExitGroup p 0 }
  | .sigreturn p c =>
    let (ok, x) := (s.proc p).sigreturn c
    let s := s.put p x
    if ok then s else { s with k := s.k.procExit p 0 }

/-- Calls come from tasks that run; a signal is delivered to such a task, if it has a handler. -/
def Enabled (s : Station) : SigOp → Prop
  | .task op => op.Enabled s.k
  | .signal p .. | .sigaction p .. | .sigprocmask p .. | .sigsuspend p .. | .sigreturn p _ =>
    (s.k.procs p).state = .running
  | .deliver p _ sig =>
    (s.k.procs p).state = .running ∧ (s.k.procs p).deliverable &&& sigmask sig ≠ 0 ∧
      2 ≤ ((s.k.procs p).handler sig).toNat ∧ sig ≠ sigkill ∧ sig ≠ sigstop

def Start (s : Station) : Prop :=
  s.k.OnlyInit ∧ (∀ p, (s.k.procs p).toSignals = {}) ∧ ∀ p, s.rest p = {}

variable {s : Station}

theorem exposed_put (h : ∀ q, (s.k.procs q).Exposed) {x : SigProc} (hx : x.Exposed) (q : ℕ) :
    ((s.put p x).k.procs q).Exposed := by
  unfold put
  by_cases hq : q = p
  · rw [hq, procs_modify_self]
    exact hx
  · rw [procs_modify_of_ne _ _ hq]
    exact h q

theorem exposed_exec (h : ∀ q, (s.k.procs q).Exposed) (op : SigOp) (q : ℕ) :
    ((s.exec op).k.procs q).Exposed := by
  have hp : ∀ p, (s.proc p).Exposed := h
  cases op with
  | task op => exact op.stable_exec Proc.exposed_stable h q
  | signal p sig disposition =>
    exact exposed_put h (SigProc.exposed_sysSignal (hp p) sig disposition) q
  | sigaction p m sig uact uold size =>
    exact exposed_put h (SigProc.exposed_sysRtSigaction m (hp p) sig uact uold size) q
  | sigprocmask p m how uset uold size =>
    exact exposed_put h (SigProc.exposed_sysRtSigprocmask m (hp p) how uset uold size) q
  | sigsuspend p m uset size =>
    exact exposed_put h (SigProc.exposed_sysRtSigsuspend m (hp p) uset size) q
  | deliver p c sig =>
    have hPut := exposed_put (p := p) h (SigProc.exposed_deliver (hp p) c sig)
    unfold exec
    dsimp only
    split
    · exact hPut q
    · exact ((Drifts.modify _ p _ fun x => .termSig x sigsegv).trans
        (.procExitGroup _ p 0)).keeps Proc.exposed_stable.drift (hPut q)
  | sigreturn p c =>
    have hPut := exposed_put (p := p) h (SigProc.exposed_sigreturn (hp p) c)
    unfold exec
    dsimp only
    split
    · exact hPut q
    · exact (Drifts.procExit _ p 0).keeps Proc.exposed_stable.drift (hPut q)

theorem and_sigmask_of_uncatchable {w : Word} (h : w &&& sigUncatchable = 0)
    (hSig : sig ∈ [sigkill, sigstop]) : w &&& sigmask sig = 0 := by
  have hSub : ∀ sig ∈ [sigkill, sigstop], sigUncatchable &&& sigmask sig = sigmask sig := by decide
  rw [← hSub sig hSig, ← BitVec.and_assoc, h]
  exact zero_and

theorem signals_procSignal_kill {k : Kernel} (hAlive : k.Alive p) (h : (k.procs p).Exposed) :
    ((k.procSignal p sigkill).procs p).toSignals = ((k.procs p).pend sigkill).toSignals := by
  have hIgnored := and_sigmask_of_uncatchable h.2.1
    (List.mem_cons_self : sigkill ∈ [sigkill, sigstop])
  unfold procSignal
  rw [if_neg (by simp [sigkill, nsig, hAlive.1, hAlive.2]), if_neg (by decide),
    if_neg (by simp [hIgnored])]
  split
  · rw [(touches_schedWake _ p).signals, procs_modify_self]
  split
  · rw [(touches_enqueueFresh _ p).signals, procs_modify_self]
  · rw [procs_modify_self]

theorem deliverable_procSignal {k : Kernel} (hAlive : k.Alive p) (h : (k.procs p).Exposed) :
    ((k.procSignal p sigkill).procs p).sigPending &&& sigmask sigkill ≠ 0 ∧
      ((k.procSignal p sigkill).procs p).deliverable &&& sigmask sigkill ≠ 0 := by
  -- all four words are looked at in the bit of the signal
  have hBit : ∀ w : Word, w.getLsbD 8 → w &&& sigmask sigkill ≠ 0 := by
    intro w hw hZero
    have := congrArg (getLsbD · 8) hZero
    rw [getLsbD_and, hw] at this
    exact absurd this (by decide)
  have hClear : ∀ w : Word, w &&& sigUncatchable = 0 → w.getLsbD 8 = false := by
    intro w hw
    have := congrArg (getLsbD · 8) hw
    rw [getLsbD_and, show sigUncatchable.getLsbD 8 by decide, Bool.and_true] at this
    exact this
  have hSignals := signals_procSignal_kill hAlive h
  have hPending : ((k.procs p).pend sigkill).sigPending.getLsbD 8 := by
    unfold Proc.pend
    rw [getLsbD_or, show (sigmask sigkill).getLsbD 8 by decide, Bool.or_true]
  refine ⟨hBit _ ?_, hBit _ ?_⟩
  · rw [hSignals]
    exact hPending
  · unfold Proc.deliverable
    rw [hSignals, getLsbD_and, getLsbD_and, getLsbD_not, getLsbD_not, hPending]
    change (true && (_ && !(k.procs p).sigIgnored.getLsbD 8) &&
      (_ && !(k.procs p).sigMask.getLsbD 8)) = true
    rw [hClear _ h.1, hClear _ h.2.1]
    rfl

/-- No task ever blocks, ignores or catches `SIGKILL` or `SIGSTOP`, so `SIGKILL` sent to a live task
is pending and will be acted on. -/
theorem kill_and_stop_reach (hRun : Reaches Start Enabled exec s) (p : ℕ) :
    (∀ sig ∈ [sigkill, sigstop], (s.k.procs p).sigMask &&& sigmask sig = 0 ∧
        (s.k.procs p).sigIgnored &&& sigmask sig = 0 ∧ (s.k.procs p).handler sig = 0) ∧
      (s.k.Alive p → ((s.k.procSignal p sigkill).procs p).sigPending &&& sigmask sigkill ≠ 0 ∧
        ((s.k.procSignal p sigkill).procs p).deliverable &&& sigmask sigkill ≠ 0) := by
  have hExposed : ∀ q, (s.k.procs q).Exposed := by
    refine Reaches.invariant (I := fun s => ∀ q, (s.k.procs q).Exposed) ?_ ?_ hRun
    · rintro s ⟨-, hSignals, -⟩ q
      unfold Proc.Exposed
      rw [hSignals]
      exact ⟨zero_and, zero_and, rfl, rfl⟩
    · exact fun s op h _ => exposed_exec h op
  obtain ⟨hMask, hIgnored, hKill, hStop⟩ := hExposed p
  refine ⟨fun sig hSig => ⟨and_sigmask_of_uncatchable hMask hSig,
    and_sigmask_of_uncatchable hIgnored hSig, ?_⟩,
    fun hAlive => deliverable_procSignal hAlive (hExposed p)⟩
  simp only [List.mem_cons, List.not_mem_nil, or_false] at hSig
  rcases hSig with rfl | rfl
  · exact hKill
  · exact hStop

def initStation : Station := ⟨Kernel.initKernel, fun _ => {}⟩

theorem start_initStation : Start initStation := by
  refine ⟨onlyInit_initKernel, fun p => ?_, fun _ => rfl⟩
  by_cases hp : p = 0 <;> simp [initStation, initKernel, hp]

def blockAll : SigOp := .sigprocmask 0 (fun _ => 0xFF) 2 0x1000 0 8

theorem kill_reaches_child : ∃ s : Station, (s.k.procs 1).sigMask = ~~~ sigUncatchable ∧
    ((s.k.procSignal 1 sigkill).procs 1).deliverable &&& sigmask sigkill ≠ 0 := by
  have hBlock : Reaches Start Enabled exec (initStation.exec blockAll) :=
    (Reaches.start start_initStation).step rfl
  have hFork : Reaches Start Enabled exec
      ((initStation.exec blockAll).exec (.task (.fork 0 true 1024))) := hBlock.step rfl
  have hAlive : ((initStation.exec blockAll).exec (.task (.fork 0 true 1024))).k.Alive 1 := by
    unfold Alive
    decide +kernel
  exact ⟨_, by decide +kernel, ((kill_and_stop_reach hFork 1).2 hAlive).2⟩

end Station

end Gnos
