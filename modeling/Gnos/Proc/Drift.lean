import Gnos.Proc.Run

/-! What the kernel does to a task that exists, whoever acts: `Proc.Drift` lists the changes, and
every operation on the process table is made of them, apart from the one slot where a task is
made. -/

namespace Gnos

open Relation

namespace Proc

/-- The changes that are made to a task after it is made. -/
inductive Drift : Proc → Proc → Prop
  /-- What the scheduler owns. -/
  | entity {x y : Proc} (hIdent : y.toIdent = x.toIdent) (hSignals : y.toSignals = x.toSignals)
      (hTracing : y.toTracing = x.toTracing) (hConfined : y.toConfined = x.toConfined) : Drift x y
  | pend (x : Proc) (sig : ℕ) : Drift x (x.pend sig)
  | unstop (x : Proc) : Drift x x.unstop
  | reported (x : Proc) (on : Bool) : Drift x { x with reported := on }
  | dying (x : Proc) : Drift x x.setDying
  | vforkParent (x : Proc) (pid : ℤ) : Drift x (x.setVforkParent pid)
  | renew (x : Proc) : Drift x x.renew
  | die (x : Proc) (status : ℤ) : Drift x (x.die status)
  | termSig (x : Proc) (sig : ℕ) : Drift x (x.setTermSig sig)
  | freeFilter (x : Proc) : Drift x x.freeFilter
  | orphan (x : Proc) : Drift x { x with ppid := 1 }

/-- The changes of single slots outside of `proc_teardown`. -/
inductive Edit : (Proc → Proc) → Prop
  | state (st : ProcState) : Edit (.setState st)
  | block (why : WaitReason) : Edit (.block why)
  | pend (sig : ℕ) : Edit (.pend sig)
  | unstop : Edit .unstop
  | reported (on : Bool) : Edit fun x => { x with reported := on }
  | dying : Edit .setDying
  | vforkParent (pid : ℤ) : Edit (.setVforkParent pid)
  | renew : Edit .renew
  | die (status : ℤ) : Edit (.die status)
  | termSig (sig : ℕ) : Edit (.setTermSig sig)

theorem Edit.drift {f : Proc → Proc} (h : Edit f) (x : Proc) : Drift x (f x) := by
  cases h with
  | state | block => exact .entity rfl rfl rfl rfl
  | pend sig => exact .pend x sig
  | unstop => exact .unstop x
  | reported on => exact .reported x on
  | dying => exact .dying x
  | vforkParent pid => exact .vforkParent x pid
  | renew => exact .renew x
  | die status => exact .die x status
  | termSig sig => exact .termSig x sig

/-- A property of tasks that no operation on the process table ends. -/
structure Stable (I : Proc → Prop) : Prop where
  drift : ∀ x y, Drift x y → I x → I y
  fresh : ∀ pid, I { pid := pid, tgid := pid }
  inherit : ∀ parent thread x, I parent → I x → I (inherit parent thread x)

end Proc

namespace Kernel

variable {k k' k'' : Kernel} {p : ℕ} {op : TaskOp}

/-- A relation between states that changes of the slots of `P` keep. -/
structure Closed (P : ℕ → Prop) (R : Kernel → Kernel → Prop) : Prop where
  refl : ∀ k, R k k
  trans : ∀ {k k' k''}, R k k' → R k' k'' → R k k''
  touches : ∀ {p k k'}, P p → Touches p k k' → R k k'
  edit : ∀ {p f} (k : Kernel), P p → Proc.Edit f → R k (k.modify p f)

namespace Closed

variable {P Q : ℕ → Prop} {R : Kernel → Kernel → Prop}

/-- What the changes do not reach, in the slots of `Q`. -/
theorem same (v : Proc → α)
    (hTouch : ∀ {p k k'}, P p → Q p → Touches p k k' → v (k'.procs p) = v (k.procs p))
    (hEdit : ∀ {p f}, P p → Q p → Proc.Edit f → ∀ x, v (f x) = v x) :
    Closed P fun k k' => ∀ q, Q q → v (k'.procs q) = v (k.procs q) where
  refl _ _ _ := rfl
  trans h h' q hq := (h' q hq).trans (h q hq)
  touches {p _ _} hp h q hq := by
    by_cases hqp : q = p
    · subst hqp
      exact hTouch hp hq h
    · rw [h.other q hqp]
  edit {p f} k hp hf q hq := by
    by_cases hqp : q = p
    · subst hqp
      rw [procs_modify_self, hEdit hp hq hf]
    · rw [procs_modify_of_ne _ _ hqp]

variable (h : Closed P R)
include h

theorem foldl {step : Kernel → ℕ → Kernel} (hStep : ∀ k i, R k (step k i)) (l : List ℕ)
    (k : Kernel) : R k (l.foldl step k) :=
  l.foldlRecOn step (h.refl k) fun k' hk i _ => h.trans hk (hStep k' i)

theorem procSignal (hp : P p) (k : Kernel) (sig : ℕ) : R k (k.procSignal p sig) := by
  have hUnstop := h.edit k hp .unstop
  have hPend := h.edit k hp (.pend sig)
  unfold Kernel.procSignal
  dsimp only
  split
  · exact h.refl k
  split
  · split
    · split
      · exact hUnstop
      · exact h.trans (h.trans hUnstop (h.edit _ hp (.reported false)))
          (h.touches hp (touches_enqueueFresh _ p))
    · exact hUnstop
  split
  · exact h.refl k
  split
  · exact h.trans hPend (h.touches hp (touches_schedWake _ p))
  split
  · exact h.trans hPend (h.touches hp (touches_enqueueFresh _ p))
  · exact hPend

theorem told (hp : P p) (k : Kernel) : R k ( let k := k.procSignal p Signal.sigchld
      if (k.procs p).state = .blocked ∧ (k.procs p).waitReason = .child then k.schedWake p
      else k) := by
  have hSignal := h.procSignal hp k Signal.sigchld
  dsimp only
  split
  · exact h.trans hSignal (h.touches hp (touches_schedWake _ p))
  · exact hSignal

theorem slotRelease (hp : P p) (k : Kernel) : R k (k.slotRelease p) := by
  unfold Kernel.slotRelease
  dsimp only
  split
  · exact h.refl k
  · exact h.edit k hp (.state .unused)

/-- All that `proc_clone` does once it has a slot for the child. -/
theorem procClone {i : ℕ} (hFree : k.freeSlot = some i) (hi : P i) (hp : P p) {thread : Bool}
    {weight : BitVec 32}
    (hBirth : ∀ (k' : Kernel) c,
      R k' ((k'.cgAttach i c weight).modify i (.inherit (k.procs p) thread)))
    (vfork admitted : Bool) : R (k.procAlloc i) (k.procClone p thread vfork admitted weight) := by
  have hRelease := h.slotRelease hi (k.procAlloc i)
  unfold Kernel.procClone newTask
  rw [hFree]
  dsimp only
  cases (k.procs p).cg with
  | none => exact hRelease
  | some c =>
    have hChild := h.trans (hBirth (k.procAlloc i) c) (h.touches hi (touches_enqueueFresh _ i))
    dsimp only
    cases admitted && ((k.procAlloc i).cgs c).live with
    | false => exact hRelease
    | true =>
      cases vfork with
      | false => exact hChild
      | true =>
        exact h.trans (h.trans hChild (h.edit _ hi (.vforkParent _))) (h.edit _ hp (.block .vfork))

variable (hAll : ∀ p, P p)
include hAll

theorem quiet (hQuiet : op.quiet) : R k (op.exec k) := by
  cases op with
  | block p why => exact h.edit k (hAll p) (.block why)
  | stop p => exact h.edit k (hAll p) (.state .stopped)
  | preempt p => exact h.touches (hAll p) (touches_putPrev k p)
  | dispatch p =>
    exact h.trans (h.touches (hAll p) (touches_rqRemove k p)) (h.edit _ (hAll p) (.state .running))
  | wake p => exact h.touches (hAll p) (touches_schedWake k p)
  | signal p sig => exact h.procSignal (hAll p) k sig
  | fork | clone | execve | exit | exitGroup | waitpid =>
    exact absurd hQuiet (by simp [TaskOp.quiet])

section

variable (k : Kernel) (p : ℕ)

theorem condemn (self : Bool) : R k (k.condemn p self) := by
  refine h.foldl (fun k i => ?_) _ k
  have hDying := h.edit k (hAll i) .dying
  unfold condemnOne
  dsimp only
  split
  · exact h.refl k
  split
  · exact h.trans hDying (h.touches (hAll i) (touches_schedWake _ i))
  · exact hDying

theorem vforkWakeParent : R k (k.vforkWakeParent p) := by
  have hClear := h.edit k (hAll p) (.vforkParent 0)
  unfold Kernel.vforkWakeParent
  dsimp only
  split
  · exact h.refl k
  split
  · exact hClear
  split
  · exact h.trans hClear (h.touches (hAll _) (touches_enqueueFresh _ _))
  · exact hClear

theorem procNotifyParent : R k (k.procNotifyParent p) := by
  unfold Kernel.procNotifyParent
  split
  · exact h.refl k
  · exact h.told (hAll _) k

theorem procExecve : R k (k.procExecve p) :=
  h.trans (h.trans (h.condemn hAll k p false) (h.edit _ (hAll p) .renew))
    (h.vforkWakeParent hAll _ p)

theorem procWaitpid (pid : ℤ) (untraced nohang : Bool) :
    R k (k.procWaitpid p pid untraced nohang) := by
  unfold Kernel.procWaitpid
  split
  next c _ =>
    split
    · refine h.trans (h.slotRelease (hAll c) k) (h.foldl (fun k j => ?_) _ _)
      unfold sweepOne
      split
      · exact h.slotRelease (hAll j) k
      · exact h.refl k
    · exact h.edit k (hAll c) (.reported true)
  next =>
    split
    · exact h.refl k
    · exact h.edit k (hAll p) (.block .child)

variable (hTear : ∀ k : Kernel, R k (k.procTeardown p)) (status : ℤ)
include hTear

theorem die : R k ((k.procTeardown p).modify p (.die status)) :=
  h.trans (hTear k) (h.edit _ (hAll p) (.die status))

theorem exitLeader : R k (k.exitLeader p status) :=
  h.trans (h.trans (h.condemn hAll k p true) (h.die hAll _ p hTear status))
    (h.procNotifyParent hAll _ p)

theorem exitForLeader {leader : ℕ} (hLeader : ∀ k : Kernel, R k (k.procTeardown leader)) :
    R k (k.exitForLeader p leader status) := by
  have hRemove := h.trans (h.condemn hAll k p true)
    (h.touches (hAll leader) (touches_rqRemove _ leader))
  have hClosed := fun sig => h.trans (h.trans hRemove (hLeader _))
    (h.edit _ (hAll leader) (.termSig sig))
  exact h.trans (h.trans (hClosed _) (h.edit _ (hAll leader) (.die status)))
    (h.die hAll _ p hTear status)

theorem exitThread (hThread : (k.procs p).pid ≠ (k.procs p).tgid) : R k (k.procExit p status) := by
  unfold procExit
  rw [if_neg hThread]
  exact h.trans (h.trans (hTear k) (h.vforkWakeParent hAll _ p)) (h.edit _ (hAll p) (.die status))

end

end Closed

/-- Every task of `k'` is the task of `k` in its slot, after some changes. -/
def Drifts (k k' : Kernel) : Prop := ∀ q, ReflTransGen Proc.Drift (k.procs q) (k'.procs q)

namespace Drifts

theorem trans (h : Drifts k k') (h' : Drifts k' k'') : Drifts k k'' := fun q => (h q).trans (h' q)

theorem of_touches (h : Touches p k k') : Drifts k k' := fun q => by
  by_cases hq : q = p
  · rw [hq]
    exact .single (.entity h.ident h.signals h.tracing h.confined)
  · rw [h.other q hq]

section

variable (k p)

theorem modify (f : Proc → Proc) (hf : ∀ x, Proc.Drift x (f x)) : Drifts k (k.modify p f) :=
  fun q => by
  by_cases hq : q = p
  · rw [hq, procs_modify_self]
    exact .single (hf _)
  · rw [procs_modify_of_ne _ _ hq]

theorem closed : Closed (fun _ => True) Drifts where
  refl _ _ := .refl
  trans := trans
  touches _ := of_touches
  edit {p f} k _ hf := modify k p f hf.drift

theorem adopt : Drifts k (k.adopt p) := fun q => by
  unfold Kernel.adopt
  dsimp only
  split
  · exact .single (.orphan _)
  · exact .refl

theorem procTeardown : Drifts k (k.procTeardown p) :=
  ((modify k p _ .freeFilter).trans (of_touches (touches_cgDetach _ p))).trans (adopt _ p)

theorem procExitGroup (status : ℤ) : Drifts k (k.procExitGroup p status) := by
  unfold Kernel.procExitGroup
  split
  · exact closed.exitLeader (fun _ => trivial) k p (procTeardown · p) status
  split
  · exact closed.refl k
  · exact closed.exitForLeader (fun _ => trivial) k p (procTeardown · p) status (procTeardown · _)

theorem procExit (status : ℤ) : Drifts k (k.procExit p status) := by
  by_cases hLeader : (k.procs p).pid = (k.procs p).tgid
  · unfold Kernel.procExit
    rw [if_pos hLeader]
    exact procExitGroup k p status
  · exact closed.exitThread (fun _ => trivial) k p (procTeardown · p) status hLeader

end

theorem exec (hOld : op.newborn k = none) : Drifts k (op.exec k) := by
  cases op with
  | fork p admitted weight =>
    unfold TaskOp.exec procFork newTask
    rw [show k.freeSlot = none from hOld]
    exact closed.refl k
  | clone p thread vfork admitted weight =>
    unfold TaskOp.exec procClone newTask
    rw [show k.freeSlot = none from hOld]
    exact closed.refl k
  | execve p => exact closed.procExecve (fun _ => trivial) k p
  | exit p status => exact procExit k p status
  | exitGroup p status => exact procExitGroup k p status
  | waitpid p pid untraced nohang =>
    exact closed.procWaitpid (fun _ => trivial) k p pid untraced nohang
  | block | stop | preempt | dispatch | wake | signal => exact closed.quiet (fun _ => trivial) rfl

theorem keeps {I : Proc → Prop} (h : Drifts k k') (hI : ∀ x y, Proc.Drift x y → I x → I y) {q : ℕ}
    (hq : I (k.procs q)) : I (k'.procs q) := by
  have hPath := h q
  generalize k'.procs q = y at hPath ⊢
  induction hPath with
  | refl => exact hq
  | tail _ hStep ih => exact hI _ _ hStep ih

end Drifts

variable {I : Proc → Prop}

theorem closed_of_stable (hI : Proc.Stable I) :
    Closed (fun _ => True) fun k k' => (∀ q, I (k.procs q)) → ∀ q, I (k'.procs q) where
  refl _ h := h
  trans h h' hk := h' (h hk)
  touches _ hT h q := (Drifts.of_touches hT).keeps hI.drift (h q)
  edit k _ hf h q := (Drifts.closed.edit k trivial hf).keeps hI.drift (h q)

theorem TaskOp.stable_exec (hI : Proc.Stable I) (h : ∀ q, I (k.procs q)) (op : TaskOp) (q : ℕ) :
    I ((op.exec k).procs q) := by
  have hClone : ∀ p thread vfork admitted weight,
      I ((k.procClone p thread vfork admitted weight).procs q) := by
    intro p thread vfork admitted weight
    cases hFree : k.freeSlot with
    | none =>
      have hDrifts : Drifts k (TaskOp.exec k (.clone p thread vfork admitted weight)) := .exec hFree
      exact hDrifts.keeps hI.drift (h q)
    | some i =>
      refine (closed_of_stable hI).procClone hFree trivial trivial
        (fun k' c h' q => ?_) vfork admitted (fun q => ?_) q
      · have hAttach :=
          (Drifts.modify k' i (fun x => { x with cg := some c, schedWeight := weight })
          fun _ => .entity rfl rfl rfl rfl).keeps hI.drift (h' q)
        by_cases hq : q = i
        · rw [hq] at hAttach ⊢
          rw [procs_modify_self]
          exact hI.inherit _ _ _ (h p) hAttach
        · rw [procs_modify_of_ne _ _ hq]
          exact hAttach
      · by_cases hq : q = i
        · rw [hq, procs_procAlloc_self]
          exact hI.fresh _
        · rw [procs_procAlloc_of_ne k hq]
          exact h q
  cases op with
  | fork p admitted weight =>
    rw [exec, procFork_eq]
    exact hClone p false false admitted weight
  | clone p thread vfork admitted weight => exact hClone p thread vfork admitted weight
  | execve | exit | exitGroup | waitpid | block | stop | preempt | dispatch | wake | signal =>
    exact (Drifts.exec rfl).keeps hI.drift (h q)

end Kernel

end Gnos
