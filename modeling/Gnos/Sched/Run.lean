import Gnos.ProofKit.Runs
import Gnos.Sched.Membership

/-! Runs of the scheduler: the steps of `src/kernel/proc.c` that make tasks runnable, switch them
and take them away, in any order and on any processor. -/

namespace Gnos.Kernel

open ProofKit Function Touches ProcState

variable {k : Kernel} {p cpu : ℕ}

/-- What happens to the run queues; a step is what happens under one hold of `g_proc_lock`, with the
stores that lead up to it.  A task that stops, ends, or is `kthreadd` without work, stores its new
state and comes to the scheduler in a later step, as `yield`. -/
inductive SchedOp
  /-- A task is made and entered in a cgroup with the weight of that cgroup, or refused by it. -/
  | spawn (cg : Option ℕ) (weight : BitVec 32)
  /-- `proc_make_runnable` of a stopped or waiting task. -/
  | resume (p : ℕ)
  | wake (p : ℕ)
  | yield (cpu : ℕ)
  | block (cpu : ℕ) (why : WaitReason)
  /-- The store of `stop_current`. -/
  | stop (cpu : ℕ)
  /-- The store of `kthreadd_main`. -/
  | park (cpu : ℕ)
  /-- The end of `proc_exit` and `proc_exit_group` for the caller, up to the switch. -/
  | exit (cpu : ℕ)
  /-- What `proc_exit_group` does to a leader that is not the caller. -/
  | killLeader (p : ℕ)
  | tick (cpu : ℕ)
  /-- The timer counts. -/
  | timer
  | refresh
  | setMax (c : ℕ) (quotaTicks : Word) (periodTicks : BitVec 32)
  | setaffinity (p : ℕ) (mask : BitVec 32)
  /-- `proc_waitpid` releases the slot of a zombie. -/
  | reap (p : ℕ)

/-- `proc_alloc`, `cg_attach_new` and `proc_make_runnable`. -/
def spawn (k : Kernel) (cg : Option ℕ) (weight : BitVec 32) : Kernel :=
  match k.freeSlot with
  | none => k
  | some i =>
    match cg with
    | none => (k.procAlloc i).slotRelease i
    | some c => ((k.procAlloc i).cgAttach i c weight).enqueueFresh i

/-- The task of processor `cpu` stores the state `s`. -/
def leaveWith (k : Kernel) (cpu : ℕ) (s : ProcState) : Kernel :=
  match k.current cpu with
  | none => k
  | some p => k.modify p (.setState s)

def exitCurrent (k : Kernel) (cpu : ℕ) : Kernel :=
  match k.current cpu with
  | none => k
  | some p => (k.cgDetach p).modify p (.setState .zombie)

def killLeader (k : Kernel) (p : ℕ) : Kernel :=
  ((k.rqRemove p).cgDetach p).modify p (.setState .zombie)

namespace SchedOp

def exec (k : Kernel) : SchedOp → Kernel
  | .spawn cg weight => k.spawn cg weight
  | .resume p => k.enqueueFresh p
  | .wake p => k.schedWake p
  | .yield cpu => k.schedule cpu
  | .block cpu why => k.schedBlock cpu why
  | .stop cpu => k.leaveWith cpu .stopped
  | .park cpu => k.leaveWith cpu .blocked
  | .exit cpu => k.exitCurrent cpu
  | .killLeader p => k.killLeader p
  | .tick cpu => k.schedTick cpu
  | .timer => { k with ticks := k.ticks + 1 }
  | .refresh => k.cgTickRefresh
  | .setMax c quotaTicks periodTicks => k.cgCpuSetMax c quotaTicks periodTicks
  | .setaffinity p mask => k.schedSetaffinity p mask
  | .reap p => k.slotRelease p

/-- When the kernel takes a step; there are 16 processors. -/
def Enabled (k : Kernel) : SchedOp → Prop
  | .resume p => (k.procs p).state = .blocked ∨ (k.procs p).state = .stopped
  | .yield cpu | .block cpu _ | .stop cpu | .park cpu | .exit cpu | .tick cpu => cpu < 16
  | .killLeader p => (k.procs p).state ≠ .unused
  | .setaffinity p mask => (k.procs p).state ≠ .unused ∧ mask &&& 0xF ≠ 0
  | .reap p => (k.procs p).state = .zombie
  | _ => True

instance (k : Kernel) (op : SchedOp) : Decidable (Enabled k op) := by
  rcases op <;> unfold Enabled <;> infer_instance

/-- Processors whose number is the same to `schedule_locked`, which reduces it, and to the code that
puts a task back, which clamps it; affinity that does not move a queued or running task; process
numbers that do not wrap; no wake-up of a task, and no release of a slot, that a processor has still
to switch away from. -/
def Steady (k : Kernel) : SchedOp → Prop
  | .spawn _ _ => k.gNextPid < wrapInt (k.gNextPid + 1)
  | .yield cpu | .block cpu _ | .tick cpu => clampCpu cpu = cpu % nrRq
  | .setaffinity p mask =>
    (k.procs p).state ≠ .ready ∧ (k.procs p).state ≠ .running ∨
      (k.procs p).rqCpu = lowestCpu (mask &&& 0xF)
  | .resume p | .reap p => ∀ cpu, k.current cpu ≠ some p
  | .wake p => (k.procs p).state = .blocked → ∀ cpu, k.current cpu ≠ some p
  | .refresh => k.Settled
  | _ => True

end SchedOp

structure SchedBoot (k : Kernel) : Prop where
  procs : ∀ p, (k.procs p).state = .unused
  rqs : ∀ q, (k.rqs q).root = .nil ∧ (k.rqs q).count = 0
  current : ∀ cpu, k.current cpu = none

theorem Queues.cgDetach {home : ℕ → Option ℕ} (h : Queues k home) (p : ℕ) :
    Queues (k.cgDetach p) home := by
  unfold Kernel.cgDetach
  refine Queues.modify ?_ _ (.inr ⟨rfl, rfl⟩)
  cases (k.procs p).cg with
  | none => exact h
  | some c =>
    dsimp only
    split
    · exact h.congr (fun _ => rfl) (fun _ => rfl) fun _ _ => ⟨rfl, rfl⟩
    · exact h

theorem Queues.rqRemove (h : Queues k k.homeOf)
    (hReady : (k.procs p).state = .ready → 0 ≤ (k.procs p).rqCpu ∧ (k.procs p).rqCpu < nrRq) :
    Queues (k.rqRemove p) (update k.homeOf p none) := by
  unfold Kernel.rqRemove
  dsimp only
  split
  next hOut =>
    have hNot : k.homeOf p = none := by
      refine homeOf_of_ne fun hState => ?_
      obtain ⟨hLow, hHigh⟩ := hReady hState
      rcases hOut with hState' | hLow' | hHigh'
      · exact hState' hState
      · omega
      · omega
    rw [← hNot, update_eq_self]
    exact h
  next hIn =>
    have hState : (k.procs p).state = .ready := by
      by_contra hState
      exact hIn (.inl hState)
    have hHome : k.homeOf p = some (k.procs p).rqCpu.toNat := if_pos hState
    refine Queues.modify ?_ _ (.inl (update_self p _ _))
    exact Queues.rqDequeue (h.modify _ (.inr ⟨rfl, rfl⟩)) hHome

namespace SchedInv

section

variable (h : SchedInv k none)
include h

theorem killLeader (hLive : (k.procs p).state ≠ .unused) : SchedInv (k.killLeader p) none := by
  have hQ := h.queues.rqRemove (h.ready p)
  have hState : ((k.killLeader p).procs p).state = .zombie := by
    rw [Kernel.killLeader, procs_modify_self]
    rfl
  refine h.retire ?_ ?_ (by rw [hState]; decide) (by rw [hState]; decide) (fun _ => hLive)
    fun _ _ => .inl (.inl hState)
  · exact (hQ.cgDetach p).modify _ (.inl (update_self p _ _))
  · exact ((touches_rqRemove k p).trans (touches_cgDetach _ p)).trans (entity _ p _ rfl)

theorem depart (hCur : k.current cpu = some p) {k' : Kernel} (hQ : Queues k' k.homeOf)
    (hT : Touches p k k') (hAtRest : AtRest (k'.procs p).state) : SchedInv k' none := by
  have hReady : (k'.procs p).state ≠ .ready := fun hEq => absurd (hEq ▸ hAtRest) (by decide)
  have hRun : (k'.procs p).state ≠ .running := fun hEq => absurd (hEq ▸ hAtRest) (by decide)
  refine h.retire ?_ hT hReady hRun (fun _ => h.ne_of_current hCur (by decide))
    fun _ _ => .inl hAtRest
  rw [← h.homeOf_current hCur, update_eq_self]
  exact hQ

theorem schedBlock (hCpu : clampCpu cpu = cpu % nrRq) (why : WaitReason) :
    SchedInv (k.schedBlock cpu why) none := by
  unfold Kernel.schedBlock
  split
  · exact h
  next p hCur =>
    refine SchedInv.schedule (loosen ?_ _) hCpu
    refine h.depart hCur (h.queues.modify _ (.inr ⟨rfl, rfl⟩)) (entity k p _ rfl) ?_
    rw [procs_modify_self]
    exact .inr (.inr rfl)

theorem leaveWith {s : ProcState} (hAtRest : AtRest s) : SchedInv (k.leaveWith cpu s) none := by
  unfold Kernel.leaveWith
  split
  · exact h
  next p hCur =>
    refine h.depart hCur (h.queues.modify _ (.inr ⟨rfl, rfl⟩)) (entity k p _ rfl) ?_
    rw [procs_modify_self]
    exact hAtRest

theorem exitCurrent : SchedInv (k.exitCurrent cpu) none := by
  unfold Kernel.exitCurrent
  split
  · exact h
  next p hCur =>
    have hT := (touches_cgDetach k p).trans (entity _ p (.setState .zombie) rfl)
    have hQ := (h.queues.cgDetach p).modify (p := p) (.setState .zombie) (.inr ⟨rfl, rfl⟩)
    refine h.depart hCur hQ hT ?_
    rw [procs_modify_self]
    exact .inl rfl

theorem slotRelease (hNot : ∀ cpu, k.current cpu ≠ some p) : SchedInv (k.slotRelease p) none := by
  unfold Kernel.slotRelease
  dsimp only
  split
  · exact h
  next hState =>
    have hUnused : ((k.modify p (.setState .unused)).procs p).state = .unused := by
      rw [procs_modify_self]
      rfl
    refine h.retire ?_ (entity k p _ rfl) (by rw [hUnused]; decide)
      (by rw [hUnused]; decide) (fun hEq => absurd hUnused hEq) fun c hc => absurd hc (hNot c)
    have hHome : k.homeOf p = none := homeOf_of_ne fun hEq => hState (.inl hEq)
    rw [← hHome, update_eq_self]
    exact h.queues.modify _ (.inl hHome)

theorem idle_of_unused (hUnused : (k.procs p).state = .unused) (cpu : ℕ) : k.current cpu ≠ some p :=
  fun hCur => h.ne_of_current hCur (by decide) hUnused

theorem fill (hUnused : (k.procs p).state = .unused) {x : Proc} (hx : x.state = .unused) {n : ℤ}
    (hn : k.gNextPid < n) : SchedInv { k.modify p fun _ => x with gNextPid := n } none := by
  have hHome : k.homeOf p = none := homeOf_of_ne (by rw [hUnused]; decide)
  have hSelf : ((k.modify p fun _ => x).procs p).state = .unused := by rw [procs_modify_self, hx]
  refine h.change (fun j => procs_modify_of_ne k fun _ => x) hn.le ?_
    (fun hj => absurd (hSelf.symm.trans hj) (by decide))
    (fun hj => absurd (hSelf.symm.trans hj) (by decide)) (fun c j _ hj => ⟨hj, id⟩)
    (fun c hc => absurd hc (h.idle_of_unused hUnused c)) (fun c c' => h.single c c' p)
    fun hj => absurd hSelf hj
  show Queues _ (update k.homeOf p ((k.modify p fun _ => x).homeOf p))
  rw [homeOf_of_ne fun hEq => absurd (hSelf.symm.trans hEq) (by decide), ← hHome, update_eq_self]
  exact (h.queues.modify (fun _ => x) (.inl hHome)).congr (fun _ => rfl) (fun _ => rfl) fun _ _ =>
    ⟨rfl, rfl⟩

theorem spawn (hn : k.gNextPid < wrapInt (k.gNextPid + 1)) (cg : Option ℕ) (weight : BitVec 32) :
    SchedInv (k.spawn cg weight) none := by
  unfold Kernel.spawn
  split
  · exact h
  next p hFree =>
    have hUnused := state_freeSlot hFree
    have hAlloc : SchedInv (k.procAlloc p) none := h.fill hUnused rfl hn
    cases cg with
    | none => exact hAlloc.slotRelease (h.idle_of_unused hUnused)
    | some c =>
      have hAttach : SchedInv ((k.procAlloc p).cgAttach p c weight) none :=
        (hAlloc.tweak _ rfl rfl rfl rfl fun _ => rfl).onlyCgs (OnlyCgs.setCg _ c _)
      have hPid : (((k.procAlloc p).cgAttach p c weight).procs p).pid = k.gNextPid := by
        simp [cgAttach]
      have hNew : ∀ j ≠ p, ((k.procAlloc p).cgAttach p c weight).procs j =
          k.procs j := fun j hj => by
        rw [cgAttach, procs_setCg, procs_modify_of_ne _ _ hj, procs_procAlloc_of_ne k hj]
      have hHome : ((k.procAlloc p).cgAttach p c weight).homeOf p = none := by
        refine homeOf_of_ne ?_
        simp [cgAttach]
      refine hAttach.requeue (fun j hj hUsed => ?_) ?_ (fun cpu hCur => ?_)
        (Queues.enqueueFresh hAttach.queues hHome fun a ha => ?_)
      · rw [hNew j hj] at hUsed ⊢
        rw [hPid]
        exact Int.ne_of_lt (h.fresh j hUsed)
      · rw [hPid]
        exact hn
      · exact absurd hCur (h.idle_of_unused hUnused cpu)
      · have hap : a ≠ p := fun hEq => ha (hEq ▸ hHome)
        have hReady := homeOf_ne_none ha
        rw [hNew a hap] at hReady ⊢
        rw [hPid]
        exact Int.ne_of_lt (h.fresh a (by rw [hReady]; decide))

theorem schedSetaffinity {mask : BitVec 32} (hMask : mask &&& 0xF ≠ 0)
    (hStay : (k.procs p).state ≠ .ready ∧ (k.procs p).state ≠ .running ∨
      (k.procs p).rqCpu = lowestCpu (mask &&& 0xF)) :
    SchedInv (k.schedSetaffinity p mask) none := by
  unfold Kernel.schedSetaffinity
  have hAllowed : SchedInv { k with cpuAllowed := update k.cpuAllowed p (mask &&& 0xF) } none :=
    h.congr (h.queues.congr (fun _ => rfl) (fun _ => rfl) fun _ _ => ⟨rfl, rfl⟩) (fun _ => rfl)
      (fun _ => rfl) (fun _ => rfl) (fun _ => rfl) rfl rfl
  generalize hk : ({ k with cpuAllowed := update k.cpuAllowed p (mask &&& 0xF) } : Kernel)
    = k' at hAllowed ⊢
  have hProcs : k'.procs = k.procs := hk ▸ rfl
  have hMaskOf : k'.cpuAllowed p = mask &&& 0xF := by
    rw [← hk]
    exact update_self p _ _
  have hPick : k'.pickCpu p = lowestCpu (mask &&& 0xF) := by
    rw [pickCpu, cpuMaskOf, hMaskOf, if_neg hMask]
  rw [← hProcs] at hStay
  rcases hStay with ⟨hReady, hRun⟩ | hSame
  · -- the queue of a task that is not on one
    have hHome : k'.homeOf p = none := homeOf_of_ne hReady
    refine hAllowed.retire (p := p) ?_ (entity k' p _ rfl) ?_ ?_ (fun hUsed => ?_)
      fun c hc => .inl ?_
    · rw [← hHome, update_eq_self]
      exact hAllowed.queues.modify _ (.inl hHome)
    · rwa [procs_modify_self]
    · rwa [procs_modify_self]
    · rwa [procs_modify_self] at hUsed
    · rw [procs_modify_self]
      exact (hAllowed.current_cases hc).resolve_left fun hOn => hRun hOn.1
  · exact hAllowed.tweak _ rfl (by rw [hPick, hSame]) rfl rfl fun _ => rfl

theorem cgCpuSetMax (c : ℕ) (quotaTicks : Word) (periodTicks : BitVec 32) :
    SchedInv (k.cgCpuSetMax c quotaTicks periodTicks) none := by
  exact h.onlyCgs (OnlyCgs.setCg k c _)

end

theorem boot (h : SchedBoot k) : SchedInv k none where
  queues :=
    { mem := fun q p => by simp [(h.rqs q).1, homeOf, h.procs]
      sorted := fun q => by
        rw [(h.rqs q).1]
        exact List.Pairwise.nil
      count := fun q => by simp [h.rqs q] }
  ready p hp := absurd ((h.procs p).symm.trans hp) (by decide)
  running p hp := absurd ((h.procs p).symm.trans hp) (by decide)
  current cpu p hp := absurd ((h.current cpu).symm.trans hp) (by simp)
  single cpu cpu' p hp := absurd ((h.current cpu).symm.trans hp) (by simp)
  pids i j hi := absurd (h.procs i) hi
  fresh i hi := absurd (h.procs i) hi

theorem exec (h : SchedInv k none) {op : SchedOp} (hOn : op.Enabled k) (hSteady : op.Steady k) :
    SchedInv (op.exec k) none := by
  cases op with
  | spawn cg weight => exact h.spawn hSteady cg weight
  | resume p => exact h.enqueueFresh hOn hSteady
  | wake p => exact h.schedWake hSteady
  | yield cpu => exact (h.loosen (some cpu)).schedule hSteady
  | block cpu why => exact h.schedBlock hSteady why
  | stop cpu => exact h.leaveWith (by decide)
  | park cpu => exact h.leaveWith (by decide)
  | exit cpu => exact h.exitCurrent
  | killLeader p => exact h.killLeader hOn
  | tick cpu => exact h.schedTick hSteady
  | timer =>
    exact h.congr (h.queues.congr (fun _ => rfl) (fun _ => rfl) fun _ _ => ⟨rfl, rfl⟩)
      (fun _ => rfl) (fun _ => rfl) (fun _ => rfl) (fun _ => rfl) rfl rfl
  | refresh => exact h.cgTickRefresh hSteady
  | setMax c quotaTicks periodTicks => exact h.cgCpuSetMax c quotaTicks periodTicks
  | setaffinity p mask => exact h.schedSetaffinity hOn.2 hSteady
  | reap p => exact h.slotRelease hSteady

end SchedInv

def emptyKernel : Kernel where
  procs _ := {}
  gNextPid := 1
  rqs _ := {}
  cgs _ := { live := true }
  current _ := none
  cpuAllowed _ := 0
  ticks := 0

end Gnos.Kernel
