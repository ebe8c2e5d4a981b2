import Gnos.Proc.Run

/-! One task for each pid, and what `proc_execve` leaves alive. -/

namespace Gnos.Kernel

open ProofKit Roster

/-- The process table, with the threads that the task of a slot replaced in its last `proc_execve`
and that are still in their slots. -/
structure Lineage where
  k : Kernel
  replaced : ℕ → ℕ → Bool

namespace Lineage

/-- Slot `i` gets a new task. -/
def forget (replaced : ℕ → ℕ → Bool) (i : ℕ) (p q : ℕ) : Bool :=
  p ≠ i && q ≠ i && replaced p q

/-- The other threads of the group of `p`. -/
def threads (k : Kernel) (p q : ℕ) : Bool :=
  q < maxProcs && q ≠ p && (k.procs q).state ≠ .unused && (k.procs q).tgid = (k.procs p).tgid

def track (s : Lineage) : TaskOp → ℕ → ℕ → Bool
  | .fork .. | .clone .. =>
    match s.k.freeSlot with
    | some i => forget s.replaced i
    | none => s.replaced
  | .execve p => fun p' q => if p' = p then threads s.k p q else s.replaced p' q
  | _ => s.replaced

def exec (s : Lineage) (op : TaskOp) : Lineage := ⟨op.exec s.k, s.track op⟩

def Enabled (s : Lineage) (op : TaskOp) : Prop := op.Enabled s.k

instance (s : Lineage) (op : TaskOp) : Decidable (s.Enabled op) :=
  inferInstanceAs (Decidable (op.Enabled s.k))

structure Start (s : Lineage) : Prop where
  init : OnlyInit s.k
  replaced : ∀ p q, s.replaced p q = false

/-- No thread but a leader calls `proc_execve`, a thread that is sentenced ends with `proc_exit`,
and the counter of the pids does not wrap. -/
def Careful (s : Lineage) (op : TaskOp) : Prop :=
  op.NoWrap s.k ∧
    match op with
    | .execve p => (s.k.procs p).pid = (s.k.procs p).tgid
    | .exitGroup p _ => (s.k.procs p).groupDying = false
    | _ => True

instance (s : Lineage) (op : TaskOp) : Decidable (s.Careful op) := by
  rcases op <;> unfold Careful <;> infer_instance

end Lineage

structure UniquePids (k : Kernel) : Prop where
  unique : ∀ i j, (k.procs i).state ≠ .unused → (k.procs j).state ≠ .unused →
    (k.procs i).pid = (k.procs j).pid → i = j
  byPid : ∀ i < maxProcs, (k.procs i).state ≠ .unused → k.procByPid (k.procs i).pid = some i

def Unharmed (k : Kernel) (p : ℕ) : Prop := Alive k p ∧ (k.procs p).groupDying = false

namespace Lineage

/-- Where a step ends a task, the tasks that replaced it in `proc_execve` go on. -/
def Spares (s : Lineage) (op : TaskOp) : Prop :=
  ∀ t status, op = .exit t status ∨ op = .exitGroup t status →
    ∀ p, s.replaced p t → Unharmed s.k p → Unharmed (op.exec s.k) p

/-- Who is replaced is sentenced and no leader, and a leader that is sentenced is dead. -/
structure Inv (r : Roster) (replaced : ℕ → ℕ → Bool) : Prop where
  numbered : r.Numbered
  replaced : ∀ p q m, replaced p q → r.member q = some m → m.dying ∧ m.pid ≠ m.tgid
  leader : ∀ i m, r.member i = some m → m.pid = m.tgid → m.dying → m.dead

variable {k k' : Kernel} {p : ℕ} {s : Lineage} {m : Member}

namespace Inv

variable {r : Roster} {replaced : ℕ → ℕ → Bool}

section

variable (h : Inv r replaced)
include h

theorem alter {f : ℕ → Member → Member}
    (hNames : ∀ j m, r.member j = some m → (f j m).pid = m.pid ∧ (f j m).tgid = m.tgid)
    (hDying : ∀ j m, m.dying → (f j m).dying)
    (hLeader : ∀ j m, r.member j = some m → m.pid = m.tgid → (m.dying → m.dead) →
      (f j m).dying → (f j m).dead) : Inv (r.alter f) replaced where
  numbered := h.numbered.alter fun j m hj => (hNames j m hj).1
  replaced p q m hpq hq := by
    obtain ⟨m0, hq0, rfl⟩ := member_alter_eq_some.mp hq
    obtain ⟨hPid, hTgid⟩ := hNames q m0 hq0
    obtain ⟨hSentenced, hThread⟩ := h.replaced p q m0 hpq hq0
    rw [hPid, hTgid]
    exact ⟨hDying q m0 hSentenced, hThread⟩
  leader i m hi := by
    obtain ⟨m0, hi0, rfl⟩ := member_alter_eq_some.mp hi
    obtain ⟨hPid, hTgid⟩ := hNames i m0 hi0
    rw [hPid, hTgid]
    exact fun hEq => hLeader i m0 hi0 hEq (h.leader i m0 hi0 hEq)

theorem drop (gone : ℕ → Member → Bool) : Inv (r.drop gone) replaced where
  numbered := h.numbered.drop gone
  replaced p q m hpq hq := h.replaced p q m hpq (member_drop_eq_some.mp hq).1
  leader i m hi := h.leader i m (member_drop_eq_some.mp hi).1

theorem mono {replaced' : ℕ → ℕ → Bool} (hMono : ∀ p q, replaced' p q → replaced p q)
    : Inv r replaced' :=
  ⟨h.numbered, fun p q m hpq => h.replaced p q m (hMono p q hpq), h.leader⟩

theorem burn (hWrap : r.nextPid < wrapInt (r.nextPid + 1)) : Inv r.burn replaced :=
  ⟨h.numbered.burn hWrap, h.replaced, h.leader⟩

theorem join (hWrap : r.nextPid < wrapInt (r.nextPid + 1)) {i : ℕ} (hPid : m.pid = r.nextPid)
    (hLiving : m.dying = false) (hNew : ∀ p, replaced p i = false) :
    Inv (r.burn.set i (some m)) replaced where
  numbered := h.numbered.join hWrap hPid
  replaced p q mq hpq hq := by
    have hqi : q ≠ i := fun hEq => by
      rw [hEq, hNew p] at hpq
      exact absurd hpq (by decide)
    rw [member_set_of_ne _ _ hqi] at hq
    exact h.replaced p q mq hpq hq
  leader j mj hj hEq hDying := by
    by_cases hji : j = i
    · rw [hji, member_set_self, Option.some.injEq] at hj
      rw [← hj, hLiving] at hDying
      exact absurd hDying (by decide)
    · rw [member_set_of_ne _ _ hji] at hj
      exact h.leader j mj hj hEq hDying

/-- The group `tgid` is sentenced, and its leader `l` ends. -/
theorem exitGroup {p l : ℕ} {ml : Member} {tgid : ℤ} (hl : r.member l = some ml)
    (hPid : ml.pid = tgid)
    (pid' tgid' : ℤ) : Inv (((r.condemn tgid p true).adopt pid' tgid').die l) replaced := by
  simp only [Roster.condemn, Roster.adopt, Roster.die, Roster.alter_alter]
  refine h.alter (fun j m' _ => ?_) (fun j m' hDying => ?_) fun j m' hj hEq hOld => ?_
  · split_ifs <;> exact ⟨rfl, rfl⟩
  · split_ifs <;> first | rfl | exact hDying
  · -- a leader sentenced here has the number of `l`
    by_cases hTgid : m'.tgid = tgid
    · have hjl : j = l := h.numbered.unique j l m' ml hj hl (by rw [hEq, hTgid, hPid])
      simp [hjl]
    · simp only [hTgid, false_and, and_false, if_false]
      split_ifs <;> first | exact hOld | exact fun _ => rfl

theorem exitThread (pid tgid : ℤ) (p : ℕ) : Inv ((r.adopt pid tgid).die p) replaced := by
  simp only [Roster.adopt, Roster.die, Roster.alter_alter]
  refine h.alter (fun j m' _ => ?_) (fun j m' hDying => ?_) fun j m' hj hEq hOld => ?_
  · split_ifs <;> exact ⟨rfl, rfl⟩
  · split_ifs <;> exact hDying
  · split_ifs <;> first | exact hOld | exact fun _ => rfl

theorem execve {p : ℕ} (hp : r.member p = some m) (hLeader : m.pid = m.tgid) :
    Inv ((r.condemn m.tgid p false).renew p) replaced := by
  simp only [Roster.condemn, Roster.renew, Roster.alter_alter]
  refine h.alter (fun j m' hj => ?_) (fun j m' hDying => ?_) fun j m' hj hEq hOld => ?_
  · by_cases hjp : j = p
    · rw [hjp, hp, Option.some.injEq] at hj
      simp [hjp, ← hj, hLeader]
    · split_ifs <;> exact ⟨rfl, rfl⟩
  · split_ifs <;> first | rfl | exact hDying
  · by_cases hTgid : m'.tgid = m.tgid
    · have hjp : j = p := h.numbered.unique j p m' m hj hp (by rw [hEq, hTgid, hLeader])
      simpa [hjp] using hOld
    · simp only [hTgid, false_and, and_false, if_false]
      split_ifs <;> exact hOld

end

end Inv

theorem forget_le {replaced : ℕ → ℕ → Bool} {i p q : ℕ} (h : forget replaced i p q) :
    replaced p q := by
  simp only [forget, Bool.and_eq_true] at h
  exact h.2

theorem Inv.procExitGroup {r : ℕ → ℕ → Bool} (h : Inv k.roster r)
    (hUsed : (k.procs p).state ≠ .unused)
    (status : ℤ) : Inv (k.procExitGroup p status).roster r := by
  unfold Kernel.procExitGroup
  split
  next hLeader =>
    rw [roster_exitLeader hUsed]
    exact h.exitGroup (member_of_used hUsed) hLeader _ _
  next =>
    split
    · exact h
    next l hFind =>
      rw [procByPid_eq_find] at hFind
      obtain ⟨ml, hl, hPid⟩ := member_of_find hFind
      obtain ⟨hUsedL, hPidL, -, hTgidL, -⟩ := of_member hl
      rw [roster_exitForLeader hUsed hUsedL, hPidL, hTgidL]
      exact (h.exitGroup hl hPid _ _).exitThread _ _ p

theorem Inv.procExit {r : ℕ → ℕ → Bool} (h : Inv k.roster r) (hUsed : (k.procs p).state ≠ .unused)
    (status : ℤ) : Inv (k.procExit p status).roster r := by
  by_cases hLeader : (k.procs p).pid = (k.procs p).tgid
  · unfold Kernel.procExit
    rw [if_pos hLeader]
    exact h.procExitGroup hUsed status
  · rw [roster_exitThread hUsed hLeader]
    exact h.exitThread _ _ p

theorem Inv.start (h : s.Start) : Inv s.k.roster s.replaced where
  numbered := h.init.numbered
  replaced p q m hpq := by simp [h.replaced p q] at hpq
  leader i m hi _ hDying := by
    obtain ⟨-, -, -, hLiving⟩ := h.init.member hi
    rw [hLiving] at hDying
    exact absurd hDying (by decide)

theorem Inv.uniquePids {r : ℕ → ℕ → Bool} (h : Inv k.roster r) : UniquePids k where
  unique i j hi hj hPid := h.numbered.unique i j _ _ (member_of_used hi) (member_of_used hj) hPid
  byPid i hLt hi := by
    rw [procByPid_eq_find]
    exact h.numbered.find hLt (member_of_used hi)

theorem unharmed_iff (k : Kernel) (p : ℕ) :
    Unharmed k p ↔ ∃ m, k.roster.member p = some m ∧ m.dead = false ∧ m.dying = false := by
  unfold Unharmed
  rw [alive_iff]
  constructor
  · rintro ⟨⟨m, hm, hDead⟩, hLiving⟩
    exact ⟨m, hm, hDead, (of_member hm).2.2.2.2.1.symm.trans hLiving⟩
  · rintro ⟨m, hm, hDead, hLiving⟩
    exact ⟨⟨m, hm, hDead⟩, (of_member hm).2.2.2.2.1.trans hLiving⟩

theorem unharmed_exitThread {t : ℕ} (hUsed : (k.procs t).state ≠ .unused)
    (hThread : (k.procs t).pid ≠ (k.procs t).tgid) (status : ℤ) (hpt : p ≠ t) (h : Unharmed k p) :
    Unharmed (k.procExit t status) p := by
  obtain ⟨m, hm, hDead, hLiving⟩ := (unharmed_iff k p).mp h
  refine (unharmed_iff _ p).mpr ?_
  rw [roster_exitThread hUsed hThread]
  simp only [Roster.adopt, Roster.die, Roster.alter_alter]
  refine ⟨_, Roster.member_alter_eq_some.mpr ⟨m, hm, rfl⟩, ?_⟩
  simp only [hpt, if_false]
  split_ifs <;> exact ⟨hDead, hLiving⟩

section

variable (h : Inv s.k.roster s.replaced) {op : TaskOp}
include h

theorem Inv.create {k' : Kernel} {p : ℕ} {thread : Bool}
    (hWrap : s.k.gNextPid < wrapInt (s.k.gNextPid + 1))
    (hMade : k'.roster = s.k.roster ∨ k'.roster = s.k.roster.burn ∨ ∃ i, s.k.freeSlot = some i ∧
        k'.roster = s.k.roster.burn.set i (some (s.k.newMember p thread))) :
    Inv k'.roster (match s.k.freeSlot with
      | some i => forget s.replaced i
      | none => s.replaced) := by
  have hLess : Inv s.k.roster (match s.k.freeSlot with
      | some i => forget s.replaced i
      | none => s.replaced) := by
    split
    · exact h.mono fun _ _ => forget_le
    · exact h
  rcases hMade with hSame | hBurn | ⟨i, hFree, hNew⟩
  · rw [hSame]
    exact hLess
  · rw [hBurn]
    exact hLess.burn hWrap
  · rw [hFree] at hLess ⊢
    rw [hNew]
    exact hLess.join hWrap rfl rfl fun p => by simp [forget]

theorem Inv.renew {p : ℕ} (hUsed : (s.k.procs p).state ≠ .unused)
    (hLeader : (s.k.procs p).pid = (s.k.procs p).tgid) :
    Inv (s.k.procExecve p).roster (s.track (.execve p)) := by
  have hMember := member_of_used hUsed
  have hOld := h.execve hMember hLeader
  rw [roster_procExecve]
  refine ⟨hOld.numbered, fun p' q m hpq hq => ?_, hOld.leader⟩
  by_cases hp' : p' = p
  · simp only [track, hp', if_true, threads, Bool.and_eq_true, decide_eq_true_eq] at hpq
    obtain ⟨⟨⟨hLt, hqp⟩, -⟩, hTgid⟩ := hpq
    simp only [Roster.condemn, Roster.renew, Roster.alter_alter] at hq
    obtain ⟨m0, hq0, rfl⟩ := member_alter_eq_some.mp hq
    obtain ⟨-, -, -, hTgid0, -⟩ := of_member hq0
    have hGroup : m0.tgid = (s.k.procs p).tgid := hTgid0.symm.trans hTgid
    have hPid : m0.pid ≠ m0.tgid := fun hEq =>
      hqp (h.numbered.unique q p m0 _ hq0 hMember (by rw [hEq, hGroup, hLeader]))
    simpa [hLt, hqp, hGroup] using hPid
  · simp only [track, hp', if_false] at hpq
    exact hOld.replaced p' q m hpq hq

theorem Inv.exec (hOn : s.Enabled op) (hCareful : s.Careful op) :
    Inv (s.exec op).k.roster (s.exec op).replaced := by
  obtain ⟨hWrap, hCareful⟩ := hCareful
  cases op with
  | fork p admitted weight =>
    rw [Lineage.exec, TaskOp.exec, procFork_eq]
    exact h.create hWrap (roster_procClone (alive_of_running hOn) false false admitted weight)
  | clone p thread vfork admitted weight =>
    exact h.create hWrap (roster_procClone (alive_of_running hOn) thread vfork admitted weight)
  | execve p => exact h.renew (alive_of_running hOn).1 hCareful
  | exit p status => exact h.procExit (alive_of_running hOn).1 status
  | exitGroup p status => exact h.procExitGroup (alive_of_running hOn).1 status
  | waitpid p pid untraced nohang =>
    show Inv (s.k.procWaitpid p pid untraced nohang).roster s.replaced
    rcases roster_procWaitpid (alive_of_running hOn) pid untraced nohang with
      hSame | ⟨c, -, -, -, hReap⟩
    · rw [hSame]
      exact h
    · rw [hReap]
      exact h.drop _
  | block | stop | preempt | dispatch | wake | signal =>
    exact (congrArg (Inv · s.replaced) (TaskOp.roster_exec rfl hOn)).mpr h

theorem Inv.spares (hOn : s.Enabled op) (hCareful : s.Careful op) : s.Spares op := by
  intro t status hEnd p hpt hUnharmed
  have hReplaced : (s.k.procs t).state ≠ .unused →
      (s.k.procs t).groupDying ∧ (s.k.procs t).pid ≠ (s.k.procs t).tgid :=
    fun hUsed => h.replaced p t _ hpt (member_of_used hUsed)
  rcases hEnd with rfl | rfl
  · have hUsed := (alive_of_running hOn).1
    obtain ⟨hDying, hThread⟩ := hReplaced hUsed
    have hNe : p ≠ t := fun hEq => by
      rw [← hEq, hUnharmed.2] at hDying
      exact absurd hDying (by decide)
    exact unharmed_exitThread hUsed hThread status hNe hUnharmed
  · obtain ⟨hDying, -⟩ := hReplaced (alive_of_running hOn).1
    have hLiving : (s.k.procs t).groupDying = false := hCareful.2
    rw [hLiving] at hDying
    exact absurd hDying (by decide)

end

/-- In a run in which only leaders change their program and the sentenced only exit, pids are unique
and a task that changed its program is not killed by the threads it replaced. -/
theorem unique_pids {s : Lineage}
    (h : Reaches Start (fun s op => s.Enabled op ∧ s.Careful op) exec s) :
    UniquePids s.k ∧ ∀ op, s.Enabled op → s.Careful op → s.Spares op := by
  have hInv : Inv s.k.roster s.replaced :=
    h.invariant (fun _ hStart => Inv.start hStart) fun _ _ hInv hOp => hInv.exec hOp.1 hOp.2
  exact ⟨hInv.uniquePids, fun op hOn hCareful => hInv.spares hOn hCareful⟩

theorem start_initKernel : Start ⟨initKernel, fun _ _ => false⟩ :=
  ⟨onlyInit_initKernel, fun _ _ => rfl⟩

/-- Init clones a thread, which runs, and changes its own program; the thread then ends. -/
theorem unique_pids_leader_execs :
    UniquePids ([.clone 0 true false true 1024, .dispatch 1, .execve 0, .exit 1 0].foldl exec
      ⟨initKernel, fun _ _ => false⟩).k := by
  refine (unique_pids ((Reaches.start start_initKernel).foldl _ ?_)).1
  decide +kernel

/-- A thread of init changes its program and takes the number of init, which still has its slot;
when init, sentenced, comes to exit, it sentences the thread. -/
theorem thread_takes_pid_of_leader :
    ∃ s op, Reaches Start Enabled exec s ∧ s.Enabled op ∧ ¬ UniquePids s.k ∧ ¬ s.Spares op := by
  obtain ⟨s, hReach, hRuns, hUsed, hUsed', hPid, hReplaced, hUnharmed, hHarmed⟩ :
      ∃ s, Reaches Start Enabled exec s ∧ (s.k.procs 0).state = .running ∧
        (s.k.procs 0).state ≠ .unused ∧ (s.k.procs 1).state ≠ .unused ∧
        (s.k.procs 0).pid = (s.k.procs 1).pid ∧ s.replaced 1 0 ∧
        ((s.k.procs 1).state = .running ∧ (s.k.procs 1).groupDying = false) ∧
        ((s.k.procExit 0 0).procs 1).groupDying :=
    ⟨_, (Reaches.start start_initKernel).foldl
      [.clone 0 true false true 1024, .dispatch 1, .execve 1] (by decide +kernel), by
      decide +kernel⟩
  refine ⟨s, .exit 0 0, hReach, hRuns, fun h => ?_, fun h => ?_⟩
  · exact absurd (h.unique 0 1 hUsed hUsed' hPid) (by decide)
  · have hLiving := (h 0 0 (.inl rfl) 1 hReplaced ⟨alive_of_running hUnharmed.1, hUnharmed.2⟩).2
    exact absurd (hHarmed.symm.trans hLiving) (by decide)

end Lineage

end Gnos.Kernel
