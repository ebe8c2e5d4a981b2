import Gnos.Proc.Run

/-! Zombies: who is left to release their slots, and who is told about them. -/

namespace Gnos

open ProofKit Signal Roster Option

/-- Who belongs to whom: every group has the slot of its leader, and every leader but init has a
parent that is alive and not of the group. -/
structure Roster.Kin (r : Roster) : Prop where
  numbered : r.Numbered
  slots : ∀ i m, r.member i = some m → i < maxProcs
  groups : ∀ i m, r.member i = some m → m.tgid < r.nextPid
  init : ∃ m, r.member 0 = some m ∧ m.pid = 1 ∧ m.tgid = 1 ∧ m.dead = false
  leader : ∀ i m, r.member i = some m → ∃ l ml, r.member l = some ml ∧ ml.pid = m.tgid ∧
    ml.tgid = m.tgid
  parent : ∀ i m, r.member i = some m → m.pid = m.tgid → m.pid ≠ 1 →
    ∃ q mq, r.member q = some mq ∧ mq.pid = m.ppid ∧ mq.dead = false ∧ mq.tgid ≠ m.tgid

namespace Roster.Kin

variable {r : Roster} {p i : ℕ}

theorem of_member_exit {m m' : Member} (h : ((r.adopt m.pid m.tgid).die p).member i = some m') :
    ∃ m0, r.member i = some m0 ∧ m'.pid = m0.pid ∧ m'.tgid = m0.tgid ∧
      m'.ppid = if m0.ppid = m.pid ∧ m0.tgid ≠ m.tgid then 1 else m0.ppid := by
  unfold adopt die at h
  rw [alter_alter] at h
  obtain ⟨m0, h0, rfl⟩ := member_alter_eq_some.mp h
  refine ⟨m0, h0, ?_⟩
  split_ifs <;> simp_all

theorem member_exit {m m0 : Member} (h : r.member i = some m0) :
    ∃ m', ((r.adopt m.pid m.tgid).die p).member i = some m' ∧ m'.pid = m0.pid ∧ m'.tgid = m0.tgid ∧
      (i ≠ p → m'.dead = m0.dead) := by
  unfold adopt die
  rw [alter_alter]
  refine ⟨_, member_alter_eq_some.mpr ⟨m0, h, rfl⟩, ?_⟩
  split_ifs <;> simp_all

section

variable (h : r.Kin)
include h

theorem alter {f : ℕ → Member → Member}
    (hf : ∀ j m, r.member j = some m → (f j m).pid = m.pid ∧ (f j m).ppid = m.ppid ∧
      (f j m).tgid = m.tgid ∧ (f j m).dead = m.dead) : (r.alter f).Kin where
  numbered := h.numbered.alter fun j m hj => (hf j m hj).1
  slots i m hi := by
    obtain ⟨m0, hi0, -⟩ := member_alter_eq_some.mp hi
    exact h.slots i m0 hi0
  groups i m hi := by
    obtain ⟨m0, hi0, rfl⟩ := member_alter_eq_some.mp hi
    rw [(hf i m0 hi0).2.2.1]
    exact h.groups i m0 hi0
  init := by
    obtain ⟨m, hm, hPid, hTgid, hDead⟩ := h.init
    obtain ⟨hPid', -, hTgid', hDead'⟩ := hf 0 m hm
    exact ⟨_, member_alter_eq_some.mpr ⟨m, hm, rfl⟩, hPid'.trans hPid, hTgid'.trans hTgid,
      hDead'.trans hDead⟩
  leader i m hi := by
    obtain ⟨m0, hi0, rfl⟩ := member_alter_eq_some.mp hi
    obtain ⟨l, ml, hl, hPid, hTgid⟩ := h.leader i m0 hi0
    obtain ⟨hPid', -, hTgid', -⟩ := hf l ml hl
    rw [(hf i m0 hi0).2.2.1]
    exact ⟨l, _, member_alter_eq_some.mpr ⟨ml, hl, rfl⟩, hPid'.trans hPid, hTgid'.trans hTgid⟩
  parent i m hi := by
    obtain ⟨m0, hi0, rfl⟩ := member_alter_eq_some.mp hi
    obtain ⟨hPid0, hPpid0, hTgid0, -⟩ := hf i m0 hi0
    rw [hPid0, hPpid0, hTgid0]
    intro hLeader hInit
    obtain ⟨q, mq, hq, hPid, hDead, hTgid⟩ := h.parent i m0 hi0 hLeader hInit
    obtain ⟨hPid', -, hTgid', hDead'⟩ := hf q mq hq
    exact ⟨q, _, member_alter_eq_some.mpr ⟨mq, hq, rfl⟩, hPid'.trans hPid, hDead'.trans hDead,
      hTgid'.symm ▸ hTgid⟩

theorem exit {m : Member} (hp : r.member p = some m) (hInit : m.pid ≠ 1) :
    ((r.adopt m.pid m.tgid).die p).Kin := by
  obtain ⟨m1, h1, hPid1, hTgid1, hDead1⟩ := h.init
  have hp0 : 0 ≠ p := fun hEq => by
    rw [hEq, hp, some.injEq] at h1
    exact hInit (h1 ▸ hPid1)
  obtain ⟨m1', h1', hPid1', hTgid1', hDead1'⟩ := member_exit (p := p) (m := m) h1
  refine ⟨?_, fun j m' hj => ?_, fun j m' hj => ?_, ?_, fun j m' hj => ?_, fun j m' hj => ?_⟩
  · unfold adopt die
    rw [alter_alter]
    exact h.numbered.alter fun j m' _ => by split_ifs <;> rfl
  · obtain ⟨m0, hj0, -⟩ := of_member_exit hj
    exact h.slots j m0 hj0
  · obtain ⟨m0, hj0, -, hTgid, -⟩ := of_member_exit hj
    rw [hTgid]
    exact h.groups j m0 hj0
  · exact ⟨m1', h1', hPid1'.trans hPid1, hTgid1'.trans hTgid1, (hDead1' hp0).trans hDead1⟩
  · obtain ⟨m0, hj0, -, hTgid, -⟩ := of_member_exit hj
    obtain ⟨l, ml, hl, hlPid, hlTgid⟩ := h.leader j m0 hj0
    obtain ⟨ml', hl', hPid', hTgid', -⟩ := member_exit (p := p) (m := m) hl
    rw [hTgid]
    exact ⟨l, ml', hl', hPid'.trans hlPid, hTgid'.trans hlTgid⟩
  · obtain ⟨m0, hj0, hPid, hTgid, hPpid⟩ := of_member_exit hj
    rw [hPid, hTgid, hPpid]
    intro hLeader hNotInit
    obtain ⟨q, mq, hq, hqPid, hqDead, hqTgid⟩ := h.parent j m0 hj0 hLeader hNotInit
    by_cases hqp : q = p
    · -- a child of `p` goes to init, which is of another group
      rw [hqp, hp, some.injEq] at hq
      rw [if_pos ⟨by rw [← hqPid, hq], by rw [hq]; exact hqTgid.symm⟩]
      refine ⟨0, m1', h1', hPid1'.trans hPid1, (hDead1' hp0).trans hDead1, ?_⟩
      rw [hTgid1', hTgid1, ← hLeader]
      exact hNotInit.symm
    · have hStays : ¬ (m0.ppid = m.pid ∧ m0.tgid ≠ m.tgid) := fun hOrphan =>
        hqp (h.numbered.unique q p mq m hq hp (hqPid.trans hOrphan.1))
      rw [if_neg hStays]
      obtain ⟨mq', hq', hPid', hTgid', hDead'⟩ := member_exit (p := p) (m := m) hq
      exact ⟨q, mq', hq', hPid'.trans hqPid, (hDead' hqp).trans hqDead, hTgid'.symm ▸ hqTgid⟩

theorem condemn (tgid : ℤ) (p : ℕ) (self : Bool) : (r.condemn tgid p self).Kin :=
  h.alter fun j m _ => by split_ifs <;> exact ⟨rfl, rfl, rfl, rfl⟩

theorem execve {m : Member} (hp : r.member p = some m) (hLeader : m.pid = m.tgid) :
    ((r.condemn m.tgid p false).renew p).Kin := by
  refine (h.condemn m.tgid p false).alter fun j m' hj => ?_
  split
  next hjp =>
    obtain ⟨m0, hj0, rfl⟩ := member_alter_eq_some.mp hj
    rw [hjp, hp, some.injEq] at hj0
    simp [hjp, ← hj0, hLeader]
  next => exact ⟨rfl, rfl, rfl, rfl⟩

theorem sweep {tgid : ℤ} (hDead : ∀ j m, r.member j = some m → m.tgid = tgid → m.dead) :
    (r.sweep tgid).Kin := by
  have hStays : ∀ {j m}, r.member j = some m → m.tgid ≠ tgid ∨ m.dead = false →
      (r.sweep tgid).member j = some m := fun hj hOr => by
    refine member_drop_eq_some.mpr ⟨hj, ?_⟩
    rcases hOr with hTgid | hAlive
    · simp [hTgid]
    · simp [hAlive]
  have hGone : ∀ {j m}, (r.sweep tgid).member j = some m → r.member j = some m ∧ m.tgid ≠ tgid := by
    intro j m hj
    obtain ⟨hj0, hKept⟩ := member_drop_eq_some.mp hj
    refine ⟨hj0, fun hTgid => ?_⟩
    simp [h.slots j m hj0, hDead j m hj0 hTgid, hTgid] at hKept
  refine ⟨h.numbered.drop _, fun j m hj => h.slots j m (hGone hj).1,
    fun j m hj => h.groups j m (hGone hj).1, ?_, fun j m hj => ?_, fun j m hj hLeader hInit => ?_⟩
  · obtain ⟨m, hm, hPid, hTgid, hAlive⟩ := h.init
    exact ⟨m, hStays hm (.inr hAlive), hPid, hTgid, hAlive⟩
  · obtain ⟨l, ml, hl, hPid, hTgid⟩ := h.leader j m (hGone hj).1
    exact ⟨l, ml, hStays hl (.inl (hTgid.symm ▸ (hGone hj).2)), hPid, hTgid⟩
  · obtain ⟨q, mq, hq, hPid, hAlive, hTgid⟩ := h.parent j m (hGone hj).1 hLeader hInit
    exact ⟨q, mq, hStays hq (.inr hAlive), hPid, hAlive, hTgid⟩

section

variable (hWrap : r.nextPid < Kernel.wrapInt (r.nextPid + 1))
include hWrap

theorem burn : r.burn.Kin :=
  ⟨h.numbered.burn hWrap, h.slots, fun i m hi => (h.groups i m hi).trans hWrap, h.init, h.leader,
    h.parent⟩

theorem join {m mp : Member} (hi : r.member i = none) (hLt : i < maxProcs)
    (hp : r.member p = some mp)
    (hAlive : mp.dead = false) (hPid : m.pid = r.nextPid) (hPpid : m.ppid = mp.pid)
    (hTgid : m.tgid = mp.tgid ∨ m.tgid = r.nextPid) : (r.burn.set i (some m)).Kin := by
  have hOther : ∀ {j m'}, r.member j = some m' → (r.burn.set i (some m)).member j = some m' :=
    fun {j m'} hj => by
      have hji : j ≠ i := fun hEq => by
        rw [hEq, hi] at hj
        exact absurd hj (by simp)
      rw [member_set_of_ne _ _ hji]
      exact hj
  have hGroup := h.groups p mp hp
  have hCases : ∀ {j m'}, (r.burn.set i (some m)).member j = some m' →
      (j = i ∧ m' = m) ∨ r.member j = some m' := fun {j m'} hj => by
    by_cases hji : j = i
    · rw [hji, member_set_self, some.injEq] at hj
      exact .inl ⟨hji, hj.symm⟩
    · rw [member_set_of_ne _ _ hji] at hj
      exact .inr hj
  refine ⟨h.numbered.join hWrap hPid, fun j m' hj => ?_, fun j m' hj => ?_, ?_, fun j m' hj => ?_,
    fun j m' hj hLeader hInit => ?_⟩
  · rcases hCases hj with ⟨rfl, -⟩ | hj
    · exact hLt
    · exact h.slots j m' hj
  · show m'.tgid < Kernel.wrapInt (r.nextPid + 1)
    rcases hCases hj with ⟨-, rfl⟩ | hj
    · rcases hTgid with hTgid | hTgid <;> omega
    · have := h.groups j m' hj
      omega
  · obtain ⟨m1, h1, hRest⟩ := h.init
    exact ⟨m1, hOther h1, hRest⟩
  · rcases hCases hj with ⟨rfl, rfl⟩ | hj
    · rcases hTgid with hTgid | hTgid
      · obtain ⟨l, ml, hl, hlPid, hlTgid⟩ := h.leader p mp hp
        rw [hTgid]
        exact ⟨l, ml, hOther hl, hlPid, hlTgid⟩
      · exact ⟨j, m', member_set_self _ _ _, hPid.trans hTgid.symm, rfl⟩
    · obtain ⟨l, ml, hl, hRest⟩ := h.leader j m' hj
      exact ⟨l, ml, hOther hl, hRest⟩
  · rcases hCases hj with ⟨rfl, rfl⟩ | hj
    · -- a leader is not a thread of `p`: its number is new
      exact ⟨p, mp, hOther hp, hPpid.symm, hAlive, by omega⟩
    · obtain ⟨q, mq, hq, hRest⟩ := h.parent j m' hj hLeader hInit
      exact ⟨q, mq, hOther hq, hRest⟩

end

end

end Roster.Kin

namespace Kernel

variable {k k' : Kernel} {p q : ℕ}

/-- Every zombie is a leader that its parent can still reap, or a thread whose leader still has its
slot. -/
def NoStranded (k : Kernel) : Prop :=
  ∀ z, (k.procs z).state = .zombie →
    (k.procs z).pid = (k.procs z).tgid ∧ (∃ q < maxProcs, Alive k q ∧ k.isChild q (-1) z) ∨
      (k.procs z).pid ≠ (k.procs z).tgid ∧ ∃ l < maxProcs, (k.procs l).state ≠ .unused ∧
        (k.procs l).pid = (k.procs z).tgid ∧ (k.procs l).tgid = (k.procs z).tgid

def AwaitsChild (x : Proc) : Prop := x.state = .blocked ∧ x.waitReason = .child

/-- What `proc_make_runnable` leaves: a task that is ready, or parked until its cgroup has time
again. -/
def Runnable (x : Proc) : Prop := x.state = .ready ∨ x.state = .blocked ∧ x.waitReason = .cgroup

/-- Task `q` has been sent `SIGCHLD`, which it may ignore; it has been made runnable if it waited
for a child, and does not wait for one now. -/
def Told (k k' : Kernel) (q : ℕ) : Prop :=
  ((k'.procs q).sigPending &&& sigmask sigchld ≠ 0 ∨
    (k'.procs q).sigIgnored &&& sigmask sigchld ≠ 0) ∧
      (AwaitsChild (k.procs q) → Runnable (k'.procs q)) ∧ ¬AwaitsChild (k'.procs q)

/-- The parent of a leader that has become a zombie has been told. -/
def Notified (k k' : Kernel) : Prop :=
  ∀ z, Alive k z → (k.procs z).pid = (k.procs z).tgid → (k'.procs z).state = .zombie →
    ∃ q, k'.procByPid (k'.procs z).ppid = some q ∧ Alive k' q ∧ Told k k' q

def AllZombies (k : Kernel) (tgid : ℤ) : Prop :=
  ∀ j < maxProcs, (k.procs j).state ≠ .unused → (k.procs j).tgid = tgid →
    (k.procs j).state = .zombie

instance (k : Kernel) (tgid : ℤ) : Decidable (AllZombies k tgid) := by
  unfold AllZombies
  infer_instance

/-- What `proc_waitpid` could reap has ended with all its threads. -/
def ReapsWhole (k : Kernel) (p : ℕ) (pid : ℤ) : Prop :=
  ∀ c < maxProcs, k.isChild p pid c → (k.procs c).state = .zombie → AllZombies k (k.procs c).pid

instance (k : Kernel) (p : ℕ) (pid : ℤ) : Decidable (ReapsWhole k p pid) := by
  unfold ReapsWhole
  infer_instance

/-- Only a leader ends a group or changes its program, init stays, a group is reaped when all its
threads are zombies, and the counter of the pids does not wrap. -/
def TaskOp.Orderly (k : Kernel) (op : TaskOp) : Prop :=
  op.NoWrap k ∧
    match op with
    | .execve p => (k.procs p).pid = (k.procs p).tgid
    | .exit p _ => (k.procs p).pid ≠ 1
    | .exitGroup p _ => (k.procs p).pid = (k.procs p).tgid ∧ (k.procs p).pid ≠ 1
    | .waitpid p pid .. => ReapsWhole k p pid
    | _ => True

instance (k : Kernel) (op : TaskOp) : Decidable (op.Orderly k) := by
  rcases op <;> unfold TaskOp.Orderly <;> infer_instance

theorem Runnable.not_awaits {x : Proc} (h : Runnable x) : ¬AwaitsChild x := by
  rintro ⟨hState, hWhy⟩
  rcases h with h | ⟨-, h⟩
  · exact absurd (hState.symm.trans h) (by decide)
  · exact absurd (hWhy.symm.trans h) (by decide)

theorem runnable_schedWake (h : (k.procs q).state = .blocked) :
    Runnable ((k.schedWake q).procs q) := by
  unfold schedWake
  rw [if_pos h]
  exact state_enqueueFresh (k.modify q fun x => { x with waitReason := .none, wakeTick := 0 }) q

/-- A task that waits is left alone or made runnable. -/
def Rouses (q : ℕ) (k k' : Kernel) : Prop :=
  AwaitsChild (k.procs q) ∨ Runnable (k.procs q) → AwaitsChild (k'.procs q) ∨ Runnable (k'.procs q)

theorem rouses_of_eq (hState : (k'.procs q).state = (k.procs q).state)
    (hWhy : (k'.procs q).waitReason = (k.procs q).waitReason) : Rouses q k k' := by
  unfold Rouses AwaitsChild Runnable
  rw [hState, hWhy]
  exact id

theorem rouses_condemn (k : Kernel) (p q : ℕ) (self : Bool) : Rouses q k (k.condemn p self) := by
  refine List.foldlRecOn (motive := fun k' => Rouses q k k') _ _ id fun k' h i _ hWaits => ?_
  unfold condemnOne
  split
  · exact h hWaits
  have hDying : Rouses q k' (k'.modify i .setDying) := by
    by_cases hi : q = i
    · subst hi
      exact rouses_of_eq (by rw [procs_modify_self]; rfl) (by rw [procs_modify_self]; rfl)
    · exact rouses_of_eq (by rw [procs_modify_of_ne _ _ hi]) (by rw [procs_modify_of_ne _ _ hi])
  dsimp only
  split
  next hBlocked =>
    by_cases hi : q = i
    · subst hi
      exact .inr (runnable_schedWake hBlocked.2)
    · rw [(touches_schedWake _ i).other q hi]
      exact hDying (h hWaits)
  next => exact hDying (h hWaits)

theorem pending_pend (x : Proc) (sig : ℕ) :
    (x.pend sig).sigPending &&& sigmask sig = sigmask sig := by
  unfold Proc.pend
  ext i
  grind

theorem procSignal_sigchld (h : Alive k q) : k.procSignal q sigchld =
    if (k.procs q).sigIgnored &&& sigmask sigchld ≠ 0 then k
    else if (k.procs q).state = .blocked then (k.modify q (.pend sigchld)).schedWake q
    else k.modify q (.pend sigchld) := by
  unfold procSignal
  rw [if_neg (by simp only [h.1, h.2, or_false]; decide), if_neg (by decide)]
  split
  · rfl
  · split
    · rfl
    · rw [if_neg (fun hKill => absurd hKill.2 (by decide))]

theorem told_procNotifyParent {k₀ : Kernel} (hFind : k.procByPid (k.procs p).ppid = some q)
    (hAlive : Alive k q) (hRouses : Rouses q k₀ k) : Told k₀ (k.procNotifyParent p) q := by
  unfold procNotifyParent
  rw [hFind]
  dsimp only
  rw [procSignal_sigchld hAlive]
  by_cases hIgnored : (k.procs q).sigIgnored &&& sigmask sigchld ≠ 0
  · rw [if_pos hIgnored]
    split
    next hWaits =>
      have hRuns := runnable_schedWake hWaits.1
      exact ⟨.inr (by rwa [(touches_schedWake k q).signals]), fun _ => hRuns, hRuns.not_awaits⟩
    next hNot => exact ⟨.inr hIgnored, fun hWaits => (hRouses (.inl hWaits)).resolve_left hNot,
      hNot⟩
  · have hPending : ((k.modify q (.pend sigchld)).procs q).sigPending &&& sigmask sigchld ≠ 0 := by
      rw [procs_modify_self, pending_pend]
      decide
    rw [if_neg hIgnored]
    by_cases hBlocked : (k.procs q).state = .blocked
    · have hRuns := runnable_schedWake (k := k.modify q (.pend sigchld)) (q := q) (by
        rw [procs_modify_self]
        exact hBlocked)
      rw [if_pos hBlocked, if_neg (show ¬(_ ∧ _) from hRuns.not_awaits)]
      exact ⟨.inl (by rwa [(touches_schedWake _ q).signals]), fun _ => hRuns, hRuns.not_awaits⟩
    · have hKeeps : Rouses q k (k.modify q (.pend sigchld)) :=
        rouses_of_eq (by rw [procs_modify_self]; rfl) (by rw [procs_modify_self]; rfl)
      have hNot : ¬AwaitsChild ((k.modify q (.pend sigchld)).procs q) := fun hWaits => by
        rw [procs_modify_self] at hWaits
        exact hBlocked hWaits.1
      rw [if_neg hBlocked, if_neg (show ¬(_ ∧ _) from hNot)]
      exact ⟨.inl hPending, fun hWaits => (hKeeps (hRouses (.inl hWaits))).resolve_left hNot, hNot⟩

theorem rouses_die (hq : q ≠ p) (status : ℤ) :
    Rouses q k (((k.condemn p true).procTeardown p).modify p (.die status)) := by
  intro hWaits
  have hCondemned := rouses_condemn k p q true hWaits
  have hKeeps : Rouses q (k.condemn p true) ((k.condemn p true).procTeardown p) := by
    have hOther : (((k.condemn p true).modify p .freeFilter).cgDetach p).procs q =
        (k.condemn p true).procs q := by
      rw [(touches_cgDetach _ p).other q hq, procs_modify_of_ne _ _ hq]
    unfold procTeardown adopt
    generalize ((k.condemn p true).modify p .freeFilter).cgDetach p = k₁ at hOther ⊢
    refine rouses_of_eq ?_ ?_ <;> rw [← hOther]
    · exact (apply_ite (fun x : Proc => x.state) _ _ _).trans (ite_self _)
    · exact (apply_ite (fun x : Proc => x.waitReason) _ _ _).trans (ite_self _)
  rw [procs_modify_of_ne _ _ hq]
  exact hKeeps hCondemned

theorem notified_of_alive (h : ∀ z, Alive k z → (k.procs z).pid = (k.procs z).tgid → Alive k' z) :
    Notified k k' :=
  fun z hAlive hLeader hZombie => absurd hZombie (h z hAlive hLeader).2

theorem notified_of_eq (hRoster : k'.roster = k.roster) : Notified k k' :=
  notified_of_alive fun z hAlive _ => (alive_congr (by rw [hRoster])).mpr hAlive

theorem notified_of_alter {f : ℕ → Member → Member} (hRoster : k'.roster = k.roster.alter f)
    (hf : ∀ j m, (f j m).dead = m.dead) : Notified k k' :=
  notified_of_alive fun z hAlive _ => by
    obtain ⟨m, hm, hDead⟩ := (alive_iff k z).mp hAlive
    refine (alive_iff k' z).mpr ⟨f z m, ?_, (hf z m).trans hDead⟩
    rw [hRoster]
    exact member_alter_eq_some.mpr ⟨m, hm, rfl⟩

theorem alive_exit {r : Roster} {m : Member} {z : ℕ}
    (hRoster : k'.roster = (r.adopt m.pid m.tgid).die p)
    (hz : ∃ mz, r.member z = some mz ∧ mz.dead = false) (hne : z ≠ p) : Alive k' z := by
  obtain ⟨mz, hmz, hDead⟩ := hz
  obtain ⟨m', hm', -, -, hDead'⟩ := Kin.member_exit (p := p) (m := m) hmz
  rw [← hRoster] at hm'
  exact (alive_iff k' z).mpr ⟨m', hm', (hDead' hne).trans hDead⟩

theorem notified_exitThread (hUsed : (k.procs p).state ≠ .unused)
    (hThread : (k.procs p).pid ≠ (k.procs p).tgid) (status : ℤ) :
    Notified k (k.procExit p status) :=
  notified_of_alive fun z hAlive hLeader => by
    have hne : z ≠ p := fun hEq => hThread (hEq ▸ hLeader)
    refine alive_exit (m := ⟨(k.procs p).pid, 0, (k.procs p).tgid, false, false⟩) ?_
      ((alive_iff k z).mp hAlive) hne
    exact roster_exitThread hUsed hThread status

theorem member_condemn (hUsed : (k.procs p).state ≠ .unused) (tgid : ℤ) (q : ℕ) (self : Bool) :
    ∃ m, (k.roster.condemn tgid q self).member p = some m ∧ m.pid = (k.procs p).pid ∧
      m.tgid = (k.procs p).tgid ∧ m.dead = decide ((k.procs p).state = .zombie) := by
  refine ⟨_, member_alter_eq_some.mpr ⟨_, member_of_used hUsed, rfl⟩, ?_⟩
  split_ifs <;> exact ⟨rfl, rfl, rfl⟩

section

variable (h : k.roster.Kin)
include h

theorem noStranded_of_kin : NoStranded k := by
  intro z hZombie
  have hUsed : (k.procs z).state ≠ .unused := by rw [hZombie]; decide
  have hMember := member_of_used hUsed
  by_cases hLeader : (k.procs z).pid = (k.procs z).tgid
  · refine .inl ⟨hLeader, ?_⟩
    have hNotInit : (k.procs z).pid ≠ 1 := fun hPid => by
      obtain ⟨m, hm, hPid1, -, hAlive⟩ := h.init
      have hz := h.numbered.unique z 0 _ m hMember hm (hPid.trans hPid1.symm)
      rw [hz] at hZombie
      rw [(of_member hm).2.2.2.2.2.mp hZombie] at hAlive
      exact absurd hAlive (by decide)
    obtain ⟨q, mq, hq, hPid, hAlive, -⟩ := h.parent z _ hMember hLeader hNotInit
    refine ⟨q, h.slots q mq hq, (alive_iff k q).mpr ⟨mq, hq, hAlive⟩, ?_⟩
    simp only [isChild, Bool.and_eq_true, Bool.or_eq_true, decide_eq_true_eq]
    refine ⟨⟨⟨hUsed, ?_⟩, .inl (by decide)⟩, hLeader⟩
    exact hPid.symm.trans (of_member hq).2.1.symm
  · obtain ⟨l, ml, hl, hPid, hTgid⟩ := h.leader z _ hMember
    obtain ⟨hUsedL, hPidL, -, hTgidL, -⟩ := of_member hl
    exact .inr ⟨hLeader, l, h.slots l ml hl, hUsedL, hPidL.trans hPid, hTgidL.trans hTgid⟩

theorem kin_exitLeader (hUsed : (k.procs p).state ≠ .unused) (hInit : (k.procs p).pid ≠ 1) :
    (((k.roster.condemn (k.procs p).tgid p true).adopt (k.procs p).pid
      (k.procs p).tgid).die p).Kin := by
  obtain ⟨m, hm, hPid, hTgid, -⟩ := member_condemn hUsed (k.procs p).tgid p true
  have hKin := (h.condemn (k.procs p).tgid p true).exit hm (hPid.symm ▸ hInit)
  rwa [hPid, hTgid] at hKin

theorem notified_exitLeader (hUsed : (k.procs p).state ≠ .unused)
    (hLeader : (k.procs p).pid = (k.procs p).tgid) (hInit : (k.procs p).pid ≠ 1) (status : ℤ) :
    Notified k (k.exitLeader p status) := by
  have hRoster := roster_exitLeader hUsed status
  have hKin := kin_exitLeader h hUsed hInit
  rw [← hRoster] at hKin
  obtain ⟨m, hm, hPid, hTgid, -⟩ := member_condemn hUsed (k.procs p).tgid p true
  obtain ⟨m', hm', hPid', hTgid', -⟩ := Kin.member_exit (p := p) (m := m) hm
  rw [hPid, hTgid, ← hRoster] at hm'
  intro z hAlive _ hZombie
  by_cases hzp : z = p
  · obtain ⟨q, mq, hq, hqPid, hqAlive, -⟩ := hKin.parent p m' hm'
      (by rw [hPid', hTgid', hPid, hTgid, hLeader]) (by rw [hPid', hPid]; exact hInit)
    have hFind := hKin.numbered.find (hKin.slots q mq hq) hq
    have hqAlive : Alive (k.exitLeader p status) q := (alive_iff _ q).mpr ⟨mq, hq, hqAlive⟩
    have hqp : q ≠ p := fun hEq => by
      rw [hzp] at hZombie
      rw [hEq] at hqAlive
      exact hqAlive.2 hZombie
    refine ⟨q, ?_, hqAlive, ?_⟩
    · rw [hzp, procByPid_eq_find, (of_member hm').2.2.1, ← hqPid]
      exact hFind
    · unfold exitLeader at hFind hqAlive hm' ⊢
      rw [roster_procNotifyParent] at hFind hm'
      refine told_procNotifyParent ?_
        ((alive_congr (by rw [roster_procNotifyParent])).mp hqAlive) (rouses_die hqp status)
      rw [procByPid_eq_find, (of_member hm').2.2.1, ← hqPid]
      exact hFind
  · obtain ⟨mz, hmz, -, -, hDead⟩ := member_condemn hAlive.1 (k.procs p).tgid p true
    have hStays : Alive (k.exitLeader p status) z :=
      alive_exit (m := ⟨(k.procs p).pid, 0, (k.procs p).tgid, false, false⟩) hRoster
        ⟨mz, hmz, hDead.trans (decide_eq_false hAlive.2)⟩ hzp
    exact absurd hZombie hStays.2

theorem kin_create {thread : Bool} (hAlive : Alive k p)
    (hWrap : k.gNextPid < wrapInt (k.gNextPid + 1))
    (hMade : k'.roster = k.roster ∨ k'.roster = k.roster.burn ∨
      ∃ i, k.freeSlot = some i ∧ k'.roster = k.roster.burn.set i (some (k.newMember p thread))) :
    k'.roster.Kin ∧ Notified k k' := by
  rcases hMade with hSame | hBurn | ⟨i, hFree, hNew⟩
  · rw [hSame]
    exact ⟨h, notified_of_eq hSame⟩
  · refine ⟨hBurn ▸ h.burn hWrap, notified_of_alive fun z hz _ => ?_⟩
    exact (alive_congr (by rw [hBurn]; rfl)).mpr hz
  · have hNone := member_freeSlot hFree
    have hLt : i < maxProcs := List.mem_range.mp (List.mem_of_find?_eq_some hFree)
    constructor
    · rw [hNew]
      refine h.join hWrap hNone hLt (member_of_used hAlive.1) (decide_eq_false hAlive.2) rfl rfl ?_
      cases thread
      · exact .inr rfl
      · exact .inl rfl
    · refine notified_of_alive fun z hz _ => (alive_congr ?_).mpr hz
      have hzi : z ≠ i := fun hEq => hz.1 (hEq ▸ state_freeSlot hFree)
      rw [hNew, member_set_of_ne _ _ hzi]
      rfl

end

section

variable (h : k.roster.Kin) (hUsed : (k.procs p).state ≠ .unused)
include h hUsed

theorem kin_exitGroup (hLeader : (k.procs p).pid = (k.procs p).tgid) (hInit : (k.procs p).pid ≠ 1)
    (status : ℤ) : (k.procExitGroup p status).roster.Kin ∧
    Notified k (k.procExitGroup p status) := by
  unfold procExitGroup
  rw [if_pos hLeader]
  refine ⟨?_, notified_exitLeader h hUsed hLeader hInit status⟩
  rw [roster_exitLeader hUsed]
  exact kin_exitLeader h hUsed hInit

theorem kin_exit (hInit : (k.procs p).pid ≠ 1) (status : ℤ) :
    (k.procExit p status).roster.Kin ∧ Notified k (k.procExit p status) := by
  by_cases hLeader : (k.procs p).pid = (k.procs p).tgid
  · have hGroup := kin_exitGroup h hUsed hLeader hInit status
    unfold procExit
    rwa [if_pos hLeader]
  · refine ⟨?_, notified_exitThread hUsed hLeader status⟩
    rw [roster_exitThread hUsed hLeader]
    exact h.exit (member_of_used hUsed) hInit

theorem kin_execve (hLeader : (k.procs p).pid = (k.procs p).tgid) :
    (k.procExecve p).roster.Kin ∧ Notified k (k.procExecve p) := by
  have hRoster := roster_procExecve k p
  refine ⟨hRoster ▸ h.execve (member_of_used hUsed) hLeader, ?_⟩
  simp only [Roster.condemn, Roster.renew, Roster.alter_alter] at hRoster
  refine notified_of_alter hRoster fun j m => ?_
  split_ifs <;> rfl

end

theorem kin_waitpid (h : k.roster.Kin) (hAlive : Alive k p) {pid : ℤ} (hWhole : ReapsWhole k p pid)
    (untraced nohang : Bool) : (k.procWaitpid p pid untraced nohang).roster.Kin ∧
      Notified k (k.procWaitpid p pid untraced nohang) := by
  rcases roster_procWaitpid hAlive pid untraced nohang with hSame | ⟨c, hLt, hChild, hZombie, hReap⟩
  · rw [hSame]
    exact ⟨h, notified_of_eq hSame⟩
  · have hAll := hWhole c hLt hChild hZombie
    constructor
    · rw [hReap]
      refine h.sweep fun j m hj hTgid => ?_
      obtain ⟨hUsed, -, -, hTgid', -, hDead⟩ := of_member hj
      exact hDead.mp (hAll j (h.slots j m hj) hUsed (hTgid'.trans hTgid))
    · -- only zombies are swept
      refine notified_of_alive fun z hz _ => ?_
      obtain ⟨m, hm, hDead⟩ := (alive_iff k z).mp hz
      refine (alive_iff _ z).mpr ⟨m, ?_, hDead⟩
      rw [hReap]
      exact member_drop_eq_some.mpr ⟨hm, by simp [hDead]⟩

theorem kin_exec (h : k.roster.Kin) {op : TaskOp} (hOn : op.Enabled k) (hOrderly : op.Orderly k) :
    (op.exec k).roster.Kin ∧ Notified k (op.exec k) := by
  obtain ⟨hWrap, hOrderly⟩ := hOrderly
  cases op with
  | fork p admitted weight =>
    rw [TaskOp.exec, procFork_eq]
    exact kin_create h (alive_of_running hOn) hWrap
      (roster_procClone (alive_of_running hOn) false false admitted weight)
  | clone p thread vfork admitted weight =>
    have hAlive := alive_of_running hOn
    exact kin_create h hAlive hWrap (roster_procClone hAlive thread vfork admitted weight)
  | execve p => exact kin_execve h (alive_of_running hOn).1 hOrderly
  | exit p status => exact kin_exit h (alive_of_running hOn).1 hOrderly status
  | exitGroup p status =>
    exact kin_exitGroup h (alive_of_running hOn).1 hOrderly.1 hOrderly.2 status
  | waitpid p pid untraced nohang =>
    exact kin_waitpid h (alive_of_running hOn) hOrderly untraced nohang
  | block | stop | preempt | dispatch | wake | signal =>
    have hSame := TaskOp.roster_exec rfl hOn
    exact ⟨hSame ▸ h, notified_of_eq hSame⟩

theorem kin_onlyInit (h : OnlyInit k) : k.roster.Kin where
  numbered := h.numbered
  slots i m hi := by
    rw [(h.member hi).1]
    decide
  groups i m hi := by
    rw [(h.member hi).2.2.1]
    show 1 < k.gNextPid
    rw [h.nextPid]
    decide
  init := ⟨_, member_of_used h.alive.1, h.pid, h.tgid, decide_eq_false h.alive.2⟩
  leader i m hi := by
    rw [(h.member hi).2.2.1]
    exact ⟨0, _, member_of_used h.alive.1, h.pid, h.tgid⟩
  parent i m hi _ hInit := absurd (h.member hi).2.1 hInit

/-- In an orderly run no zombie is stranded, and the parent of a leader that ends is told. -/
theorem no_stranded_zombie
    (h : Reaches OnlyInit (fun k op => TaskOp.Enabled k op ∧ TaskOp.Orderly k op) TaskOp.exec k) :
    NoStranded k ∧ ∀ op, TaskOp.Enabled k op → TaskOp.Orderly k op → Notified k (op.exec k) := by
  have hKin : k.roster.Kin := h.invariant (I := fun k => k.roster.Kin) (fun _ => kin_onlyInit)
      fun _ _ hKin hOp => (kin_exec hKin hOp.1 hOp.2).1
  exact ⟨noStranded_of_kin hKin, fun op hOn hOrderly => (kin_exec hKin hOn hOrderly).2⟩

/-- Init forks a task with a thread and waits; the thread ends, then the task. -/
theorem no_stranded_zombie_family :
    NoStranded ([.fork 0 true 1024, .dispatch 1, .clone 1 true false true 1024, .dispatch 2,
      .waitpid 0 (-1) false false, .exit 2 0, .exit 1 0, .dispatch 0,
      .waitpid 0 (-1) false false].foldl TaskOp.exec initKernel) := by
  refine (no_stranded_zombie ((Reaches.start onlyInit_initKernel).foldl _ ?_)).1
  decide +kernel

/-- A thread ends the group of a child of init, which waits: the leader is a zombie, and init is not
told.  A leader ends before its thread and is reaped: the thread becomes a zombie that no
`proc_waitpid` releases. -/
theorem zombie_stranded_and_unnoticed :
    (∃ k op, Reaches OnlyInit TaskOp.Enabled TaskOp.exec k ∧ TaskOp.Enabled k op ∧
      ¬ Notified k (op.exec k)) ∧
      ∃ k, Reaches OnlyInit TaskOp.Enabled TaskOp.exec k ∧ ¬ NoStranded k := by
  constructor
  · obtain ⟨k, hReach, hRuns, hOn, hLeader, hZombie, hFind, hPending, hIgnored⟩ :
        ∃ k, Reaches OnlyInit TaskOp.Enabled TaskOp.exec k ∧ (k.procs 1).state = .running ∧
          (k.procs 2).state = .running ∧ (k.procs 1).pid = (k.procs 1).tgid ∧
          ((k.procExitGroup 2 0).procs 1).state = .zombie ∧
          (k.procExitGroup 2 0).procByPid ((k.procExitGroup 2 0).procs 1).ppid = some 0 ∧
          ((k.procExitGroup 2 0).procs 0).sigPending = 0 ∧
          ((k.procExitGroup 2 0).procs 0).sigIgnored = 0 :=
      ⟨_, (Reaches.start onlyInit_initKernel).foldl [.fork 0 true 1024, .dispatch 1,
        .clone 1 true false true 1024, .dispatch 2, .waitpid 0 (-1) false false]
        (by decide +kernel), by decide +kernel⟩
    refine ⟨k, .exitGroup 2 0, hReach, hOn, fun h => ?_⟩
    obtain ⟨q, hq, -, hTold, -⟩ := h 1 (alive_of_running hRuns) hLeader hZombie
    have hq0 : q = 0 := some.inj (hq.symm.trans hFind)
    rw [hq0] at hTold
    change (((k.procExitGroup 2 0).procs 0).sigPending &&& _ ≠ 0 ∨
      ((k.procExitGroup 2 0).procs 0).sigIgnored &&& _ ≠ 0) at hTold
    rw [hPending, hIgnored] at hTold
    exact absurd hTold (by decide)
  · obtain ⟨k, hReach, hZombie, hThread, hNobody⟩ :
        ∃ k, Reaches OnlyInit TaskOp.Enabled TaskOp.exec k ∧ (k.procs 2).state = .zombie ∧
          (k.procs 2).pid ≠ (k.procs 2).tgid ∧ ∀ l < maxProcs, (k.procs l).state ≠ .unused →
            (k.procs l).pid ≠ (k.procs 2).tgid :=
      ⟨_, (Reaches.start onlyInit_initKernel).foldl [.fork 0 true 1024, .dispatch 1,
        .clone 1 true false true 1024, .dispatch 2, .exit 1 0, .waitpid 0 (-1) false false,
        .exit 2 0] (by decide +kernel), by decide +kernel⟩
    refine ⟨k, hReach, fun h => ?_⟩
    rcases h 2 hZombie with ⟨hLeader, -⟩ | ⟨-, l, hLt, hUsed, hPid, -⟩
    · exact hThread hLeader
    · exact hNobody l hLt hUsed hPid

end Kernel

end Gnos
