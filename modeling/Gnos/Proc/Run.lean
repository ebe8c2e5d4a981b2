import Gnos.Proc.Roster
import Gnos.Sched.Run

/-! Runs of the process table: tasks are made, change their program, end and are waited for, in any
order.  Kernel threads are left out: the table starts with init alone. -/

namespace Gnos

namespace Kernel

variable {k : Kernel} {p : ℕ}

inductive TaskOp
  | fork (p : ℕ) (admitted : Bool) (weight : BitVec 32)
  | clone (p : ℕ) (thread vfork admitted : Bool) (weight : BitVec 32)
  | execve (p : ℕ)
  /-- `proc_exit`, also on the way back to user mode of a task that is sentenced. -/
  | exit (p : ℕ) (status : ℤ)
  | exitGroup (p : ℕ) (status : ℤ)
  | waitpid (p : ℕ) (pid : ℤ) (untraced nohang : Bool)
  | block (p : ℕ) (why : WaitReason)
  | stop (p : ℕ)
  | preempt (p : ℕ)
  | dispatch (p : ℕ)
  | wake (p : ℕ)
  | signal (p sig : ℕ)

namespace TaskOp

def exec (k : Kernel) : TaskOp → Kernel
  | .fork p admitted weight => k.procFork p admitted weight
  | .clone p thread vfork admitted weight => k.procClone p thread vfork admitted weight
  | .execve p => k.procExecve p
  | .exit p status => k.procExit p status
  | .exitGroup p status => k.procExitGroup p status
  | .waitpid p pid untraced nohang => k.procWaitpid p pid untraced nohang
  | .block p why => k.modify p (.block why)
  | .stop p => k.modify p (.setState .stopped)
  | .preempt p => k.putPrev p
  | .dispatch p => k.dispatch p
  | .wake p => k.schedWake p
  | .signal p sig => k.procSignal p sig

/-- A task makes calls while it runs; a processor takes ready tasks. -/
def Enabled (k : Kernel) : TaskOp → Prop
  | .fork p .. | .clone p .. | .execve p | .exit p _ | .exitGroup p _ | .waitpid p .. | .block p _
  | .stop p | .preempt p => (k.procs p).state = .running
  | .dispatch p => (k.procs p).state = .ready
  | .wake _ | .signal .. => True

instance (k : Kernel) (op : TaskOp) : Decidable (op.Enabled k) := by
  rcases op <;> unfold Enabled <;> infer_instance

/-- The task whose own step it is. -/
def caller : TaskOp → Option ℕ
  | .fork p .. | .clone p .. | .execve p | .exit p _ | .exitGroup p _ | .waitpid p .. | .block p _
  | .stop p | .preempt p => some p
  | .dispatch _ | .wake _ | .signal .. => none

/-- A thread that calls `proc_exit_group` makes its leader a zombie even if that runs on another
processor, where it goes on until its next return to user mode. -/
def Possible (k : Kernel) (op : TaskOp) : Prop :=
  op.Enabled k ∨ ∃ p ∈ op.caller, (k.procs p).state = .zombie

/-- The step is not one of a task that was ended while it ran. -/
def Living (k : Kernel) (op : TaskOp) : Prop := ∀ p ∈ op.caller, (k.procs p).state ≠ .zombie

instance (k : Kernel) (op : TaskOp) : Decidable (op.Possible k) := by
  unfold Possible
  infer_instance

instance (k : Kernel) (op : TaskOp) : Decidable (op.Living k) := by
  unfold Living
  infer_instance

theorem Possible.enabled {op : TaskOp} (h : op.Possible k) (hLiving : op.Living k) :
    op.Enabled k := by
  obtain hOn | ⟨p, hp, hZombie⟩ := h
  · exact hOn
  · exact absurd hZombie (hLiving p hp)

def NoWrap (k : Kernel) : TaskOp → Prop
  | .fork .. | .clone .. => k.gNextPid < wrapInt (k.gNextPid + 1)
  | _ => True

instance (k : Kernel) (op : TaskOp) : Decidable (op.NoWrap k) := by
  rcases op <;> unfold NoWrap <;> infer_instance

end TaskOp

/-- Init is there, as `proc_spawn_init` leaves it, and nobody else. -/
structure OnlyInit (k : Kernel) : Prop where
  others : ∀ p ≠ 0, (k.procs p).state = .unused
  alive : Alive k 0
  pid : (k.procs 0).pid = 1
  tgid : (k.procs 0).tgid = 1
  living : (k.procs 0).groupDying = false
  nextPid : k.gNextPid = 2

def initKernel : Kernel :=
  { emptyKernel with
    procs := fun p => if p = 0 then { pid := 1, tgid := 1, cg := some 0, state := .running } else {}
    gNextPid := 2 }

theorem onlyInit_initKernel : OnlyInit initKernel where
  others p hp := by simp [initKernel, hp]
  alive := ⟨by decide, by decide⟩
  pid := rfl
  tgid := rfl
  living := rfl
  nextPid := rfl

theorem alive_of_running (h : (k.procs p).state = .running) : Alive k p :=
  alive_of_state h (by decide)

theorem roster_stop (h : Alive k p) : (k.modify p (.setState .stopped)).roster = k.roster :=
  roster_modify_of_eq _ (memberOf_of_alive rfl h ⟨nofun, nofun⟩)

def TaskOp.quiet : TaskOp → Bool
  | .block .. | .stop _ | .preempt _ | .dispatch _ | .wake _ | .signal .. => true
  | _ => false

theorem TaskOp.roster_exec {op : TaskOp} (hQuiet : op.quiet) (hOn : op.Enabled k) :
    (op.exec k).roster = k.roster := by
  cases op with
  | block p why => exact roster_block (alive_of_running hOn) why
  | stop p => exact roster_stop (alive_of_running hOn)
  | preempt p => exact roster_putPrev hOn
  | dispatch p => exact roster_dispatch (alive_of_state hOn (by decide))
  | wake p => exact roster_schedWake k p
  | signal p sig => exact roster_procSignal k p sig
  | fork | clone | execve | exit | exitGroup | waitpid => exact absurd hQuiet (by simp [quiet])

end Kernel

/-- Numbers are not given twice, and are less than the next one. -/
structure Roster.Numbered (r : Roster) : Prop where
  unique : ∀ i j m m', r.member i = some m → r.member j = some m' → m.pid = m'.pid → i = j
  fresh : ∀ i m, r.member i = some m → m.pid < r.nextPid

namespace Roster

variable {r : Roster} {m : Member} {i j : ℕ} {f : ℕ → Member → Member}

theorem member_alter_eq_some : (r.alter f).member j = some m ↔ ∃ m0, r.member j = some m0 ∧
    f j m0 = m := by
  rw [member_alter, Option.map_eq_some_iff]

theorem member_drop_eq_some {gone : ℕ → Member → Bool} :
    (r.drop gone).member j = some m ↔ r.member j = some m ∧ gone j m = false := by
  simp

theorem find_alter (hf : ∀ j m, (f j m).pid = m.pid) (pid : ℤ) :
    (r.alter f).find pid = r.find pid := by
  unfold find
  congr 1
  funext j
  rw [member_alter]
  cases r.member j with
  | none => rfl
  | some m => simp [hf]

theorem member_of_find {pid : ℤ} (h : r.find pid = some j) :
    ∃ m, r.member j = some m ∧ m.pid = pid := by
  have hFound := List.find?_some h
  cases hj : r.member j with
  | none => simp [hj] at hFound
  | some m => exact ⟨m, rfl, by simpa [hj] using hFound⟩

namespace Numbered

section

variable (h : r.Numbered)
include h

theorem alter (hf : ∀ j m, r.member j = some m → (f j m).pid = m.pid) : (r.alter f).Numbered where
  unique i j m m' hi hj hPid := by
    obtain ⟨m0, hi₀, rfl⟩ := member_alter_eq_some.mp hi
    obtain ⟨m1, hj1, rfl⟩ := member_alter_eq_some.mp hj
    rw [hf i m0 hi₀, hf j m1 hj1] at hPid
    exact h.unique i j m0 m1 hi₀ hj1 hPid
  fresh i m hi := by
    obtain ⟨m0, hi₀, rfl⟩ := member_alter_eq_some.mp hi
    rw [hf i m0 hi₀]
    exact h.fresh i m0 hi₀

theorem drop (gone : ℕ → Member → Bool) : (r.drop gone).Numbered where
  unique i j m m' hi hj := h.unique i j m m' (member_drop_eq_some.mp hi).1
    (member_drop_eq_some.mp hj).1
  fresh i m hi := h.fresh i m (member_drop_eq_some.mp hi).1

section

variable (hWrap : r.nextPid < Kernel.wrapInt (r.nextPid + 1))
include hWrap

theorem burn : r.burn.Numbered where
  unique := h.unique
  fresh i m hi := (h.fresh i m hi).trans hWrap

theorem join (hPid : m.pid = r.nextPid) : (r.burn.set i (some m)).Numbered where
  unique a b ma mb ha hb hEq := by
    -- the number of the new task is larger than the others
    by_cases hai : a = i
    · by_cases hbi : b = i
      · rw [hai, hbi]
      · rw [member_set_of_ne _ _ hbi] at hb
        rw [hai, member_set_self, Option.some.injEq] at ha
        have := h.fresh b mb hb
        rw [ha] at hPid
        omega
    · rw [member_set_of_ne _ _ hai] at ha
      by_cases hbi : b = i
      · rw [hbi, member_set_self, Option.some.injEq] at hb
        have := h.fresh a ma ha
        rw [hb] at hPid
        omega
      · rw [member_set_of_ne _ _ hbi] at hb
        exact h.unique a b ma mb ha hb hEq
  fresh a ma ha := by
    by_cases hai : a = i
    · rw [hai, member_set_self, Option.some.injEq] at ha
      rw [← ha, hPid]
      exact hWrap
    · rw [member_set_of_ne _ _ hai] at ha
      exact (h.fresh a ma ha).trans hWrap

end

theorem find (hLt : i < maxProcs) (hi : r.member i = some m) : r.find m.pid = some i := by
  cases hFind : r.find m.pid with
  | none =>
    have hNone := List.find?_eq_none.mp hFind i (List.mem_range.mpr hLt)
    simp [hi] at hNone
  | some j =>
    obtain ⟨m', hj, hPid⟩ := member_of_find hFind
    rw [h.unique j i m' m hj hi hPid]

end

end Numbered

end Roster

namespace Kernel

variable {k k' : Kernel} {p q : ℕ} {f : ℕ → Member → Member}

theorem alive_of_alter (hRoster : k'.roster = k.roster.alter f)
    (hf : ∀ j m, m.dead → (f j m).dead) (h : Alive k' q) : Alive k q := by
  obtain ⟨m, hm, hDead⟩ := (alive_iff k' q).mp h
  rw [hRoster] at hm
  obtain ⟨m0, hm0, rfl⟩ := Roster.member_alter_eq_some.mp hm
  refine (alive_iff k q).mpr ⟨m0, hm0, ?_⟩
  rw [← Bool.not_eq_true] at hDead ⊢
  exact fun h => hDead (hf q m0 h)

theorem alive_of_made {thread : Bool} (hMade : k'.roster = k.roster ∨ k'.roster = k.roster.burn ∨
      ∃ i, k.freeSlot = some i ∧ k'.roster = k.roster.burn.set i (some (k.newMember p thread)))
    (hq : k.freeSlot ≠ some q) (hAlive : Alive k' q) : Alive k q := by
  refine (alive_congr ?_).mp hAlive
  rcases hMade with hSame | hBurn | ⟨i, hFree, hNew⟩
  · rw [hSame]
  · rw [hBurn]
    rfl
  · have hqi : q ≠ i := fun hEq => hq (hEq ▸ hFree)
    rw [hNew, Roster.member_set_of_ne _ _ hqi]
    rfl

section

variable (hUsed : (k.procs p).state ≠ .unused) (status : ℤ)
include hUsed

theorem alive_of_exitGroup (h : Alive (k.procExitGroup p status) q) : Alive k q := by
  unfold procExitGroup at h
  split at h
  · have hRoster := roster_exitLeader hUsed status
    simp only [Roster.condemn, Roster.adopt, Roster.die, Roster.alter_alter] at hRoster
    refine alive_of_alter hRoster (fun j m hDead => ?_) h
    split_ifs <;> first | rfl | exact hDead
  · split at h
    · exact h
    next l hFind =>
      rw [procByPid_eq_find] at hFind
      obtain ⟨ml, hl, -⟩ := Roster.member_of_find hFind
      have hRoster := roster_exitForLeader hUsed (of_member hl).1 status
      simp only [Roster.condemn, Roster.adopt, Roster.die, Roster.alter_alter] at hRoster
      refine alive_of_alter hRoster (fun j m hDead => ?_) h
      split_ifs <;> first | rfl | exact hDead

theorem alive_of_exit (h : Alive (k.procExit p status) q) : Alive k q := by
  by_cases hLeader : (k.procs p).pid = (k.procs p).tgid
  · unfold procExit at h
    rw [if_pos hLeader] at h
    exact alive_of_exitGroup hUsed status h
  · have hRoster := roster_exitThread hUsed hLeader status
    simp only [Roster.adopt, Roster.die, Roster.alter_alter] at hRoster
    refine alive_of_alter hRoster (fun j m hDead => ?_) h
    split_ifs <;> first | rfl | exact hDead

end

theorem alive_of_execve (k : Kernel) (p : ℕ) (h : Alive (k.procExecve p) q) : Alive k q := by
  have hRoster := roster_procExecve k p
  simp only [Roster.condemn, Roster.renew, Roster.alter_alter] at hRoster
  refine alive_of_alter hRoster (fun j m hDead => ?_) h
  split_ifs <;> exact hDead

theorem alive_of_waitpid (hAlive : Alive k p) {pid : ℤ} {untraced nohang : Bool}
    (h : Alive (k.procWaitpid p pid untraced nohang) q) : Alive k q := by
  rcases roster_procWaitpid hAlive pid untraced nohang with hSame | ⟨c, -, -, -, hReap⟩
  · exact (alive_congr (by rw [hSame])).mp h
  · obtain ⟨m, hm, hDead⟩ := (alive_iff _ q).mp h
    rw [hReap] at hm
    exact (alive_iff k q).mpr ⟨m, (Roster.member_drop_eq_some.mp hm).1, hDead⟩

def TaskOp.newborn (k : Kernel) : TaskOp → Option ℕ
  | .fork .. | .clone .. => k.freeSlot
  | _ => none

theorem TaskOp.alive_of_exec {op : TaskOp} (hOn : op.Enabled k) (hOld : op.newborn k ≠ some q)
    (h : Alive (op.exec k) q) : Alive k q := by
  cases op with
  | fork p admitted weight =>
    rw [exec, procFork_eq] at h
    exact alive_of_made (roster_procClone (alive_of_running hOn) false false admitted weight) hOld h
  | clone p thread vfork admitted weight =>
    exact alive_of_made (roster_procClone (alive_of_running hOn) thread vfork admitted weight)
      hOld h
  | execve p => exact alive_of_execve k p h
  | exit p status => exact alive_of_exit (alive_of_running hOn).1 status h
  | exitGroup p status => exact alive_of_exitGroup (alive_of_running hOn).1 status h
  | waitpid p pid untraced nohang => exact alive_of_waitpid (alive_of_running hOn) h
  | block | stop | preempt | dispatch | wake | signal =>
    exact (alive_congr (by rw [TaskOp.roster_exec rfl hOn])).mp h

/-- Signals, wake-ups and waits bring no task back: if no task goes on after it was ended, what is
not alive stays so until a fork or clone takes its slot. -/
theorem dead_stays_dead {ops : List TaskOp} (hDead : ¬ Alive k q)
    (h : ProofKit.Along (fun k op => op.Possible k ∧ op.Living k ∧ op.newborn k ≠ some q)
      TaskOp.exec k ops) : ¬ Alive (ops.foldl TaskOp.exec k) q := by
  induction ops generalizing k with
  | nil => exact hDead
  | cons op ops ih =>
    obtain ⟨⟨hOn, hLiving, hOld⟩, hRest⟩ := h
    exact ih (fun hAlive => hDead (TaskOp.alive_of_exec (hOn.enabled hLiving) hOld hAlive)) hRest

/-- A child ends; it is sent a signal, woken and waited for, and its parent makes another one. -/
theorem dead_stays_dead_child :
    ¬ Alive ([.signal 1 9, .wake 1, .fork 0 true 1, .dispatch 2, .exit 2 0,
      .waitpid 0 (-1) false true,
      .signal 1 9].foldl TaskOp.exec
        ([.fork 0 true 1, .dispatch 1, .exit 1 0].foldl TaskOp.exec initKernel)) 1 :=
  dead_stays_dead (fun h => h.2 (by decide +kernel)) (by decide +kernel)

/-- Without the condition it is not so: a thread ends its group while the leader runs, and the
leader then sleeps. -/
theorem ended_leader_sleeps : ∃ ops : List TaskOp,
    ProofKit.Along TaskOp.Possible TaskOp.exec initKernel ops ∧
      ¬ Alive (ops.foldl TaskOp.exec initKernel) 1 ∧
      TaskOp.Possible (ops.foldl TaskOp.exec initKernel) (.block 1 .sleep) ∧
      Alive (TaskOp.exec (ops.foldl TaskOp.exec initKernel) (.block 1 .sleep)) 1 := by
  refine ⟨[.fork 0 true 1, .dispatch 1, .clone 1 true false true 1, .dispatch 2, .exitGroup 2 0],
    by decide +kernel, fun h => h.2 (by decide +kernel), by decide +kernel, by decide +kernel,
    by decide +kernel⟩

end Kernel

namespace Kernel.OnlyInit

variable {k : Kernel} {m : Member} {i : ℕ}

theorem member (h : OnlyInit k) (hi : k.roster.member i = some m) :
    i = 0 ∧ m.pid = 1 ∧ m.tgid = 1 ∧ m.dying = false := by
  obtain ⟨hUsed, hPid, -, hTgid, hDying, -⟩ := of_member hi
  have hi0 : i = 0 := by_contra fun hne => hUsed (h.others i hne)
  subst hi0
  exact ⟨rfl, hPid.symm.trans h.pid, hTgid.symm.trans h.tgid, hDying.symm.trans h.living⟩

theorem numbered (h : OnlyInit k) : k.roster.Numbered where
  unique i j m m' hi hj _ := (h.member hi).1.trans (h.member hj).1.symm
  fresh i m hi := by
    rw [(h.member hi).2.1]
    show 1 < k.gNextPid
    rw [h.nextPid]
    decide

end Kernel.OnlyInit

end Gnos
