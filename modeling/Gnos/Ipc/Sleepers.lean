import Gnos.Ipc.Messages
import Gnos.Ipc.Semaphores
import Gnos.ProofKit.Tally

/-! Sleeping on a message queue and on a semaphore set: the loops of `sysv_msgsnd`, `sysv_msgrcv`
and `sysv_semtimedop` around `ipc_wait`, with every wake-up of `src/ipc/sysvipc.c`.  A task that
must wait gives the big kernel lock up in `sched_block` before it is marked as blocked; `going` is a
task in that window.  The run starts at boot, and the queue and the set are as `sysv_msgget` and
`sysv_semget` leave them. -/

namespace Gnos.Ipc

open ProofKit List Function

/-- A call that waits, with its arguments.  A call on semaphores keeps the marks of where it is
counted, and whether it has a deadline. -/
inductive Pending where
  | snd (mtype : BitVec 64) (data : List (BitVec 8))
  | rcv (msgsz : ℕ) (msgtyp : BitVec 64) (noerror : Bool)
  | sem (p : Caller) (sops : List SemBuf) (timed : Bool) (counted : Counted)

namespace Pending

/-- The `wait_q` of the call: the queue or the set. -/
def onQueue : Pending → Bool
  | snd .. => true
  | rcv .. => true
  | sem .. => false

/-- Whether the call waits for semaphore `n` to rise. -/
def forRise (n : ℕ) : Pending → Bool
  | sem _ sops _ _ => sops.any fun b => b.num = n && b.op.toInt < 0
  | _ => false

/-- Whether the call waits for semaphore `n` to become 0. -/
def forZero (n : ℕ) : Pending → Bool
  | sem _ sops _ _ => sops.any fun b => b.num = n && b.op.toInt = 0
  | _ => false

end Pending

inductive Task where
  | idle
  /-- Between the release of the big kernel lock and `PROC_BLOCKED`. -/
  | going (w : Pending)
  | asleep (w : Pending)
  /-- Woken up, and not yet back in its loop. -/
  | woken (w : Pending)

namespace Task

/-- The call that a task is in `ipc_wait` for. -/
def pending : Task → Option Pending
  | idle => none
  | going w => some w
  | asleep w => some w
  | woken w => some w

def forRise (n : ℕ) (x : Task) : Bool := x.pending.any (·.forRise n)

def forZero (n : ℕ) (x : Task) : Bool := x.pending.any (·.forZero n)

/-- `sched_wake`, for a task that sleeps on the object in question. -/
def wake (queue : Bool) : Task → Task
  | asleep w => if w.onQueue = queue then woken w else asleep w
  | x => x

end Task

def MsgQ.rmid (q : MsgQ) : MsgQ :=
  { q with used := false, head := none, tail := none, qnum := 0, cbytes := 0 }

def SemSet.rmid (st : SemSet) : SemSet := { st with used := false, undos := [] }

structure Sleepers (τ : Type) where
  q : MsgQ
  st : SemSet
  tasks : τ → Task

inductive SleepOp (τ : Type) where
  /-- A `get` call makes the queue or the set anew, with the slot that it leaves. -/
  | msgget (slot : Slot)
  | semget (slot : Slot)
  | msgsnd (t : τ) (p : Caller) (mtype : BitVec 64) (data : List (BitVec 8)) (nowait mem : Bool)
  | msgrcv (t : τ) (p : Caller) (msgsz : ℕ) (msgtyp : BitVec 64) (noerror nowait : Bool)
  /-- `expired` is whether the deadline has passed at the end of the pass. -/
  | semop (t : τ) (p : Caller) (sops : List SemBuf) (timed expired : Bool) (mem : ℕ → Bool)
  | park (t : τ)
  | retry (t : τ) (expired : Bool) (mem : ℕ → Bool)
  /-- Any other waker: a signal or the timer. -/
  | rouse (t : τ)
  | rmidMsg
  | rmidSem (p : Caller)
  | setval (p : Caller) (semnum : ℤ) (val : BitVec 32)
  | setall (p : Caller) (arr : ℕ → BitVec 16)
  | exit (pid : ℕ)

namespace Sleepers

variable {τ : Type} [DecidableEq τ]

def setTask (s : Sleepers τ) (t : τ) (x : Task) : Sleepers τ :=
  { s with tasks := update s.tasks t x }

def setQ (s : Sleepers τ) (q : MsgQ) : Sleepers τ := { s with q := q }

def setSt (s : Sleepers τ) (st : SemSet) : Sleepers τ := { s with st := st }

def wakeAll (s : Sleepers τ) (queue : Bool) : Sleepers τ :=
  { s with tasks := fun t => (s.tasks t).wake queue }

def afterMsg (s : Sleepers τ) (t : τ) (w : Pending) (r : MsgResult × MsgQ) : Sleepers τ :=
  match r.1 with
  | .wait => (s.setQ r.2).setTask t (.going w)
  | .done => ((s.setQ r.2).setTask t .idle).wakeAll true
  | .got _ _ => (s.setQ r.2).setTask t .idle
  | .err _ => (s.setQ r.2).setTask t .idle

/-- The end of a pass on the set; a call whose deadline has passed gives up. -/
def afterSem (s : Sleepers τ) (t : τ) (p : Caller) (sops : List SemBuf) (timed expired : Bool)
    (r : SemResult × SemSet × Counted) : Sleepers τ :=
  match r.1 with
  | .done => ((s.setSt r.2.1).setTask t .idle).wakeAll false
  | .err _ => (s.setSt r.2.1).setTask t .idle
  | .wait =>
    if timed && expired then (s.setSt r.2.1).setTask t .idle
    else (s.setSt r.2.1).setTask t (.going (.sem p sops timed r.2.2))

/-- The next pass of a call that was woken up. -/
def retry (s : Sleepers τ) (t : τ) (expired : Bool) (mem : ℕ → Bool) : Sleepers τ :=
  match s.tasks t with
  | .woken (.snd mtype data) =>
    s.afterMsg t (.snd mtype data) (s.q.sndPass mtype data false (mem 0))
  | .woken (.rcv msgsz msgtyp noerror) =>
    s.afterMsg t (.rcv msgsz msgtyp noerror) (s.q.rcvPass msgsz msgtyp noerror false)
  | .woken (.sem p sops timed counted) =>
    s.afterSem t p sops timed expired (s.st.pass p sops mem counted)
  | _ => s

/-- The wake-up at the end of `SETVAL` and `SETALL`. -/
def afterSet (s : Sleepers τ) (r : SemResult × SemSet) : Sleepers τ :=
  if r.1 = .done then (s.setSt r.2).wakeAll false else s.setSt r.2

def exec (s : Sleepers τ) : SleepOp τ → Sleepers τ
  | .msgget slot =>
    if s.q.used then s else s.setQ (MsgTrack.ofSlot slot.used slot.perm s.q.nodes).q
  | .semget slot =>
    if s.st.used then s else s.setSt (SemTrack.ofSlot slot.used slot.perm slot.size.toNat).st
  | .msgsnd t p mtype data nowait mem =>
    match s.tasks t with
    | .idle => s.afterMsg t (.snd mtype data) (s.q.msgsnd p mtype data nowait mem)
    | _ => s
  | .msgrcv t p msgsz msgtyp noerror nowait =>
    match s.tasks t with
    | .idle => s.afterMsg t (.rcv msgsz msgtyp noerror) (s.q.msgrcv p msgsz msgtyp noerror nowait)
    | _ => s
  | .semop t p sops timed expired mem =>
    match s.tasks t with
    | .idle => s.afterSem t p sops timed expired (s.st.semtimedop p sops mem)
    | _ => s
  | .park t =>
    match s.tasks t with
    | .going w => s.setTask t (.asleep w)
    | _ => s
  | .retry t expired mem => s.retry t expired mem
  | .rouse t =>
    match s.tasks t with
    | .asleep w => s.setTask t (.woken w)
    | _ => s
  | .rmidMsg => if s.q.used then (s.setQ s.q.rmid).wakeAll true else s
  | .rmidSem p =>
    if s.st.used && permitted p s.st.perm .write then (s.setSt s.st.rmid).wakeAll false else s
  | .setval p semnum val => s.afterSet (s.st.setval p semnum val)
  | .setall p arr => s.afterSet (s.st.setall p arr)
  | .exit pid => if s.st.used then (s.setSt (s.st.semUndoAll pid)).wakeAll false else s

/-- A message that a receive of `msgtyp` is for. -/
def Matches (msgtyp : BitVec 64) (mtype : ℤ) : Prop :=
  msgtyp = 0 ∨ 0 < msgtyp.toInt ∧ mtype = msgtyp.toInt ∨ msgtyp.toInt < 0 ∧ mtype ≤ -msgtyp.toInt

/-- There is room for the message, a message for the receive, or the operations may proceed. -/
def CanProceed (s : Sleepers τ) : Pending → Prop
  | .snd _ data => s.q.cbytes + data.length ≤ s.q.qbytes
  | .rcv _ msgtyp _ => ∃ m ∈ s.q.contents, Matches msgtyp m.mtype
  | .sem _ sops _ _ => Sops.InOrder s.st.vals sops

/-- The object that the call waits at is gone. -/
def Removed (s : Sleepers τ) (w : Pending) : Prop :=
  if w.onQueue then s.q.used = false else s.st.used = false

/-- The number of tasks that wait for semaphore `n` to rise, and for it to become 0. -/
def risers [Fintype τ] (s : Sleepers τ) (n : ℕ) : ℕ := tally (Task.forRise n) s.tasks

def zeroers [Fintype τ] (s : Sleepers τ) (n : ℕ) : ℕ := tally (Task.forZero n) s.tasks

/-- The tables are zero, and nobody is in a call. -/
def Boot (s : Sleepers τ) : Prop :=
  s.q.used = false ∧ s.st.used = false ∧ (∀ n, s.st.sems n = {}) ∧ ∀ t, s.tasks t = .idle

/-- The calls of the other steps are taken with any arguments at any time. -/
def Enabled (_ : Sleepers τ) : SleepOp τ → Prop
  | .msgget slot => Tables.Fresh .msg slot
  | .semget slot => Tables.Fresh .sem slot
  | _ => True

def Reached : Sleepers τ → Prop := Reaches Boot Enabled exec

/-- Nothing is in use, so nobody gets as far as `ipc_wait`. -/
structure Vacant (s : Sleepers τ) : Prop where
  queue : s.q.used = false
  set : s.st.used = false
  sems : ∀ n, s.st.sems n = {}
  idle : ∀ t, s.tasks t = .idle

variable {s : Sleepers τ}

section

variable (h : s.Vacant)
include h

theorem Vacant.setTask_idle (t : τ) : s.setTask t .idle = s := by
  unfold setTask
  rw [← h.idle t, update_eq_self]

theorem Vacant.exec_call {op : SleepOp τ} (hMsg : ∀ slot, op ≠ .msgget slot)
    (hSem : ∀ slot, op ≠ .semget slot) : s.exec op = s := by
  have hUsed : ¬s.st.used = true := by simp [h.set]
  cases op with
  | msgget slot => exact absurd rfl (hMsg slot)
  | semget slot => exact absurd rfl (hSem slot)
  | msgsnd t p mtype data nowait mem =>
    have hFails : s.q.msgsnd p mtype data nowait mem = (.err .inval, s.q) :=
      MsgQ.run_of_unused h.queue (.snd p mtype data nowait mem)
    unfold exec
    simp only [h.idle t, hFails]
    exact h.setTask_idle t
  | msgrcv t p msgsz msgtyp noerror nowait =>
    have hFails : s.q.msgrcv p msgsz msgtyp noerror nowait = (.err .inval, s.q) :=
      MsgQ.run_of_unused h.queue (.rcv p msgsz msgtyp noerror nowait)
    unfold exec
    simp only [h.idle t, hFails]
    exact h.setTask_idle t
  | semop t p sops timed expired mem =>
    unfold exec
    simp only [h.idle t, SemSet.semtimedop_of_unused h.set]
    exact h.setTask_idle t
  | park t =>
    unfold exec
    simp only [h.idle t]
  | retry t expired mem =>
    unfold exec retry
    simp only [h.idle t]
  | rouse t =>
    unfold exec
    simp only [h.idle t]
  | rmidMsg => exact if_neg (by simp [h.queue])
  | rmidSem p => exact if_neg (by simp [h.set])
  | setval p semnum val =>
    unfold exec SemSet.setval
    dsimp only
    rw [if_pos h.set]
    rfl
  | setall p arr =>
    unfold exec SemSet.setall
    dsimp only
    rw [if_pos h.set]
    rfl
  | exit pid => exact if_neg hUsed

/-- The `memset` of a `get` call keeps the mark away that its search has set. -/
theorem Vacant.exec {op : SleepOp τ} (hOp : s.Enabled op) : (s.exec op).Vacant := by
  by_cases hMsg : ∃ slot, op = .msgget slot
  · obtain ⟨slot, rfl⟩ := hMsg
    unfold Sleepers.exec
    dsimp only
    rw [if_neg (by simp [h.queue])]
    exact { h with queue := hOp.unused }
  by_cases hSem : ∃ slot, op = .semget slot
  · obtain ⟨slot, rfl⟩ := hSem
    unfold Sleepers.exec
    dsimp only
    rw [if_neg (by simp [h.set])]
    exact { h with set := hOp.unused, sems := fun _ => rfl }
  rw [h.exec_call (fun slot hEq => hMsg ⟨slot, hEq⟩) fun slot hEq => hSem ⟨slot, hEq⟩]
  exact h

end

theorem Reached.vacant (h : s.Reached) : s.Vacant :=
  Reaches.invariant (fun _ hBoot => ⟨hBoot.1, hBoot.2.1, hBoot.2.2.1, hBoot.2.2.2⟩)
    (fun _ _ hVacant hOp => hVacant.exec hOp) h

/-- Nobody sleeps who could proceed or whose object is gone, and the counts of the set are those of
the tasks that wait at it: as nothing that the `get` calls make is in use, no call ever waits. -/
theorem no_lost_wakeup [Fintype τ] (h : s.Reached) :
    (∀ t w, s.tasks t = .asleep w → ¬s.CanProceed w ∧ ¬s.Removed w) ∧
      ∀ n, (s.st.sems n).ncnt = s.risers n ∧ (s.st.sems n).zcnt = s.zeroers n := by
  have hVacant := h.vacant
  refine ⟨fun t w hAsleep => ?_, fun n => ?_⟩
  · rw [hVacant.idle t] at hAsleep
    cases hAsleep
  · have hRise : s.risers n = 0 := tally_eq_zero.mpr fun t => by
      rw [hVacant.idle t]
      rfl
    have hZero : s.zeroers n = 0 := tally_eq_zero.mpr fun t => by
      rw [hVacant.idle t]
      rfl
    rw [hRise, hZero, hVacant.sems n]
    exact ⟨rfl, rfl⟩

def bootState : Sleepers Bool where
  q := ⟨false, {}, fun _ => ⟨none, 0, []⟩, 0, none, none, 0, 0, 0⟩
  st := ⟨false, {}, 0, fun _ => {}, []⟩
  tasks := fun _ => .idle

/-- Both objects are made; one task takes a unit that is not there, the other one a message. -/
def madeAndUsed : List (SleepOp Bool) :=
  [.semget ((sysvSemget (Tables.boot .sem) SemTrack.rootGet).2.slots 0),
    .semop true SemTrack.root [⟨0, -1, false, false⟩] false false fun _ => true, .park true,
    .msgget ((sysvMsgget (Tables.boot .msg) MsgTrack.rootGet).2.slots 0),
    .msgrcv false SemTrack.root 8 0 false false, .park false, .rouse false,
    .retry false false fun _ => true]

theorem no_lost_wakeup_made :
    (∀ t w, (madeAndUsed.foldl exec bootState).tasks t = .asleep w →
      ¬(madeAndUsed.foldl exec bootState).CanProceed w) ∧
    ∀ n, ((madeAndUsed.foldl exec bootState).st.sems n).ncnt =
      (madeAndUsed.foldl exec bootState).risers n := by
  have hSem : Tables.Fresh .sem ((sysvSemget (Tables.boot .sem) SemTrack.rootGet).2.slots 0) :=
    ⟨[], SemTrack.rootGet, 0, by decide +kernel, rfl⟩
  have hMsg : Tables.Fresh .msg ((sysvMsgget (Tables.boot .msg) MsgTrack.rootGet).2.slots 0) :=
    ⟨[], MsgTrack.rootGet, 0, by decide +kernel, rfl⟩
  have hReached : (madeAndUsed.foldl exec bootState).Reached := by
    refine Reaches.foldl (.start ⟨rfl, rfl, fun _ => rfl, fun _ => rfl⟩) _ ?_
    exact ⟨hSem, trivial, trivial, hMsg, trivial, trivial, trivial, trivial, trivial⟩
  obtain ⟨hAsleep, hCounts⟩ := no_lost_wakeup hReached
  exact ⟨fun t w hw => (hAsleep t w hw).1, fun n => (hCounts n).1⟩

end Sleepers

end Gnos.Ipc
