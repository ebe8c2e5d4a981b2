import Gnos.ProofKit.Linked
import Gnos.ProofKit.Runs
import Gnos.Proc.Signal

/-! The park lists of throttled cgroups over whole runs: a task that waits for the end of a period
is in exactly one list, of a cgroup whose period will end. -/

namespace Gnos.Kernel

open ProofKit Function List Kernel

variable {k k' : Kernel} {p c a : ℕ} {lists : ℕ → List ℕ} {l loose : List ℕ}

/-- Task `p` waits for the end of a period. -/
def Parked (k : Kernel) (p : ℕ) : Prop :=
  (k.procs p).state = .blocked ∧ (k.procs p).waitReason = .cgroup

instance (k : Kernel) (p : ℕ) : Decidable (Parked k p) := by
  unfold Parked
  infer_instance

/-- The list that starts at the task with number `pid`, as `release_parked` walks it. -/
def ParkList (k : Kernel) : ℤ → List ℕ → Prop
  | pid, [] => pid = -1
  | pid, p :: l => pid ≠ -1 ∧ k.procByPid pid = some p ∧ ParkList k (k.procs p).cgParkNext l

/-- Every list ends, and every task that waits for the end of a period is in one list, once, of a
cgroup that is throttled and whose next period releases it. -/
structure NoneLost (k : Kernel) : Prop where
  finite : ∀ c, ∃ l, ParkList k (k.cgs c).parkHead l
  once : ∀ p, Parked k p → ∃ c l, ParkList k (k.cgs c).parkHead l ∧ l.count p = 1 ∧
    (k.cgs c).throttled ∧ (k.cgs c).quotaTicks ≠ 0 ∧ (k.cgs c).live ∧
    ∀ c' l', ParkList k (k.cgs c').parkHead l' → p ∈ l' → c' = c

/-! ### Steps -/

inductive ParkOp
  | park (p : ℕ)
  /-- `enqueue_fresh`. -/
  | enqueue (p : ℕ)
  | wake (p : ℕ)
  | signal (p sig : ℕ)
  | refresh
  | timer
  | charge (p : ℕ) (used : Word)
  /-- A write to `cpu.max`. -/
  | setMax (c : ℕ) (quotaTicks : Word) (periodTicks : BitVec 32)
  | detach (p : ℕ)

namespace ParkOp

def exec (k : Kernel) : ParkOp → Kernel
  | .park p => k.cgPark p
  | .enqueue p => k.enqueueFresh p
  | .wake p => k.schedWake p
  | .signal p sig => k.procSignal p sig
  | .refresh => k.cgTickRefresh
  | .timer => { k with ticks := k.ticks + 1 }
  | .charge p used => (k.cgChargeRuntime p used).2
  | .setMax c quotaTicks periodTicks => k.cgCpuSetMax c quotaTicks periodTicks
  | .detach p => k.cgDetach p

/-- The tasks and cgroups exist; a period is between one tick and 10000. -/
def Enabled (k : Kernel) : ParkOp → Prop
  | .park p | .enqueue p | .wake p | .signal p _ | .charge p _ | .detach p =>
    (k.procs p).state ≠ .unused
  | .setMax c _ periodTicks => (k.cgs c).live ∧ 0 < periodTicks ∧ periodTicks ≤ 10000
  | _ => True

instance (k : Kernel) (op : ParkOp) : Decidable (Enabled k op) := by
  rcases op <;> unfold Enabled <;> infer_instance

/-- A parked task is neither parked again nor woken nor detached, and a period that is over while
tasks are parked is ended by `cg_tick_refresh`. -/
def Careful (k : Kernel) : ParkOp → Prop
  | .park p | .enqueue p | .wake p | .signal p _ | .detach p => ¬ Parked k p
  | .charge p _ => ∀ c ∈ k.cgChain p, (k.cgs c).parkHead = -1 ∨ periodOver (k.cgs c) k.ticks = false
  | .setMax c _ periodTicks =>
    (k.cgs c).parkHead = -1 ∨ periodOver { k.cgs c with periodTicks := periodTicks } k.ticks = false
  | _ => True

instance (k : Kernel) (op : ParkOp) : Decidable (Careful k op) := by
  rcases op <;> unfold Careful <;> infer_instance

end ParkOp

structure ParkStart (k : Kernel) : Prop where
  slots : ∀ p, maxProcs ≤ p → (k.procs p).state = .unused
  pids : ∀ i j, (k.procs i).state ≠ .unused → (k.procs j).state ≠ .unused →
    (k.procs i).pid = (k.procs j).pid → i = j
  positive : ∀ p, (k.procs p).state ≠ .unused → 0 < (k.procs p).pid
  members : ∀ p c, (k.procs p).cg = some c → (k.cgs c).live
  parents : ∀ c c', (k.cgs c).live → (k.cgs c).parent = some c' → (k.cgs c').live
  rooted : ∀ c, (k.cgs c).live → (k.cgChainFrom maxCgs c).getLast? = some 0
  quota : ∀ c, (k.cgs c).throttled → (k.cgs c).quotaTicks ≠ 0
  unparked : ∀ p, ¬ Parked k p
  empty : ∀ c, (k.cgs c).parkHead = -1

/-! ### The invariant -/

/-- `lists` are the park lists; the tasks in `loose` are parked but, within a step, in none. -/
structure ParkInv (k : Kernel) (lists : ℕ → List ℕ) (loose : List ℕ) : Prop where
  slots : ∀ p, maxProcs ≤ p → (k.procs p).state = .unused
  pids : ∀ i j, (k.procs i).state ≠ .unused → (k.procs j).state ≠ .unused →
    (k.procs i).pid = (k.procs j).pid → i = j
  positive : ∀ p, (k.procs p).state ≠ .unused → 0 < (k.procs p).pid
  members : ∀ p c, (k.procs p).cg = some c → (k.cgs c).live
  parents : ∀ c c', (k.cgs c).live → (k.cgs c).parent = some c' → (k.cgs c').live
  quota : ∀ c, (k.cgs c).throttled → (k.cgs c).quotaTicks ≠ 0
  linked : ∀ c, ParkList k (k.cgs c).parkHead (lists c)
  nodup : ∀ c, (lists c).Nodup
  disjoint : ∀ c c' p, p ∈ lists c → p ∈ lists c' → c = c'
  apart : loose.Nodup ∧ ∀ p ∈ loose, ∀ c, p ∉ lists c
  parked : ∀ p, Parked k p ↔ p ∈ loose ∨ ∃ c, p ∈ lists c
  throttled : ∀ c, lists c ≠ [] → (k.cgs c).throttled ∧ (k.cgs c).live

/-- The numbers of the tasks and which slots are used stay. -/
def SameTable (k k' : Kernel) : Prop :=
  ∀ j, (k'.procs j).pid = (k.procs j).pid ∧
    ((k'.procs j).state = .unused ↔ (k.procs j).state = .unused)

theorem SameTable.procByPid (h : SameTable k k') (pid : ℤ) :
    k'.procByPid pid = k.procByPid pid := by
  unfold Kernel.procByPid
  congr 1
  funext i
  simp only [(h i).1, ne_eq, (h i).2]

theorem ParkList.congr (hTable : SameTable k k')
    (hNext : ∀ p ∈ l, (k'.procs p).cgParkNext = (k.procs p).cgParkNext) {pid : ℤ}
    (h : ParkList k pid l) : ParkList k' pid l := by
  induction l generalizing pid with
  | nil => exact h
  | cons p l ih =>
    obtain ⟨hPid, hFind, hRest⟩ := h
    refine ⟨hPid, by rw [hTable.procByPid, hFind], ?_⟩
    rw [hNext p (by simp)]
    exact ih (fun q hq => hNext q (by simp [hq])) hRest

theorem ParkList.eq_nil (h : ParkList k (-1) l) : l = [] := by
  cases l with
  | nil => rfl
  | cons p l => exact absurd rfl h.1

theorem ParkList.unique {l' : List ℕ} {pid : ℤ} (h : ParkList k pid l) (h' : ParkList k pid l') :
    l = l' := by
  induction l generalizing pid l' with
  | nil =>
    rw [show pid = -1 from h] at h'
    exact h'.eq_nil.symm
  | cons p l ih =>
    cases l' with
    | nil => exact absurd h' h.1
    | cons p' l' =>
      obtain ⟨-, hFind, hRest⟩ := h
      obtain ⟨-, hFind', hRest'⟩ := h'
      have hEq : p = p' := Option.some.inj (hFind.symm.trans hFind')
      subst hEq
      rw [ih hRest hRest']

theorem mem_range_of_used (hSlots : ∀ p, maxProcs ≤ p → (k.procs p).state = .unused)
    (hUsed : (k.procs p).state ≠ .unused) : p ∈ range maxProcs := by
  rw [mem_range]
  by_contra hNot
  exact hUsed (hSlots p (by omega))

theorem Parked.used (h : Parked k p) : (k.procs p).state ≠ .unused := by
  rw [h.1]
  decide

namespace ParkInv

theorem procByPid (h : ParkInv k lists loose) (hUsed : (k.procs p).state ≠ .unused) :
    k.procByPid (k.procs p).pid = some p := by
  unfold Kernel.procByPid
  have hSome : ((range maxProcs).find? fun i => decide ((k.procs i).state ≠ .unused) &&
      decide ((k.procs i).pid = (k.procs p).pid)).isSome := by
    rw [find?_isSome]
    exact ⟨p, mem_range_of_used h.slots hUsed, by simp [hUsed]⟩
  obtain ⟨i, hi⟩ := Option.isSome_iff_exists.mp hSome
  have hFound := find?_some hi
  rw [Bool.and_eq_true, decide_eq_true_eq, decide_eq_true_eq] at hFound
  rw [hi, h.pids i p hFound.1 hUsed hFound.2]

theorem table (h : ParkInv k lists loose) (hTable : SameTable k k') :
    (∀ p, maxProcs ≤ p → (k'.procs p).state = .unused) ∧
    (∀ i j, (k'.procs i).state ≠ .unused → (k'.procs j).state ≠ .unused →
      (k'.procs i).pid = (k'.procs j).pid → i = j) ∧
    ∀ p, (k'.procs p).state ≠ .unused → 0 < (k'.procs p).pid := by
  refine ⟨fun p hp => (hTable p).2.mpr (h.slots p hp), fun i j hi hj hEq => ?_, fun p hp => ?_⟩
  · rw [(hTable i).1, (hTable j).1] at hEq
    exact h.pids i j (fun hi' => hi ((hTable i).2.mpr hi'))
      (fun hj' => hj ((hTable j).2.mpr hj')) hEq
  · rw [(hTable p).1]
    exact h.positive p fun hp' => hp ((hTable p).2.mpr hp')

theorem noneLost (h : ParkInv k lists []) : NoneLost k := by
  refine ⟨fun c => ⟨lists c, h.linked c⟩, fun p hp => ?_⟩
  obtain ⟨c, hc⟩ : ∃ c, p ∈ lists c := by
    rcases (h.parked p).mp hp with hNil | hc
    · exact absurd hNil (by simp)
    · exact hc
  obtain ⟨hThrottled, hLive⟩ := h.throttled c (ne_nil_of_mem hc)
  refine ⟨c, lists c, h.linked c, count_eq_one_of_mem (h.nodup c) hc, hThrottled,
    h.quota c hThrottled, hLive, fun c' l' hl' hp' => ?_⟩
  rw [hl'.unique (h.linked c')] at hp'
  exact h.disjoint c' c p hp' hc

end ParkInv

/-! ### Changes of one task -/

/-- Of the tasks only `p` changes.  It keeps its number and stays in use, and in its cgroup unless
it leaves it. -/
structure OneTask (p : ℕ) (k k' : Kernel) : Prop where
  other : ∀ j ≠ p, k'.procs j = k.procs j
  pid : (k'.procs p).pid = (k.procs p).pid
  used : (k.procs p).state ≠ .unused
  used' : (k'.procs p).state ≠ .unused
  cg : ∀ c, (k'.procs p).cg = some c → (k.procs p).cg = some c

namespace OneTask

section

variable (h : OneTask p k k')
include h

theorem sameTable : SameTable k k' := fun j => by
  by_cases hj : j = p
  · rw [hj]
    exact ⟨h.pid, iff_of_false h.used' h.used⟩
  · rw [h.other j hj]
    exact ⟨rfl, Iff.rfl⟩

theorem parked_iff {j : ℕ} (hj : j ≠ p) : Parked k' j ↔ Parked k j := by
  unfold Parked
  rw [h.other j hj]

theorem members {j : ℕ} (hj : (k'.procs j).cg = some c) : (k.procs j).cg = some c := by
  by_cases hjp : j = p
  · rw [hjp] at hj ⊢
    exact h.cg c hj
  · rwa [h.other j hjp] at hj

theorem trans {k'' : Kernel} (h' : OneTask p k' k'') : OneTask p k k'' :=
  ⟨fun j hj => (h'.other j hj).trans (h.other j hj), h'.pid.trans h.pid, h.used, h'.used',
    fun c hc => h.cg c (h'.cg c hc)⟩

end

theorem of_touches (h : Touches p k k') (hUsed : (k.procs p).state ≠ .unused)
    (hUsed' : (k'.procs p).state ≠ .unused)
    (hcg : ∀ c, (k'.procs p).cg = some c → (k.procs p).cg = some c) : OneTask p k k' :=
  ⟨h.other, h.pid p, hUsed, hUsed', hcg⟩

end OneTask

theorem ParkList.oneTask (hO : OneTask p k k') (hp : p ∉ l) {pid : ℤ} (h : ParkList k pid l) :
    ParkList k' pid l :=
  h.congr hO.sameTable fun j hj => by rw [hO.other j fun hEq => hp (hEq ▸ hj)]

namespace ParkInv

theorem notMem (h : ParkInv k lists loose) (hp : ¬ Parked k p) (c : ℕ) : p ∉ lists c :=
  fun hc => hp ((h.parked p).mpr (.inr ⟨c, hc⟩))

section

variable (h : ParkInv k lists loose) (hO : OneTask p k k')
include h hO

omit hO in
theorem parted : Parted lists := ⟨h.nodup, h.disjoint⟩

theorem retask (hCgs : k'.cgs = k.cgs) (hFree : ∀ c, p ∉ lists c) {loose' : List ℕ}
    (hApart : loose'.Nodup ∧ ∀ j ∈ loose', ∀ c, j ∉ lists c) (hSelf : Parked k' p ↔ p ∈ loose')
    (hRest : ∀ j ≠ p, (j ∈ loose' ↔ j ∈ loose)) : ParkInv k' lists loose' := by
  obtain ⟨hSlots, hPids, hPositive⟩ := h.table hO.sameTable
  refine ⟨hSlots, hPids, hPositive, fun j c hj => ?_, ?_, ?_, fun c => ?_, h.nodup, h.disjoint,
    hApart, fun j => ?_, ?_⟩
  · rw [hCgs]
    exact h.members j c (hO.members hj)
  · rw [hCgs]
    exact h.parents
  · rw [hCgs]
    exact h.quota
  · rw [hCgs]
    exact (h.linked c).oneTask hO (hFree c)
  · by_cases hj : j = p
    · rw [hj, hSelf]
      exact ⟨.inl, fun hMem => hMem.resolve_right fun ⟨c, hc⟩ => hFree c hc⟩
    · rw [hO.parked_iff hj, h.parked j, hRest j hj]
  · rw [hCgs]
    exact h.throttled

theorem other (hp : ¬ Parked k p) (hp' : ¬ Parked k' p) (hCgs : k'.cgs = k.cgs) :
    ParkInv k' lists loose := by
  refine h.retask hO hCgs (h.notMem hp) h.apart (iff_of_false hp' fun hMem => ?_) fun _ _ => Iff.rfl
  exact hp ((h.parked p).mpr (.inl hMem))

theorem hold (hp : ¬ Parked k p) (hp' : Parked k' p) (hCgs : k'.cgs = k.cgs) :
    ParkInv k' lists (p :: loose) := by
  have hLoose : p ∉ loose := fun hMem => hp ((h.parked p).mpr (.inl hMem))
  refine h.retask hO hCgs (h.notMem hp) ⟨nodup_cons.mpr ⟨hLoose, h.apart.1⟩, fun j hj => ?_⟩
    (iff_of_true hp' (by simp)) fun j hj => by simp [hj]
  rcases mem_cons.mp hj with hj | hj
  · rw [hj]
    exact h.notMem hp
  · exact h.apart.2 j hj

end

section

variable (h : ParkInv k lists (p :: loose)) (hO : OneTask p k k')
include h hO

theorem free (hp' : ¬ Parked k' p) (hCgs : k'.cgs = k.cgs) : ParkInv k' lists loose := by
  have hNodup := nodup_cons.mp h.apart.1
  exact h.retask hO hCgs (h.apart.2 p (by simp))
    ⟨hNodup.2, fun j hj => h.apart.2 j (by simp [hj])⟩ (iff_of_false hp' hNodup.1)
    fun j hj => by simp [hj]

theorem link (hp' : Parked k' p) (hNext : (k'.procs p).cgParkNext = (k.cgs c).parkHead)
    (hCgs : k'.cgs = update k.cgs c { k.cgs c with parkHead := (k.procs p).pid })
    (hThrottled : (k.cgs c).throttled) (hLive : (k.cgs c).live) :
    ParkInv k' (update lists c (p :: lists c)) loose := by
  obtain ⟨hSlots, hPids, hPositive⟩ := h.table hO.sameTable
  have hFree : ∀ c, p ∉ lists c := h.apart.2 p (by simp)
  have hNodup := nodup_cons.mp h.apart.1
  have hParted := h.parted.update (i := c) (forall_mem_cons.mpr ⟨.inr hFree, fun _ hj => .inl hj⟩)
    (nodup_cons.mpr ⟨hFree c, h.nodup c⟩)
  have hMem : ∀ d j, j ∈ update lists c (p :: lists c) d ↔ j ∈ lists d ∨ d = c ∧
      j = p := fun d j => by
    by_cases hd : d = c
    · rw [hd, update_self, mem_cons]
      simp [or_comm]
    · rw [update_of_ne hd]
      simp [hd]
  -- the cgroups but for the heads of the lists
  have hSame : ∀ d, (k'.cgs d).live = (k.cgs d).live ∧ (k'.cgs d).parent = (k.cgs d).parent ∧
      (k'.cgs d).throttled = (k.cgs d).throttled ∧
      (k'.cgs d).quotaTicks = (k.cgs d).quotaTicks := fun d => by
    rw [hCgs]
    by_cases hd : d = c
    · rw [hd, update_self]
      exact ⟨rfl, rfl, rfl, rfl⟩
    · rw [update_of_ne hd]
      exact ⟨rfl, rfl, rfl, rfl⟩
  refine ⟨hSlots, hPids, hPositive, fun j d hj => ?_, fun d d' => ?_, fun d => ?_, fun d => ?_,
    hParted.nodup, hParted.apart, ⟨hNodup.2, fun j hj d hd => ?_⟩, fun j => ?_, fun d hd => ?_⟩
  · rw [(hSame d).1]
    exact h.members j d (hO.members hj)
  · rw [(hSame d).1, (hSame d).2.1, (hSame d').1]
    exact h.parents d d'
  · rw [(hSame d).2.2.1, (hSame d).2.2.2]
    exact h.quota d
  · rw [hCgs]
    by_cases hd : d = c
    · rw [hd, update_self, update_self]
      refine ⟨?_, ?_, ?_⟩
      · have hPos := h.positive p hO.used
        dsimp only
        omega
      · rw [hO.sameTable.procByPid]
        exact h.procByPid hO.used
      · rw [hNext]
        exact (h.linked c).oneTask hO (hFree c)
    · rw [update_of_ne hd, update_of_ne hd]
      exact (h.linked d).oneTask hO (hFree d)
  · rcases (hMem d j).mp hd with hd | ⟨-, hjp⟩
    · exact h.apart.2 j (by simp [hj]) d hd
    · exact hNodup.1 (hjp ▸ hj)
  · by_cases hj : j = p
    · rw [hj]
      exact iff_of_true hp' (.inr ⟨c, (hMem c p).mpr (.inr ⟨rfl, rfl⟩)⟩)
    · rw [hO.parked_iff hj, h.parked j]
      simp only [hMem, mem_cons, hj, false_or, and_false, or_false]
  · rw [(hSame d).1, (hSame d).2.2.1]
    by_cases hdc : d = c
    · rw [hdc]
      exact ⟨hThrottled, hLive⟩
    · rw [update_of_ne hdc] at hd
      exact h.throttled d hd

end

end ParkInv

/-! ### Parking and waking -/

theorem mem_cgChain_of_cgAnchor (h : k.cgAnchor p = some a) :
    a ∈ k.cgChain p ∧ (k.cgs a).throttled := by
  have hMem := mem_of_getLast? h
  rwa [mem_filter] at hMem

theorem cgChainThrottled_of_cgAnchor (h : k.cgAnchor p = none) : k.cgChainThrottled p = false := by
  have hNil := getLast?_eq_none_iff.mp h
  rw [filter_eq_nil_iff] at hNil
  rw [cgChainThrottled, any_eq_false]
  exact hNil

theorem live_of_mem_cgChainFrom
    (hParents : ∀ c c', (k.cgs c).live → (k.cgs c).parent = some c' → (k.cgs c').live)
    (fuel : ℕ) (hLive : (k.cgs c).live) (ha : a ∈ k.cgChainFrom fuel c) : (k.cgs a).live := by
  induction fuel generalizing c with
  | zero => exact absurd ha (by simp [cgChainFrom])
  | succ fuel ih =>
    unfold cgChainFrom at ha
    split at ha
    · rw [mem_singleton.mp ha]
      exact hLive
    · split at ha
      · rw [mem_singleton.mp ha]
        exact hLive
      next c' hParent =>
        rcases mem_cons.mp ha with ha | ha
        · rw [ha]
          exact hLive
        · exact ih (hParents c c' hLive hParent) ha

theorem oneTask_enqueueReady (hUsed : (k.procs p).state ≠ .unused) :
    OneTask p k (k.enqueueReady p) := by
  refine OneTask.of_touches (touches_enqueueReady k p) hUsed ?_ ?_
  · rw [state_enqueueReady]
    decide
  · rw [cg_enqueueReady]
    exact fun _ hc => hc

theorem procs_parkLink_self (k : Kernel) (c p : ℕ) :
    (k.parkLink c p).procs p = (k.procs p).setParkNext (k.cgs c).parkHead := by
  simp [parkLink]

theorem oneTask_parkLink (hUsed : (k.procs p).state ≠ .unused) (c : ℕ) :
    OneTask p k (k.parkLink c p) := by
  refine OneTask.of_touches (touches_parkLink k c p) hUsed ?_ ?_
  · rw [procs_parkLink_self]
    exact hUsed
  · rw [procs_parkLink_self]
    exact fun _ hc => hc

theorem not_parked_enqueueReady : ¬ Parked (k.enqueueReady p) p := fun hNot =>
  absurd ((state_enqueueReady k p).symm.trans hNot.1) (by decide)

namespace ParkInv

theorem live_of_cgAnchor (h : ParkInv k lists loose) (ha : k.cgAnchor p = some a) :
    (k.cgs a).live := by
  have hMem := (mem_cgChain_of_cgAnchor ha).1
  unfold cgChain at hMem
  split at hMem
  · exact absurd hMem (by simp)
  next c hc => exact live_of_mem_cgChainFrom h.parents maxCgs (h.members p c hc) hMem

theorem settleLoose (h : ParkInv k lists (p :: loose)) :
    (∀ a, k.cgAnchor p = some a → ∃ lists', ParkInv (k.parkLink a p) lists' loose) ∧
      ParkInv (k.enqueueReady p) lists loose := by
  have hParked : Parked k p := (h.parked p).mpr (.inl (by simp))
  refine ⟨fun a ha => ?_, ?_⟩
  · have hParked' : Parked (k.parkLink a p) p := by
      unfold Parked
      rw [procs_parkLink_self]
      exact hParked
    refine ⟨_, h.link (oneTask_parkLink hParked.used a) hParked' ?_ rfl
      (mem_cgChain_of_cgAnchor ha).2 (h.live_of_cgAnchor ha)⟩
    rw [procs_parkLink_self]
    rfl
  · exact h.free (oneTask_enqueueReady hParked.used) not_parked_enqueueReady (cgs_enqueueReady k p)

section

variable (h : ParkInv k lists []) (hp : ¬ Parked k p) (hUsed : (k.procs p).state ≠ .unused)
include h hp hUsed

theorem cgPark : ∃ lists', ParkInv (k.cgPark p) lists' [] := by
  unfold Kernel.cgPark
  split
  · exact ⟨lists, h⟩
  · dsimp only
    have hProc := procs_modify_self k p fun x => (x.block .cgroup).setParkNext (-1)
    generalize hk1 : (k.modify p fun x => (x.block .cgroup).setParkNext (-1)) = k1 at hProc
    have hParked : Parked k1 p := by
      unfold Parked
      rw [hProc]
      exact ⟨rfl, rfl⟩
    have hO : OneTask p k k1 := by
      refine OneTask.of_touches (hk1 ▸ Touches.entity k p _ rfl) hUsed hParked.used ?_
      rw [hProc]
      exact fun _ hc => hc
    have hHold : ParkInv k1 lists [p] := h.hold hO hp hParked (by rw [← hk1]; rfl)
    split
    · exact ⟨lists, hHold.settleLoose.2⟩
    next a ha => exact hHold.settleLoose.1 a ha

theorem enqueueFresh : ∃ lists', ParkInv (k.enqueueFresh p) lists' [] := by
  unfold Kernel.enqueueFresh
  split
  · exact h.cgPark hp hUsed
  · exact ⟨lists, h.other (oneTask_enqueueReady hUsed) hp not_parked_enqueueReady
      (cgs_enqueueReady k p)⟩

end

theorem tweak (h : ParkInv k lists loose) (f : Proc → Proc)
    (hp : ¬ Parked k p) (hp' : ¬ Parked (k.modify p f) p) (hUsed : (k.procs p).state ≠ .unused)
    (hState : (f (k.procs p)).state = (k.procs p).state)
    (hPid : (f (k.procs p)).pid = (k.procs p).pid)
    (hcg : ∀ c, (f (k.procs p)).cg = some c → (k.procs p).cg = some c) :
    ParkInv (k.modify p f) lists loose := by
  refine h.other ⟨fun j hj => procs_modify_of_ne k f hj, ?_, hUsed, ?_, fun c hc => ?_⟩ hp hp' rfl
  · rw [procs_modify_self, hPid]
  · rwa [procs_modify_self, hState]
  · rw [procs_modify_self] at hc
    exact hcg c hc

section

variable (h : ParkInv k lists []) (hp : ¬ Parked k p)
include h hp

theorem schedWake : ∃ lists', ParkInv (k.schedWake p) lists' [] := by
  unfold Kernel.schedWake
  split
  next hBlocked =>
    have hUsed : (k.procs p).state ≠ .unused := by rw [hBlocked]; decide
    have hAwake :
        ¬ Parked (k.modify p fun x => { x with waitReason := .none, wakeTick := 0 }) p := by
      unfold Parked
      rw [procs_modify_self]
      exact fun hNot => WaitReason.noConfusion hNot.2
    refine (h.tweak _ hp hAwake hUsed rfl rfl fun _ hc => hc).enqueueFresh hAwake ?_
    rwa [procs_modify_self]
  next => exact ⟨lists, h⟩

theorem signalled (hUsed : (k.procs p).state ≠ .unused) (f : Proc → Proc)
    (hf : (f (k.procs p)).toEntity = (k.procs p).toEntity)
    (hPid : (f (k.procs p)).pid = (k.procs p).pid) :
    ParkInv (k.modify p f) lists [] ∧ ¬ Parked (k.modify p f) p ∧
      ((k.modify p f).procs p).state = (k.procs p).state := by
  have hState : (f (k.procs p)).state = (k.procs p).state := by rw [hf]
  have hNot : ¬ Parked (k.modify p f) p := by
    unfold Parked
    rw [procs_modify_self, hf]
    exact hp
  refine ⟨h.tweak f hp hNot hUsed hState hPid fun c hc => ?_, hNot, ?_⟩
  · rwa [hf] at hc
  · rw [procs_modify_self, hState]

theorem procSignal (sig : ℕ) : ∃ lists', ParkInv (k.procSignal p sig) lists' [] := by
  unfold Kernel.procSignal
  dsimp only
  split
  · exact ⟨lists, h⟩
  next hSome =>
    have hUsed : (k.procs p).state ≠ .unused := fun hEq => hSome (.inr (.inr (.inl hEq)))
    split
    · obtain ⟨hInv, hNot, hState⟩ := h.signalled hp hUsed .unstop rfl rfl
      split
      · split
        · exact ⟨lists, hInv⟩
        · obtain ⟨hInv', hNot', hState'⟩ := hInv.signalled hNot (by rwa [hState])
            (fun x => { x with reported := false }) rfl rfl
          exact hInv'.enqueueFresh hNot' (by rwa [hState', hState])
      · exact ⟨lists, hInv⟩
    · split
      · exact ⟨lists, h⟩
      · obtain ⟨hInv, hNot, hState⟩ := h.signalled hp hUsed (.pend sig) rfl rfl
        split
        · exact hInv.schedWake hNot
        · split
          · exact hInv.enqueueFresh hNot (by rwa [hState])
          · exact ⟨lists, hInv⟩

end

end ParkInv

/-! ### Changes of cgroups -/

variable {g : CpuCgroup}

structure SamePlace (g g' : CpuCgroup) : Prop where
  parkHead : g'.parkHead = g.parkHead
  live : g'.live = g.live
  parent : g'.parent = g.parent

namespace SamePlace

theorem refl (g : CpuCgroup) : SamePlace g g := ⟨rfl, rfl, rfl⟩

theorem trans {g' g'' : CpuCgroup} (h : SamePlace g g') (h' : SamePlace g' g'') : SamePlace g g'' :=
  ⟨h'.parkHead.trans h.parkHead, h'.live.trans h.live, h'.parent.trans h.parent⟩

end SamePlace

theorem samePlace_rolloverLoop (now : Word) (fuel : ℕ) (g : CpuCgroup) :
    SamePlace g (rolloverLoop now fuel g) ∧ (rolloverLoop now fuel g).quotaTicks = g.quotaTicks ∧
      ((rolloverLoop now fuel g).throttled → g.throttled) := by
  induction fuel generalizing g with
  | zero => exact ⟨.refl g, rfl, id⟩
  | succ fuel ih =>
    unfold rolloverLoop
    split
    · obtain ⟨hPlace, hQuota, hThrottled⟩ := ih (nextPeriod g)
      have hNext : SamePlace g (nextPeriod g) ∧ (nextPeriod g).quotaTicks = g.quotaTicks ∧
          ((nextPeriod g).throttled → g.throttled) := by
        unfold nextPeriod
        split
        next hOn => exact ⟨⟨rfl, rfl, rfl⟩, rfl, fun _ => hOn⟩
        next => exact ⟨⟨rfl, rfl, rfl⟩, rfl, id⟩
      exact ⟨hNext.1.trans hPlace, hQuota.trans hNext.2.1, fun hOn => hNext.2.2 (hThrottled hOn)⟩
    · exact ⟨.refl g, rfl, id⟩

theorem samePlace_periodRollover (g : CpuCgroup) (now : Word) :
    SamePlace g (periodRollover g now) ∧ (periodRollover g now).quotaTicks = g.quotaTicks ∧
      ((periodRollover g now).throttled → g.throttled) := by
  unfold periodRollover
  split
  · exact ⟨.refl g, rfl, id⟩
  · exact samePlace_rolloverLoop now _ g

theorem periodRollover_of_not_over {now : Word} (h : periodOver g now = false) :
    periodRollover g now = g := by
  unfold periodRollover
  split
  · rfl
  · rw [rolloverLoop, if_neg (by simp [h])]

theorem samePlace_spend (g : CpuCgroup) (now used : Word) :
    let g' := spend g now used
    SamePlace g g' ∧ (g.throttled → g'.throttled) ∧
      ((g.throttled → g.quotaTicks ≠ 0) → g'.throttled → g'.quotaTicks ≠ 0) ∧
      periodOver g' now = periodOver g now := by
  unfold spend
  dsimp only
  split
  · exact ⟨⟨rfl, rfl, rfl⟩, id, id, rfl⟩
  next hSome =>
    split
    · exact ⟨⟨rfl, rfl, rfl⟩, fun _ => rfl, fun _ _ => hSome, rfl⟩
    · exact ⟨⟨rfl, rfl, rfl⟩, id, fun _ _ => hSome, rfl⟩

theorem samePlace_chargeGroup (g : CpuCgroup) (now used : Word)
    (hQuota : g.throttled → g.quotaTicks ≠ 0) : SamePlace g (chargeGroup g now used) ∧
      ((chargeGroup g now used).throttled → (chargeGroup g now used).quotaTicks ≠ 0) := by
  unfold chargeGroup
  split
  · obtain ⟨hPlace, hSame, hThrottled⟩ := samePlace_periodRollover g now
    obtain ⟨hPlace', -, hQuota', -⟩ := samePlace_spend (periodRollover g now) now used
    exact ⟨hPlace.trans hPlace', hQuota' fun hOn => hSame ▸ hQuota (hThrottled hOn)⟩
  · obtain ⟨hPlace, -, hQuota', -⟩ := samePlace_spend g now used
    exact ⟨hPlace, hQuota' hQuota⟩

theorem chargeGroup_of_not_over {now : Word} (used : Word) (h : periodOver g now = false) :
    (g.throttled → (chargeGroup g now used).throttled) ∧
    periodOver (chargeGroup g now used) now = false := by
  obtain ⟨-, hKeep, -, hOver⟩ := samePlace_spend g now used
  unfold chargeGroup
  rw [h]
  exact ⟨hKeep, hOver.trans h⟩

namespace ParkInv

theorem regroup (h : ParkInv k lists loose) (f : CpuCgroup → CpuCgroup)
    (hPlace : SamePlace (k.cgs c) (f (k.cgs c)))
    (hQuota : (f (k.cgs c)).throttled → (f (k.cgs c)).quotaTicks ≠ 0)
    (hKeep : lists c ≠ [] → (f (k.cgs c)).throttled) : ParkInv (k.setCg c f) lists loose := by
  have hSame : ∀ d, SamePlace (k.cgs d) ((k.setCg c f).cgs d) := fun d => by
    by_cases hd : d = c
    · rw [hd, cgs_setCg_self]
      exact hPlace
    · rw [cgs_setCg_of_ne k f hd]
      exact .refl _
  have hTable : SameTable k (k.setCg c f) := fun _ => ⟨rfl, Iff.rfl⟩
  refine ⟨h.slots, h.pids, h.positive, fun j d hj => ?_, fun d d' => ?_, fun d hd => ?_,
    fun d => ?_, h.nodup, h.disjoint, h.apart, h.parked, fun d hd => ?_⟩
  · rw [(hSame d).live]
    exact h.members j d hj
  · rw [(hSame d).live, (hSame d).parent, (hSame d').live]
    exact h.parents d d'
  · by_cases hdc : d = c
    · rw [hdc, cgs_setCg_self] at hd ⊢
      exact hQuota hd
    · rw [cgs_setCg_of_ne k f hdc] at hd ⊢
      exact h.quota d hd
  · rw [(hSame d).parkHead]
    exact (h.linked d).congr hTable fun _ _ => rfl
  · rw [(hSame d).live]
    refine ⟨?_, (h.throttled d hd).2⟩
    by_cases hdc : d = c
    · rw [hdc, cgs_setCg_self]
      exact hKeep (hdc ▸ hd)
    · rw [cgs_setCg_of_ne k f hdc]
      exact (h.throttled d hd).1

/-- Either the list of a cgroup is empty or its period is not over. -/
def Running (k : Kernel) (c : ℕ) : Prop :=
  (k.cgs c).parkHead = -1 ∨ periodOver (k.cgs c) k.ticks = false

section

variable (h : ParkInv k lists [])
include h

theorem cgDetach (hp : ¬ Parked k p) (hUsed : (k.procs p).state ≠ .unused) :
    ParkInv (k.cgDetach p) lists [] := by
  unfold Kernel.cgDetach
  have hLeft : ∀ k : Kernel, ParkInv k lists [] → ¬ Parked k p → (k.procs p).state ≠ .unused →
      ParkInv (k.modify p fun x => { x with cg := none, cgParkNext := -1 }) lists [] :=
    fun k h hp hUsed => by
      refine h.tweak _ hp ?_ hUsed rfl rfl fun c hc => absurd hc (by simp)
      unfold Parked
      rw [procs_modify_self]
      exact hp
  split
  next c hc =>
    split
    · refine hLeft _ (h.regroup _ ⟨rfl, rfl, rfl⟩ (h.quota c) fun hNil => ?_) hp hUsed
      exact (h.throttled c hNil).1
    · exact hLeft k h hp hUsed
  next => exact hLeft k h hp hUsed

theorem chargeChain (used : Word) (cs : List ℕ) (throttled : Bool) (hcs : ∀ c ∈ cs, Running k c) :
    ParkInv (chargeChain used cs throttled k).2 lists [] := by
  induction cs generalizing throttled k with
  | nil => exact h
  | cons c cs ih =>
    obtain ⟨hPlace, hQuota⟩ := samePlace_chargeGroup (k.cgs c) k.ticks used (h.quota c)
    have hKeep : lists c ≠ [] → (chargeGroup (k.cgs c) k.ticks used).throttled := by
      intro hNil
      rcases hcs c (by simp) with hHead | hOver
      · have hList := h.linked c
        rw [hHead] at hList
        exact absurd hList.eq_nil hNil
      · exact (chargeGroup_of_not_over used hOver).1 (h.throttled c hNil).1
    refine ih (h.regroup (fun g => chargeGroup g k.ticks used) hPlace hQuota hKeep) _ fun d hd => ?_
    by_cases hdc : d = c
    · unfold Running
      rw [hdc, cgs_setCg_self, hPlace.parkHead]
      exact (hcs c (by simp)).imp_right fun hOver => (chargeGroup_of_not_over used hOver).2
    · unfold Running
      rw [cgs_setCg_of_ne k _ hdc]
      exact hcs d (by simp [hd])

theorem cgChargeRuntime (used : Word) (hcs : ∀ c ∈ k.cgChain p, Running k c) :
    ParkInv (k.cgChargeRuntime p used).2 lists [] := by
  unfold Kernel.cgChargeRuntime
  split
  · exact h
  · exact h.chargeChain used _ false hcs

theorem cgCpuSetMax (quotaTicks : Word) {periodTicks : BitVec 32}
    (hc : (k.cgs c).parkHead = -1 ∨
      periodOver { k.cgs c with periodTicks := periodTicks } k.ticks = false) :
    ParkInv (k.cgCpuSetMax c quotaTicks periodTicks) lists [] := by
  have hLimit : SamePlace (k.cgs c) (limit quotaTicks periodTicks (k.cgs c)) := ⟨rfl, rfl, rfl⟩
  obtain ⟨hPlace, hSame, -⟩ := samePlace_periodRollover
    (limit quotaTicks periodTicks (k.cgs c)) k.ticks
  refine h.regroup _ (hLimit.trans hPlace) (fun _ => ?_) fun hNil => ?_
  · rw [hSame, limit]
    dsimp only
    split
    · decide
    next hNe => exact hNe
  · rcases hc with hHead | hOver
    · have hList := h.linked c
      rw [hHead] at hList
      exact absurd hList.eq_nil hNil
    · have hOver' : periodOver (limit quotaTicks periodTicks (k.cgs c)) k.ticks = false := hOver
      rw [periodRollover_of_not_over hOver']
      exact (h.throttled c hNil).1

end

/-! ### Release -/

theorem releaseOne (h : ParkInv k lists (p :: loose)) :
    (∃ lists', ParkInv (k.releaseOne p) lists' loose) ∧ OneTask p k (k.releaseOne p) := by
  have hParked : Parked k p := (h.parked p).mpr (.inl (by simp))
  have hIf : (k.procs p).state = .blocked ∧ (k.procs p).waitReason = .cgroup := hParked
  unfold Kernel.releaseOne
  rw [if_pos hIf]
  dsimp only
  have hProc := procs_modify_self k p (.setParkNext (-1))
  have hT : Touches p k (k.modify p (.setParkNext (-1))) := Touches.entity k p _ rfl
  have hCgs : (k.modify p (.setParkNext (-1))).cgs = k.cgs := rfl
  generalize (k.modify p (.setParkNext (-1))) = k1 at hProc hT hCgs
  have hParked1 : Parked k1 p := by
    unfold Parked
    rw [hProc]
    exact hParked
  have hO : OneTask p k k1 := by
    refine OneTask.of_touches hT hParked.used hParked1.used ?_
    rw [hProc]
    exact fun _ hc => hc
  have hInv : ParkInv k1 lists (p :: loose) :=
    h.retask hO hCgs (h.apart.2 p (by simp)) h.apart (iff_of_true hParked1 (by simp))
      fun _ _ => Iff.rfl
  split
  next a ha => exact ⟨hInv.settleLoose.1 a ha, hO.trans (oneTask_parkLink hParked1.used a)⟩
  next ha =>
    rw [Kernel.enqueueFresh, cgChainThrottled_of_cgAnchor ha, if_neg (by decide)]
    exact ⟨⟨lists, hInv.settleLoose.2⟩, hO.trans (oneTask_enqueueReady hParked1.used)⟩

theorem releaseLoop (h : ParkInv k lists loose) {pid : ℤ} (hList : ParkList k pid loose) {fuel : ℕ}
    (hFuel : loose.length ≤ fuel) : ∃ lists', ParkInv (releaseLoop fuel pid k) lists' [] := by
  induction loose generalizing k lists pid fuel with
  | nil =>
    refine ⟨lists, ?_⟩
    cases fuel with
    | zero => exact h
    | succ fuel =>
      have hEnd : pid = -1 := hList
      rw [releaseLoop, if_pos hEnd]
      exact h
  | cons p loose ih =>
    obtain ⟨hPid, hFind, hRest⟩ := hList
    obtain ⟨⟨lists', hInv⟩, hO⟩ := h.releaseOne
    cases fuel with
    | zero => simp at hFuel
    | succ fuel =>
      rw [releaseLoop, if_neg hPid, hFind]
      exact ih hInv (hRest.oneTask hO (nodup_cons.mp h.apart.1).1) (by simpa using hFuel)

theorem length_le (h : ParkInv k lists loose) (c : ℕ) : (lists c).length ≤ 4 * maxProcs := by
  have hSub : lists c ⊆ range maxProcs := fun p hp =>
    mem_range_of_used h.slots ((h.parked p).mpr (.inr ⟨c, hp⟩)).used
  have hLe := (subperm_of_subset (h.nodup c) hSub).length_le
  rw [length_range] at hLe
  omega

section

variable (h : ParkInv k lists [])
include h

theorem unhook (f : CpuCgroup → CpuCgroup) (hHead : (f (k.cgs c)).parkHead = -1)
    (hLive : (f (k.cgs c)).live = (k.cgs c).live)
    (hParent : (f (k.cgs c)).parent = (k.cgs c).parent)
    (hQuota : (f (k.cgs c)).throttled → (f (k.cgs c)).quotaTicks ≠ 0) :
    ParkInv (k.setCg c f) (update lists c []) (lists c) := by
  have hSame : ∀ d, ((k.setCg c f).cgs d).live = (k.cgs d).live ∧
      ((k.setCg c f).cgs d).parent = (k.cgs d).parent := fun d => by
    by_cases hd : d = c
    · rw [hd, cgs_setCg_self]
      exact ⟨hLive, hParent⟩
    · rw [cgs_setCg_of_ne k f hd]
      exact ⟨rfl, rfl⟩
  have hTable : SameTable k (k.setCg c f) := fun _ => ⟨rfl, Iff.rfl⟩
  have hParted := h.parted.update (i := c) (forall_mem_nil _) nodup_nil
  have hMem : ∀ d j, j ∈ update lists c [] d ↔ j ∈ lists d ∧ d ≠ c := fun d j => by
    by_cases hd : d = c
    · rw [hd, update_self]
      simp
    · simp [hd]
  refine ⟨h.slots, h.pids, h.positive, fun j d hj => ?_, fun d d' => ?_, fun d hd => ?_,
    fun d => ?_,
    hParted.nodup, hParted.apart, ⟨h.nodup c, fun j hj d hd => ?_⟩, fun j => ?_, fun d hd => ?_⟩
  · rw [(hSame d).1]
    exact h.members j d hj
  · rw [(hSame d).1, (hSame d).2, (hSame d').1]
    exact h.parents d d'
  · by_cases hdc : d = c
    · rw [hdc, cgs_setCg_self] at hd ⊢
      exact hQuota hd
    · rw [cgs_setCg_of_ne k f hdc] at hd ⊢
      exact h.quota d hd
  · by_cases hdc : d = c
    · rw [hdc, update_self, cgs_setCg_self]
      exact hHead
    · rw [update_of_ne hdc, cgs_setCg_of_ne k f hdc]
      exact (h.linked d).congr hTable fun _ _ => rfl
  · obtain ⟨hjd, hdc⟩ := (hMem d j).mp hd
    exact hdc (h.disjoint d c j hjd hj)
  · refine (h.parked j).trans ⟨fun hj => ?_, fun hj => .inr ?_⟩
    · obtain ⟨d, hd⟩ := hj.resolve_left (by simp)
      by_cases hdc : d = c
      · exact .inl (hdc ▸ hd)
      · exact .inr ⟨d, (hMem d j).mpr ⟨hd, hdc⟩⟩
    · rcases hj with hj | ⟨d, hd⟩
      · exact ⟨c, hj⟩
      · exact ⟨d, ((hMem d j).mp hd).1⟩
  · have hdc : d ≠ c := fun hEq => by
      rw [hEq, update_self] at hd
      exact hd rfl
    rw [update_of_ne hdc] at hd
    rw [cgs_setCg_of_ne k f hdc]
    exact h.throttled d hd

theorem refreshGroup (c : ℕ) : ∃ lists', ParkInv (k.refreshGroup c) lists' [] := by
  unfold Kernel.refreshGroup
  dsimp only
  split
  · obtain ⟨hPlace, hSame, hThrottled⟩ := samePlace_periodRollover (k.cgs c) k.ticks
    have hUnhook := h.unhook (c := c)
      (fun g => { periodRollover g k.ticks with parkHead := -1 }) rfl
      hPlace.live hPlace.parent fun hOn => hSame ▸ h.quota c (hThrottled hOn)
    unfold releaseParked
    have hTwice : ((k.setCg c fun g => periodRollover g k.ticks).setCg c
        fun g => { g with parkHead := -1 }) =
        k.setCg c fun g => { periodRollover g k.ticks with parkHead := -1 } := by
      simp [setCg]
    rw [hTwice, cgs_setCg_self, hPlace.parkHead]
    refine hUnhook.releaseLoop ?_ (h.length_le c)
    have hTable :
        SameTable k (k.setCg c fun g => { periodRollover g k.ticks with parkHead := -1 }) :=
      fun _ => ⟨rfl, Iff.rfl⟩
    exact (h.linked c).congr hTable fun _ _ => rfl
  · exact ⟨lists, h⟩

theorem cgTickRefresh : ∃ lists', ParkInv k.cgTickRefresh lists' [] := by
  unfold Kernel.cgTickRefresh
  generalize range maxCgs = cs
  induction cs generalizing k lists with
  | nil => exact ⟨lists, h⟩
  | cons c cs ih =>
    obtain ⟨lists', hInv⟩ := h.refreshGroup c
    exact ih hInv

end

/-! ### Runs -/

theorem start (h : ParkStart k) : ParkInv k (fun _ => []) [] where
  slots := h.slots
  pids := h.pids
  positive := h.positive
  members := h.members
  parents := h.parents
  quota := h.quota
  linked c := h.empty c
  nodup _ := nodup_nil
  disjoint _ _ _ hp := absurd hp (by simp)
  apart := ⟨nodup_nil, fun _ hp => absurd hp (by simp)⟩
  parked p := iff_of_false (h.unparked p) (by simp)
  throttled _ hNil := absurd rfl hNil

theorem exec (h : ParkInv k lists []) {op : ParkOp} (hOn : op.Enabled k) (hCareful : op.Careful k) :
    ∃ lists', ParkInv (op.exec k) lists' [] := by
  cases op with
  | park p => exact h.cgPark hCareful hOn
  | enqueue p => exact h.enqueueFresh hCareful hOn
  | wake p => exact h.schedWake hCareful
  | signal p sig => exact h.procSignal hCareful sig
  | refresh => exact h.cgTickRefresh
  | timer =>
    have hTable : SameTable k { k with ticks := k.ticks + 1 } := fun _ => ⟨rfl, Iff.rfl⟩
    exact ⟨lists, { h with linked := fun c => (h.linked c).congr hTable fun _ _ => rfl }⟩
  | charge p used => exact ⟨lists, h.cgChargeRuntime used hCareful⟩
  | setMax c quotaTicks periodTicks => exact ⟨lists, h.cgCpuSetMax quotaTicks hCareful⟩
  | detach p => exact ⟨lists, h.cgDetach hCareful hOn⟩

end ParkInv

/-- In every run whose steps are careful no parked task is lost. -/
theorem parking_loses_none
    (h : Reaches ParkStart (fun k op => ParkOp.Enabled k op ∧ ParkOp.Careful k op) ParkOp.exec k) :
    NoneLost k := by
  obtain ⟨lists, hInv⟩ : ∃ lists, ParkInv k lists [] :=
    h.invariant (I := fun k => ∃ lists, ParkInv k lists [])
      (fun _ hStart => ⟨_, ParkInv.start hStart⟩) fun _ _ ⟨_, hInv⟩ hOp => hInv.exec hOp.1 hOp.2
  exact hInv.noneLost

def limitedPair : Kernel where
  procs i := if i < 2 then { pid := i + 1, tgid := i + 1, state := .ready, cg := some 1 } else {}
  gNextPid := 3
  rqs _ := {}
  cgs c :=
    if c = 0 then { live := true }
    else if c = 1 then { live := true, parent := some 0, quotaTicks := 1, periodTicks := 10 }
    else {}
  current _ := none
  cpuAllowed _ := 0
  ticks := 0

theorem parkStart_limitedPair : ParkStart limitedPair := by
  have hIn : ∀ i < 2, limitedPair.procs i =
      { pid := i + 1, tgid := i + 1, state := .ready, cg := some 1 } := fun i hi => if_pos hi
  have hOut : ∀ i, ¬i < 2 → limitedPair.procs i = {} := fun i hi => if_neg hi
  have hUsed : ∀ i, (limitedPair.procs i).state ≠ .unused → i < 2 := fun i hi => by
    by_contra hNot
    exact hi (by rw [hOut i hNot])
  have hPid : ∀ i < 2, (limitedPair.procs i).pid = i + 1 := fun i hi => by
    rw [hIn i hi]
  have hState : ∀ i, (limitedPair.procs i).state ≠ .blocked := fun i => by
    by_cases hi : i < 2
    · rw [hIn i hi]
      exact ProcState.noConfusion
    · rw [hOut i hi]
      exact ProcState.noConfusion
  have hLive : ∀ c, (limitedPair.cgs c).live → c = 0 ∨ c = 1 := fun c hc => by
    by_contra hNot
    rw [not_or] at hNot
    simp [limitedPair, hNot.1, hNot.2] at hc
  refine ⟨fun p hp => ?_, fun i j hi hj hEq => ?_, fun p hp => ?_, fun p c hc => ?_,
    fun c c' hc hc' => ?_, fun c hc => ?_, fun c hc => ?_, fun p hp => hState p hp.1, fun c => ?_⟩
  · have hNot : ¬ p < 2 := by
      have hMax : maxProcs = 64 := rfl
      omega
    rw [hOut p hNot]
  · rw [hPid i (hUsed i hi), hPid j (hUsed j hj)] at hEq
    omega
  · rw [hPid p (hUsed p hp)]
    omega
  · have hOne : c = 1 := by
      by_cases hp : p < 2
      · rw [hIn p hp] at hc
        exact (Option.some.inj hc).symm
      · rw [hOut p hp] at hc
        cases hc
    rw [hOne]
    decide
  · rcases hLive c hc with hEq | hEq
    · rw [hEq] at hc'
      simp [limitedPair] at hc'
    · rw [hEq] at hc'
      have hZero : c' = 0 := by simpa [limitedPair, eq_comm] using hc'
      rw [hZero]
      decide
  · rcases hLive c hc with hEq | hEq <;> rw [hEq] <;> decide
  · by_cases h0 : c = 0
    · simp [limitedPair, h0] at hc
    · by_cases h1 : c = 1 <;> simp [limitedPair, h0, h1] at hc
  · by_cases h0 : c = 0
    · simp [limitedPair, h0]
    · by_cases h1 : c = 1 <;> simp [limitedPair, h0, h1]

/-- The quota runs out and both tasks are parked. -/
theorem parking_loses_none_pair :
    NoneLost ([.charge 0 2, .park 0, .park 1].foldl ParkOp.exec limitedPair) :=
  parking_loses_none ((Reaches.start parkStart_limitedPair).foldl _ (by decide +kernel))

/-- A signal for a parked task parks it again: the task at the head of the list is its own
successor, the list has no end, and the other task is not in it any more. -/
theorem signal_breaks_park_list : ∃ k, Reaches ParkStart ParkOp.Enabled ParkOp.exec k ∧
    ¬ NoneLost k := by
  obtain ⟨k, hReach, hHead, hFind, hNext⟩ : ∃ k, Reaches ParkStart ParkOp.Enabled ParkOp.exec k ∧
      (k.cgs 1).parkHead = 2 ∧ k.procByPid 2 = some 1 ∧ (k.procs 1).cgParkNext = 2 :=
    ⟨_, (Reaches.start parkStart_limitedPair).foldl
      [.charge 0 2, .park 0, .park 1, .signal 1 10] (by decide +kernel), by decide +kernel⟩
  have hEndless : ∀ l, ¬ ParkList k 2 l := fun l => by
    induction l with
    | nil => exact fun hNil => absurd (show (2 : ℤ) = -1 from hNil) (by decide)
    | cons p l ih =>
      rintro ⟨-, hp, hRest⟩
      have hEq : p = 1 := Option.some.inj (hp.symm.trans hFind)
      rw [hEq, hNext] at hRest
      exact ih hRest
  refine ⟨k, hReach, fun hNone => ?_⟩
  obtain ⟨l, hl⟩ := hNone.finite 1
  rw [hHead] at hl
  exact hEndless l hl

end Gnos.Kernel
