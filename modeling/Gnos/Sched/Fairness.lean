import Gnos.Sched.Effects

/-! How the ticks of one processor are shared between tasks of equal weight that are always
runnable. -/

namespace Gnos.Kernel

open ProofKit Function List Kernel
open BitVec (lt_def ofInt toNat toNat_add)

variable {k k' : Kernel} {n h p q : ℕ} {v d : Word}

/-- Tasks `0` to `n - 1` are about to be made runnable, with the weight of nice 0 and no lag, on a
machine that has nothing else to run. -/
structure Lobby (n : ℕ) (k : Kernel) : Prop where
  current : ∀ cpu, k.current cpu = none
  rqs : ∀ q, (k.rqs q).root = .nil ∧ (k.rqs q).count = 0
  state : ∀ i < n, (k.procs i).state = .unused
  pids : ∀ i < n, ∀ j < n, (k.procs i).pid = (k.procs j).pid → i = j
  home : ∀ i < n, k.homeCpu i = 0
  cg : ∀ i < n, (k.procs i).cg = none
  weight : ∀ i < n, effWeight (k.procs i) = cgNice0
  vlag : ∀ i < n, (k.procs i).vlag = 0
  slice : ∀ i < n, (k.procs i).slice = eevdfSlice

def admitAll (k : Kernel) (n : ℕ) : Kernel := ((List.range n).foldl enqueueFresh k).schedule 0

/-- A timer interrupt `d` ticks after the last one; the ticks go to the task that was running. -/
def serve (s : Kernel × (ℕ → ℕ)) (d : Word) : Kernel × (ℕ → ℕ) :=
  ({ s.1 with ticks := s.1.ticks + d }.schedTick 0,
    match s.1.current 0 with
    | none => s.2
    | some p => Function.update s.2 p (s.2 p + d.toNat))

/-- The ticks that each task has received after the interrupts `ds`. -/
def served (n : ℕ) (k : Kernel) (ds : List Word) : ℕ → ℕ :=
  (ds.foldl serve (k.admitAll n, fun _ => 0)).2

def sliceTicks : ℕ := 5

/-- No two of `n` tasks are ever more than `b` slices apart. -/
def Fair (n b : ℕ) : Prop :=
  ∀ k, Lobby n k → ∀ ds, ∀ i < n, ∀ j < n, served n k ds i ≤ served n k ds j + b * sliceTicks

theorem elig_consider (vtime : Word) (a : Picked) (p : ℕ) :
    (a.consider k vtime p).elig = a.elig.or (if k.lagAt vtime p ≤ 0 then some p else none) := by
  unfold Picked.consider
  dsimp only
  split
  · cases hElig : a.elig with
    | none => simp
    | some x => simp [hElig]
  · split <;> simp

theorem elig_or_of_full {a : Picked} (hFull : a.full) (x : Option ℕ) : a.elig.or x = a.elig := by
  cases hElig : a.elig with
  | none => simp [Picked.full, hElig] at hFull
  | some y => rfl

theorem elig_trPick (vtime : Word) (t : Treap ℕ) (a : Picked) :
    (trPick k vtime t a).elig = a.elig.or (t.toList.find? fun p => k.lagAt vtime p ≤ 0) := by
  induction t generalizing a with
  | nil => simp [trPick]
  | node l p r ihl ihr =>
    rw [trPick, Treap.toList_node, find?_append, find?_cons]
    split
    next hFull => rw [elig_or_of_full hFull]
    next =>
      dsimp only
      split
      next hFull => rw [← Option.or_assoc, ← ihl, elig_or_of_full hFull]
      next =>
        rw [ihr, elig_consider, ihl, Option.or_assoc, Option.or_assoc]
        by_cases hLag : k.lagAt vtime p ≤ 0
        · simp [hLag]
        · simp [hLag]

theorem rqPickBest_of_elig
    (hp : (k.rqs q).root.toList.find? (fun p => k.lagAt (k.rqs q).vtime p ≤ 0) = some p) :
    k.rqPickBest q = (some p,
      (k.modify p fun x => { x with vlag := (k.rqs q).vtime - x.vruntime }).rqDequeue q p) := by
  have hElig : (trPick k (k.rqs q).vtime (k.rqs q).root {}).elig = some p := by
    rw [elig_trPick, hp]
    rfl
  unfold rqPickBest
  simp [hElig]

theorem bumpMin_keeps (k : Kernel) (q : ℕ) :
    ((k.bumpMin q).rqs q).vtime = (k.rqs q).vtime ∧
    ((k.bumpMin q).rqs q).root = (k.rqs q).root := by
  unfold bumpMin
  split
  · split
    · rw [rqs_setRq_self]
      exact ⟨rfl, rfl⟩
    · exact ⟨rfl, rfl⟩
  · exact ⟨rfl, rfl⟩

theorem minVtime_bumpMin {m : Word} (hFloor : (k.rqs q).minVtime = m)
    (hLeft : ∀ x, ((k.bumpMin q).rqs q).root.leftmost = some x →
      ((k.bumpMin q).procs x).vruntime = m) : ((k.bumpMin q).rqs q).minVtime = m := by
  subst hFloor
  rw [(bumpMin_keeps k q).2, procs_bumpMin] at hLeft
  unfold bumpMin
  split
  next x hx =>
    rw [hLeft x hx, BitVec.sub_self, if_neg (by decide)]
  next => rfl

theorem vtime_rqEnqueue (k : Kernel) (q p : ℕ) :
    ((k.rqEnqueue q p).rqs q).vtime = (k.rqs q).vtime := by
  unfold rqEnqueue
  rw [(bumpMin_keeps _ q).1, rqs_setRq_self, trInsert, rqs_setRq_self, rqs_modify]

theorem vtime_rqDequeue (k : Kernel) (q p : ℕ) :
    ((k.rqDequeue q p).rqs q).vtime = (k.rqs q).vtime := by
  unfold rqDequeue
  rw [(bumpMin_keeps _ q).1, rqs_setRq_self, trDelete, rqs_setRq_self]

theorem minVtime_rqEnqueue (hLeft : ∀ x, ((k.rqEnqueue q p).rqs q).root.leftmost = some x →
      ((k.rqEnqueue q p).procs x).vruntime = (k.rqs q).minVtime) :
    ((k.rqEnqueue q p).rqs q).minVtime = (k.rqs q).minVtime := by
  refine minVtime_bumpMin ?_ hLeft
  rw [rqs_setRq_self, trInsert, rqs_setRq_self, rqs_modify]

theorem minVtime_rqDequeue (hLeft : ∀ x, ((k.rqDequeue q p).rqs q).root.leftmost = some x →
      ((k.rqDequeue q p).procs x).vruntime = (k.rqs q).minVtime) :
    ((k.rqDequeue q p).rqs q).minVtime = (k.rqs q).minVtime := by
  refine minVtime_bumpMin ?_ hLeft
  rw [rqs_setRq_self, trDelete, rqs_setRq_self]

theorem place_at {rq : Rq} {x : Proc} {u : Word} (hu : rq.vtime - x.vlag = u)
    (hFloor : 0 ≤ (u - rq.minVtime).toInt) (hSlice : x.slice = eevdfSlice) :
    place rq x = { x with vruntime := u, deadline := u + eevdfSlice } := by
  unfold place
  dsimp only
  rw [hu, if_neg (by omega), ← hSlice]

/-- `rq_pick_best` took task `p` from queue 0. -/
structure TakenOut (home : ℕ → Option ℕ) (p : ℕ) (k k' : Kernel) : Prop where
  self : k'.procs p = { k.procs p with vlag := (k.rqs 0).vtime - (k.procs p).vruntime }
  other : ∀ j ≠ p, k'.procs j = k.procs j
  queues : Queues k' (Function.update home p none)
  vtime : (k'.rqs 0).vtime = (k.rqs 0).vtime
  floor : (∀ x, (k'.rqs 0).root.leftmost = some x → (k'.procs x).vruntime = (k.rqs 0).minVtime) →
    (k'.rqs 0).minVtime = (k.rqs 0).minVtime
  current : k'.current = k.current
  ticks : k'.ticks = k.ticks

theorem Queues.takenOut {home : ℕ → Option ℕ} (hQ : Queues k home) (hp : home p = some 0)
    (hk' : (k.modify p fun x => { x with vlag := (k.rqs 0).vtime - x.vruntime }).rqDequeue 0 p =
      k') : TakenOut home p k k' := by
  subst hk'
  refine ⟨?_, fun j hj => ?_, ?_, ?_, minVtime_rqDequeue, ?_, ?_⟩
  · rw [procs_rqDequeue, procs_modify_self]
  · rw [procs_rqDequeue, procs_modify_of_ne _ _ hj]
  · exact (hQ.modify _ (.inr ⟨rfl, rfl⟩)).rqDequeue hp
  · rw [vtime_rqDequeue, rqs_modify]
  · exact (touches_rqDequeue _ 0 p).current
  · exact (touches_rqDequeue _ 0 p).ticks

/-- The queue of the tasks other than `h`. -/
def waiters (n h j : ℕ) : Option ℕ := if j < n ∧ j ≠ h then some 0 else none

/-- What a task keeps while it runs and waits. -/
def Alike (x y : Proc) : Prop :=
  x.pid = y.pid ∧ x.slice = y.slice ∧ x.cg = y.cg ∧ effWeight x = effWeight y ∧ x.onCpu = y.onCpu

/-- The virtual time of the queue and of task `h` is `v`; the other tasks are where the clock
began. -/
structure Crowd (k : Kernel) (n h : ℕ) (v : Word) : Prop where
  lt : h < n
  pids : ∀ i < n, ∀ j < n, (k.procs i).pid = (k.procs j).pid → i = j
  slice : ∀ j < n, (k.procs j).slice = eevdfSlice
  vruntime : ∀ j < n, j ≠ h → (k.procs j).vruntime = 0
  deadline : ∀ j < n, j ≠ h → (k.procs j).deadline = eevdfSlice
  cg : (k.procs h).cg = none
  weight : effWeight (k.procs h) = cgNice0
  onCpu : (k.procs h).onCpu = 0
  hog : (k.procs h).vruntime = v
  vtime : (k.rqs 0).vtime = v

namespace Crowd

variable {home : ℕ → Option ℕ}

theorem clamp (hC : Crowd k n h v) : clampCpu (k.procs h).onCpu = 0 := by
  rw [hC.onCpu]
  decide

theorem leftmost (hC : Crowd k n h v) (hQ : Queues k home) (hHome : ∀ j, home j = some 0 → j < n)
    (hLate : home h = some 0 → eevdfSlice < (k.procs h).deadline ∧ ∃ j ≠ h, home j = some 0)
    {x : ℕ} (hx : (k.rqs 0).root.leftmost = some x) : (k.procs x).vruntime = 0 := by
  rw [Treap.leftmost_eq_head?] at hx
  obtain ⟨rest, hList⟩ : ∃ rest, (k.rqs 0).root.toList = x :: rest := by
    cases hCase : (k.rqs 0).root.toList with
    | nil => simp [hCase] at hx
    | cons y rest =>
      rw [hCase, head?_cons, Option.some.injEq] at hx
      exact ⟨rest, by rw [hx]⟩
  have hxHome : home x = some 0 := (hQ.mem 0 x).mp (by simp [hList])
  refine hC.vruntime x (hHome x hxHome) fun hEq => ?_
  rw [hEq] at hxHome hList
  obtain ⟨hDeadline, j, hj, hjHome⟩ := hLate hxHome
  have hjMem : j ∈ rest := by
    have hMem := (hQ.mem 0 j).mpr hjHome
    rw [hList] at hMem
    exact (mem_cons.mp hMem).resolve_left hj
  have hSorted := hQ.sorted 0
  unfold Treap.Sorted at hSorted
  rw [hList, pairwise_cons] at hSorted
  have hBefore := hSorted.1 j hjMem
  rw [keyBefore_iff, hC.deadline j (hHome j hjHome) hj] at hBefore
  have hLt := lt_def.mp hDeadline
  omega

/-- One task changes, and not in what it is. -/
theorem edit (hC : Crowd k n h v) {v' : Word} {i : ℕ} {x : Proc}
    (hOther : ∀ j ≠ i, k'.procs j = k.procs j) (hx : k'.procs i = x) (hAlike : Alike x (k.procs i))
    (hWaits : i ≠ h → x.vruntime = 0 ∧ x.deadline = eevdfSlice) (hHog : (k'.procs h).vruntime = v')
    (hTime : (k'.rqs 0).vtime = v') : Crowd k' n h v' := by
  have hAll : ∀ j, Alike (k'.procs j) (k.procs j) ∧
      (j < n → j ≠ h → (k'.procs j).vruntime = 0 ∧ (k'.procs j).deadline = eevdfSlice) :=
    fun j => by
    by_cases hj : j = i
    · rw [hj, hx]
      exact ⟨hAlike, fun _ => hWaits⟩
    · rw [hOther j hj]
      exact ⟨⟨rfl, rfl, rfl, rfl, rfl⟩,
        fun hjn hjh => ⟨hC.vruntime j hjn hjh, hC.deadline j hjn hjh⟩⟩
  obtain ⟨⟨-, -, hcg, hWeight, hOn⟩, -⟩ := hAll h
  refine ⟨hC.lt, fun i hi j hj hEq => ?_, fun j hj => (hAll j).1.2.1.trans (hC.slice j hj),
    fun j hj hne => ((hAll j).2 hj hne).1, fun j hj hne => ((hAll j).2 hj hne).2, hcg.trans hC.cg,
    hWeight.trans hC.weight, hOn.trans hC.onCpu, hHog, hTime⟩
  rw [(hAll i).1.1, (hAll j).1.1] at hEq
  exact hC.pids i hi j hj hEq

theorem editHog (hC : Crowd k n h v) {v' : Word} {x : Proc}
    (hOther : ∀ j ≠ h, k'.procs j = k.procs j)
    (hx : k'.procs h = x) (hAlike : Alike x (k.procs h)) (hHog : x.vruntime = v')
    (hTime : (k'.rqs 0).vtime = v') : Crowd k' n h v' :=
  hC.edit hOther hx hAlike (absurd rfl) (hx ▸ hHog) hTime

end Crowd

/-- Task `h` has the processor and the others wait. -/
structure Hogging (k : Kernel) (n h : ℕ) (v : Word) : Prop extends Crowd k n h v where
  queues : Queues k (waiters n h)
  floor : (k.rqs 0).minVtime = 0
  current : k.current 0 = some h
  state : (k.procs h).state = .running
  lastRunTick : (k.procs h).lastRunTick = k.ticks

theorem waiters_self (n h : ℕ) : waiters n h h = none := by simp [waiters]

theorem waiters_lt {j : ℕ} (hj : waiters n h j = some 0) : j < n ∧ j ≠ h := by
  unfold waiters at hj
  split at hj
  next hLt => exact hLt
  next => exact absurd hj (by simp)

theorem of_update_none {home : ℕ → Option ℕ} {f j : ℕ}
    (hj : update home f none j = some q) : home j = some q := by
  by_cases hEq : j = f
  · rw [hEq, update_self] at hj
    exact absurd hj (by simp)
  · rwa [update_of_ne hEq] at hj

theorem Crowd.first_waits (hC : Crowd k n h v) {home : ℕ → Option ℕ} (hQ : Queues k home)
    (hHome : ∀ j, home j = some 0 → waiters n h j = some 0) {x : ℕ}
    (hx : (k.rqs 0).root.leftmost = some x) : (k.procs x).vruntime = 0 :=
  hC.leftmost hQ (fun j hj => (waiters_lt (hHome j hj)).1)
    (fun hj => absurd rfl (waiters_lt (hHome h hj)).2) hx

theorem exists_other (hn : 2 ≤ n) (h : ℕ) : ∃ j < n, j ≠ h := by
  by_cases h0 : h = 0
  · exact ⟨1, by omega, by omega⟩
  · exact ⟨0, by omega, by omega⟩

theorem cgChargeRuntime_of_none (hcg : (k.procs p).cg = none) (used : Word) :
    k.cgChargeRuntime p used = (false, k) := by
  unfold cgChargeRuntime cgChain
  rw [hcg]
  split <;> rfl

theorem cgChainThrottled_of_none (hcg : (k.procs p).cg = none) : k.cgChainThrottled p = false := by
  simp [cgChainThrottled, cgChain, hcg]

theorem lt_slice_add (hv : 0 < v.toInt) : eevdfSlice < v + eevdfSlice := by
  have hBound := BitVec.toInt_eq_toNat_cond v
  rw [lt_def, toNat_add]
  have hSlice : eevdfSlice.toNat = 5120 := rfl
  split at hBound <;> omega

theorem overdue_of_lag {cur : ℕ} (hLag : 0 < (k.procs p).vlag.toInt) :
    k.overdue cur (some p) = false := by
  have hNot : ¬ (k.procs p).vlag.toInt ≤ 0 := by omega
  simp [overdue, hNot]

namespace Hogging

theorem switchFrom (hC : Crowd k n h v) (hQ : Queues k (update (waiters n h) h (some 0)))
    (hv : 0 < v.toInt) (hFloor : (k.rqs 0).minVtime = 0) (hCur : k.current 0 = some h)
    (hLast : (k.procs h).lastRunTick = k.ticks) : Hogging (k.switchFrom 0 (some h)) n h v := by
  have hElig : (k.rqs 0).root.toList.find? (fun p => k.lagAt (k.rqs 0).vtime p ≤ 0) = some h := by
    have hSelf : k.lagAt (k.rqs 0).vtime h ≤ 0 := by
      rw [lagAt, hC.vtime, hC.hog, BitVec.sub_self]
      decide
    have hMem : h ∈ (k.rqs 0).root.toList := (hQ.mem 0 h).mpr (update_self h _ _)
    cases hFind : (k.rqs 0).root.toList.find? fun p => k.lagAt (k.rqs 0).vtime p ≤ 0 with
    | none =>
      have hNone := find?_eq_none.mp hFind h hMem
      exact absurd (decide_eq_true hSelf) hNone
    | some x =>
      have hFound := find?_some hFind
      have hLag : k.lagAt (k.rqs 0).vtime x ≤ 0 := of_decide_eq_true hFound
      by_contra hne
      have hxh : x ≠ h := fun hEq => hne (by rw [hEq])
      have hHome := (hQ.mem 0 x).mp (mem_of_find?_eq_some hFind)
      rw [update_of_ne hxh] at hHome
      have hZero := hC.vruntime x (waiters_lt hHome).1 hxh
      rw [lagAt, hC.vtime, hZero, show v - 0 = v from BitVec.sub_zero v] at hLag
      omega
  have hEq : k.switchFrom 0 (some h) =
      (((k.modify h fun x => { x with vlag := (k.rqs 0).vtime - x.vruntime }).rqDequeue 0
        h).modify h fun x => { x with rqCpu := (0 : ℕ) }).modify h (.setState .running) := by
    unfold Kernel.switchFrom pickNext
    rw [show 0 % nrRq = 0 from rfl, rqPickBest_of_elig hElig]
    dsimp only
    rw [if_pos rfl]
  generalize hk1 : (k.modify h fun x => { x with vlag := (k.rqs 0).vtime - x.vruntime }).rqDequeue
    0 h = k1 at hEq
  have hOut := hQ.takenOut (update_self h _ _) hk1
  have hQueues : Queues k1 (waiters n h) := by
    have hLeft := hOut.queues
    rwa [update_idem, ← waiters_self n h, update_eq_self] at hLeft
  have hC1 : Crowd k1 n h v :=
    hC.editHog hOut.other hOut.self ⟨rfl, rfl, rfl, rfl, rfl⟩ hC.hog (hOut.vtime.trans hC.vtime)
  have hFloor1 : (k1.rqs 0).minVtime = 0 := by
    refine (hOut.floor fun x hx => ?_).trans hFloor
    exact (hC1.first_waits hQueues (fun _ => id) hx).trans hFloor.symm
  have hLast1 : (k1.procs h).lastRunTick = k1.ticks := by
    rw [hOut.self, hOut.ticks]
    exact hLast
  rw [hEq]
  have hRun : ((k1.modify h fun x => { x with rqCpu := (0 : ℕ) }).modify h
      (.setState .running)).procs h = { k1.procs h with rqCpu := (0 : ℕ), state := .running } := by
    rw [procs_modify_self, procs_modify_self]
    rfl
  have hKept : ∀ j ≠ h, ((k1.modify h fun x => { x with rqCpu := (0 : ℕ) }).modify h
      (.setState .running)).procs j = k1.procs j := fun j hj => by
    rw [procs_modify_of_ne _ _ hj, procs_modify_of_ne _ _ hj]
  refine ⟨hC1.editHog hKept hRun ⟨rfl, rfl, rfl, rfl, rfl⟩ hC1.hog hC1.vtime, ?_, hFloor1, ?_, ?_,
    ?_⟩
  · exact (hQueues.modify _ (.inl (waiters_self n h))).modify _ (.inl (waiters_self n h))
  · rw [current_modify, current_modify, hOut.current, hCur]
  · rw [hRun]
  · rw [hRun]
    exact hLast1

section

variable (hH : Hogging k n h v)
include hH

theorem account (hd : virtDelta d cgNice0 = d * virtUnit)
    (hk' : k' = { k with ticks := k.ticks + d }) :
    Hogging (k'.account h) n h (v + d * virtUnit) ∧ ((k'.account h).procs h).vlag = 0 := by
  have hUsed : k.ticks + d - (k.procs h).lastRunTick = d := by
    rw [hH.lastRunTick, BitVec.add_comm, BitVec.add_sub_cancel]
  have hProc : (k'.account h).procs h =
      { k.procs h with vruntime := v + d * virtUnit, vlag := 0, lastRunTick := k.ticks + d } := by
    rw [hk', Kernel.account]
    dsimp only
    rw [procs_modify_self, procs_setRq, hUsed, hH.clamp, rqs_setRq_self, hH.weight, hd, hH.hog,
      hH.vtime, BitVec.sub_self]
    rfl
  have hRq : (k'.account h).rqs 0 = { k.rqs 0 with vtime := v + d * virtUnit } := by
    rw [hk', Kernel.account, rqs_modify, hH.clamp, rqs_setRq_self, hUsed, hH.vtime]
  have hOther : ∀ j ≠ h, (k'.account h).procs j = k.procs j := fun j hj => by
    rw [hk', Kernel.account, procs_modify_of_ne _ _ hj, procs_setRq]
  have hQueues : Queues (k'.account h) (waiters n h) := by
    rw [hk', Kernel.account]
    have hTicks : Queues { k with ticks := k.ticks + d } (waiters n h) :=
      hH.queues.congr (fun _ => rfl) (fun _ => rfl) fun _ _ => ⟨rfl, rfl⟩
    refine Queues.modify ?_ _ (.inl (waiters_self n h))
    refine Queues.setRq hTicks _ ?_ ?_
    · exact fun _ => rfl
    · exact fun _ => rfl
  refine ⟨⟨?_, hQueues, ?_, hk' ▸ hH.current, ?_, ?_⟩, ?_⟩
  · exact hH.editHog hOther hProc ⟨rfl, rfl, rfl, rfl, rfl⟩ rfl (by rw [hRq])
  · rw [hRq]
    exact hH.floor
  · rw [hProc]
    exact hH.state
  · rw [hProc, hk']
    rfl
  · rw [hProc]

theorem putBack {f : ℕ} (hf : waiters n h f = some 0) {k1 : Kernel}
    (hTaken : TakenOut (waiters n h) f k k1) :
    Hogging (k1.rqEnqueue 0 f) n h v ∧ ((k1.rqEnqueue 0 f).procs f).vlag = v := by
  obtain ⟨hfn, hfh⟩ := waiters_lt hf
  -- out of the queue
  have hOut : k1.procs f = { k.procs f with vlag := v } := by
    rw [hTaken.self, hH.vtime, hH.vruntime f hfn hfh, show v - 0 = v from BitVec.sub_zero v]
  have hOther := hTaken.other
  have hTime : (k1.rqs 0).vtime = v := hTaken.vtime.trans hH.vtime
  have hHog := hOther h (Ne.symm hfh)
  have hC1 : Crowd k1 n h v :=
    hH.edit hOther hOut ⟨rfl, rfl, rfl, rfl, rfl⟩
      (fun _ => ⟨hH.vruntime f hfn hfh, hH.deadline f hfn hfh⟩) (by rw [hHog, hH.hog]) hTime
  have hFloor1 : (k1.rqs 0).minVtime = 0 := by
    refine (hTaken.floor fun x hx => ?_).trans hH.floor
    exact (hC1.first_waits hTaken.queues (fun _ => of_update_none) hx).trans hH.floor.symm
  -- and back in it, at the same place
  have hPlace : place (k1.rqs 0) (k1.procs f) =
      { k1.procs f with vruntime := 0#64, deadline := eevdfSlice } := by
    have hZero : (k1.rqs 0).vtime - (k1.procs f).vlag = 0#64 := by
      rw [hTime, hOut]
      exact BitVec.sub_self v
    rw [place_at hZero (by rw [hFloor1]; decide) (hC1.slice f hfn), BitVec.zero_add]
  have hBack : (k1.rqEnqueue 0 f).procs f =
      { k1.procs f with vruntime := 0#64, deadline := eevdfSlice } := by
    rw [procs_rqEnqueue, procs_modify_self, hPlace]
  have hOther' : ∀ j ≠ f, (k1.rqEnqueue 0 f).procs j = k1.procs j := fun j hj => by
    rw [procs_rqEnqueue, procs_modify_of_ne _ _ hj]
  have hHog' : (k1.rqEnqueue 0 f).procs h = k.procs h := by rw [hOther' h (Ne.symm hfh), hHog]
  have hQueues : Queues (k1.rqEnqueue 0 f) (waiters n h) := by
    have hPut := hTaken.queues.rqEnqueue (q := 0) (update_self f _ _) fun a ha => ?_
    · rwa [update_idem, ← hf, update_eq_self] at hPut
    · have haf : a ≠ f := fun hEq => by
        rw [hEq, update_self] at ha
        exact absurd ha (by simp)
      intro hPid
      exact haf (hC1.pids a (waiters_lt (of_update_none ha)).1 f hfn hPid)
  have hC : Crowd (k1.rqEnqueue 0 f) n h v :=
    hC1.edit hOther' hBack ⟨rfl, rfl, rfl, rfl, rfl⟩ (fun _ => ⟨rfl, rfl⟩) (by rw [hHog', hH.hog])
      (by rw [vtime_rqEnqueue, hTime])
  refine ⟨⟨hC, hQueues, ?_, ?_, ?_, ?_⟩, ?_⟩
  · refine (minVtime_rqEnqueue fun x hx => ?_).trans hFloor1
    exact (hC.first_waits hQueues (fun _ => id) hx).trans hFloor1.symm
  · rw [(touches_rqEnqueue k1 0 f).current, hTaken.current, hH.current]
  · rw [hHog', hH.state]
  · rw [hHog', (touches_rqEnqueue k1 0 f).ticks, hTaken.ticks, hH.lastRunTick]
  · rw [hBack, hOut]

theorem repick (hv : 0 < v.toInt) : Hogging (k.repick 0).2 n h v ∧
      (k.repick 0).2.overdue h (k.repick 0).1 = false := by
  unfold Kernel.repick
  rcases rqPickBest_cases k 0 with hNone | ⟨f, hMem, hPick⟩
  · rw [hNone]
    exact ⟨hH, rfl⟩
  · rw [hPick]
    have hf := (hH.queues.mem 0 f).mp hMem
    obtain ⟨hBack, hLag⟩ := hH.putBack hf (hH.queues.takenOut hf rfl)
    exact ⟨hBack, overdue_of_lag (by rw [hLag]; exact hv)⟩

theorem putPrev (hv : 0 < v.toInt) (hn : 2 ≤ n) : Crowd (k.putPrev h) n h v ∧
      Queues (k.putPrev h) (update (waiters n h) h (some 0)) ∧
      ((k.putPrev h).rqs 0).minVtime = 0 ∧ (k.putPrev h).current = k.current ∧
      ((k.putPrev h).procs h).lastRunTick = (k.putPrev h).ticks := by
  obtain ⟨hAcc, hLag⟩ : Hogging (k.account h) n h v ∧ ((k.account h).procs h).vlag = 0 := by
    have hStill := hH.account (by decide) (show k = { k with ticks := k.ticks + 0#64 } by simp)
    simpa using hStill
  have hEq : k.putPrev h = ((k.account h).modify h readyAgain).rqEnqueue 0 h := by
    have hcg : (((k.account h).modify h readyAgain).procs h).cg = none := by
      rw [procs_modify_self]
      exact hAcc.cg
    have hOn : (((k.account h).modify h readyAgain).procs h).onCpu =
        ((k.account h).procs h).onCpu := by
      rw [procs_modify_self]
      rfl
    unfold Kernel.putPrev
    rw [if_pos hAcc.state, putRunning, cgChargeRuntime_of_none hcg]
    dsimp only
    rw [cgChainThrottled_of_none hcg, hOn, hAcc.clamp]
    rfl
  rw [hEq]
  generalize hk1 : (k.account h).modify h readyAgain = k1
  have hProc : k1.procs h = readyAgain ((k.account h).procs h) := by
    rw [← hk1, procs_modify_self]
  have hOther : ∀ j ≠ h, k1.procs j = (k.account h).procs j := fun j hj => by
    rw [← hk1, procs_modify_of_ne _ _ hj]
  have hRq : k1.rqs = (k.account h).rqs := by rw [← hk1, rqs_modify]
  have hPlace : place (k1.rqs 0) (k1.procs h) =
      { k1.procs h with vruntime := v, deadline := v + eevdfSlice } := by
    have hStart : (k1.rqs 0).vtime - (k1.procs h).vlag = v := by
      rw [hRq, hAcc.vtime, hProc]
      exact (congrArg (v - ·) hLag).trans (BitVec.sub_zero v)
    have hSlice : (k1.procs h).slice = eevdfSlice := by
      rw [hProc]
      exact hAcc.slice h hAcc.lt
    have hFloor : 0 ≤ (v - (k1.rqs 0).minVtime).toInt := by
      rw [hRq, hAcc.floor, show v - 0 = v from BitVec.sub_zero v]
      omega
    exact place_at hStart hFloor hSlice
  have hBack : (k1.rqEnqueue 0 h).procs h =
      { k1.procs h with vruntime := v, deadline := v + eevdfSlice } := by
    rw [procs_rqEnqueue, procs_modify_self, hPlace]
  have hOther' : ∀ j ≠ h, (k1.rqEnqueue 0 h).procs j = (k.account h).procs j := fun j hj => by
    rw [procs_rqEnqueue, procs_modify_of_ne _ _ hj, hOther j hj]
  have hC : Crowd (k1.rqEnqueue 0 h) n h v := by
    rw [hProc] at hBack
    refine hAcc.editHog hOther' hBack ⟨rfl, rfl, rfl, rfl, rfl⟩ rfl ?_
    rw [vtime_rqEnqueue, hRq, hAcc.vtime]
  have hQueues : Queues (k1.rqEnqueue 0 h) (update (waiters n h) h (some 0)) := by
    have hOut : Queues k1 (waiters n h) := hk1 ▸ hAcc.queues.modify _ (.inl (waiters_self n h))
    refine hOut.rqEnqueue (waiters_self n h) fun a ha hPid => ?_
    obtain ⟨han, hah⟩ := waiters_lt ha
    rw [hProc, hOther a hah] at hPid
    exact hah (hAcc.pids a han h hAcc.lt hPid)
  have hTouch : k1.current = k.current ∧ k1.ticks = (k.account h).ticks := by
    rw [← hk1]
    exact ⟨rfl, rfl⟩
  refine ⟨hC, hQueues, ?_, ?_, ?_⟩
  · have hFloor : (k1.rqs 0).minVtime = 0 := by rw [hRq, hAcc.floor]
    refine (minVtime_rqEnqueue fun x hx => ?_).trans hFloor
    refine (hC.leftmost hQueues (fun j hj => ?_) (fun _ => ⟨?_, ?_⟩) hx).trans hFloor.symm
    · by_cases hjh : j = h
      · rw [hjh]
        exact hAcc.lt
      · rw [update_of_ne hjh] at hj
        exact (waiters_lt hj).1
    · rw [hBack]
      exact lt_slice_add hv
    · obtain ⟨j, hjn, hjh⟩ := exists_other hn h
      refine ⟨j, hjh, ?_⟩
      rw [update_of_ne hjh]
      exact if_pos ⟨hjn, hjh⟩
  · rw [(touches_rqEnqueue k1 0 h).current, hTouch.1]
  · rw [hBack, (touches_rqEnqueue k1 0 h).ticks, hTouch.2, hProc]
    exact hAcc.lastRunTick

theorem schedule (hv : 0 < v.toInt) (hn : 2 ≤ n) : Hogging (k.schedule 0) n h v := by
  obtain ⟨hC, hQ, hFloor, hCur, hLast⟩ := hH.putPrev hv hn
  unfold Kernel.schedule
  rw [hH.current]
  exact switchFrom hC hQ hv hFloor (by rw [hCur, hH.current]) hLast

theorem schedTick (hn : 2 ≤ n) (hd : virtDelta d cgNice0 = d * virtUnit)
    (hv : 0 < (v + d * virtUnit).toInt) :
    Hogging ({ k with ticks := k.ticks + d }.schedTick 0) n h (v + d * virtUnit) := by
  obtain ⟨hAcc, -⟩ := hH.account hd rfl
  have hCur : ({ k with ticks := k.ticks + d } : Kernel).current 0 = some h := hH.current
  generalize ({ k with ticks := k.ticks + d } : Kernel) = k' at hAcc hCur
  obtain ⟨hRep, hOwed⟩ := hAcc.repick hv
  unfold Kernel.schedTick
  rw [hCur]
  dsimp only
  rw [cgChargeRuntime_of_none hAcc.cg, hAcc.clamp, hOwed]
  split
  · exact hRep.schedule hv hn
  · exact hRep

end

end Hogging

/-- The interrupts come while the clock, `v` ahead of where the others wait, is less than half a
turn ahead of them, and each advances the clock and the virtual time of a task by the same
amount. -/
def Ahead : Word → List Word → Prop
  | _, [] => True
  | v, d :: ds =>
    virtDelta d cgNice0 = d * virtUnit ∧ 0 < (v + d * virtUnit).toInt ∧ Ahead (v + d * virtUnit) ds

theorem Hogging.serve (hH : Hogging k n h v) (hn : 2 ≤ n) (ds : List Word) (hds : Ahead v ds)
    (got : ℕ → ℕ) : (ds.foldl serve (k, got)).2 = update got h (got h + (ds.map toNat).sum) := by
  induction ds generalizing k v got with
  | nil => simp
  | cons d ds ih =>
    obtain ⟨hd, hv, hds⟩ := hds
    have hStep : serve (k, got) d = ({ k with ticks := k.ticks + d }.schedTick 0,
          update got h (got h + d.toNat)) := by
      rw [serve, hH.current]
    rw [foldl_cons, hStep, ih (hH.schedTick hn hd hv) hds]
    simp [Nat.add_assoc]

def newcomers : Kernel where
  procs i := { pid := i + 1, tgid := i + 1 }
  gNextPid := 1
  rqs _ := {}
  cgs _ := {}
  current _ := none
  cpuAllowed _ := 0
  ticks := 0

theorem homeCpu_of_new (hRq : (k.procs p).rqCpu = -1) (hMask : k.cpuAllowed p = 0) :
    k.homeCpu p = 0 := by
  rw [homeCpu, if_pos (.inl (by rw [hRq]; decide)), pickCpu, cpuMaskOf, hMask, if_pos rfl]
  rfl

theorem lobby_newcomers (n : ℕ) : Lobby n newcomers where
  current _ := rfl
  rqs _ := ⟨rfl, rfl⟩
  state _ _ := rfl
  pids i _ j _ hEq := by
    have hPid : (i : ℤ) + 1 = j + 1 := hEq
    omega
  home _ _ := homeCpu_of_new rfl rfl
  cg _ _ := rfl
  weight _ _ := rfl
  vlag _ _ := rfl
  slice _ _ := rfl

/-- A new task after `enqueue_fresh`. -/
def entered (i : ℕ) : Proc :=
  { newcomers.procs i with
    state := .ready
    rqCpu := 0
    tprio := (ofInt 32 (i + 1) * 0x9E3779B9) ^^^ 0x85EBCA6B
    deadline := eevdfSlice }

structure Entering (k : Kernel) (m : ℕ) : Prop where
  queues : Queues k fun j => if j < m then some 0 else none
  done : ∀ j < m, k.procs j = entered j
  rest : ∀ j, m ≤ j → k.procs j = newcomers.procs j
  vtime : (k.rqs 0).vtime = 0
  floor : (k.rqs 0).minVtime = 0
  current : k.current = newcomers.current
  cpuAllowed : k.cpuAllowed = newcomers.cpuAllowed

theorem Entering.enqueueFresh {m : ℕ} (hE : Entering k m) :
    Entering (k.enqueueFresh m) (m + 1) := by
  have hNew : k.procs m = newcomers.procs m := hE.rest m le_rfl
  have hcg : (k.procs m).cg = none := by rw [hNew]; rfl
  have hFresh : k.enqueueFresh m = k.enqueueReady m := by
    rw [Kernel.enqueueFresh, cgChainThrottled_of_none hcg, if_neg (by decide)]
  have hHome : k.homeCpu m = 0 := homeCpu_of_new (by rw [hNew]; rfl) (by rw [hE.cpuAllowed]; rfl)
  have hSettle : (k.settle m).procs m = { entered m with state := .unused, deadline := 0 } := by
    rw [settle, procs_modify_self, hHome, hNew]
    rfl
  have hTime : ((k.settle m).rqs 0).vtime = 0 := hE.vtime
  have hMin : ((k.settle m).rqs 0).minVtime = 0 := hE.floor
  have hSelf : (k.enqueueFresh m).procs m = entered m := by
    have hPlace := place_at (x := (k.settle m).procs m) (u := 0#64)
      (by rw [hTime, hSettle]; exact BitVec.sub_self 0#64) (by rw [hMin]; decide)
      (by rw [hSettle]; rfl)
    have hRq : ((k.settle m).procs m).rqCpu.toNat = 0 := by rw [hSettle]; rfl
    rw [hFresh, procs_enqueueReady_self, hRq, hPlace, hSettle]
    rfl
  have hQueue : k.enqueueReady m = ((k.settle m).rqEnqueue 0 m).modify m (.setState .ready) := by
    have hRq : ((k.settle m).procs m).rqCpu.toNat = 0 := by rw [hSettle]; rfl
    rw [enqueueReady, hRq]
  have hR : Requeued (fun j => if j < m then some 0 else none) m k (k.enqueueFresh m) := by
    refine Queues.enqueueFresh hE.queues (if_neg (lt_irrefl m)) fun a ha hPid => ?_
    have ham : a < m := by
      by_contra hNot
      exact ha (if_neg hNot)
    rw [hE.done a ham, hNew] at hPid
    have hEq : (a : ℤ) + 1 = m + 1 := hPid
    omega
  have hDone : ∀ j < m + 1, (k.enqueueFresh m).procs j = entered j := fun j hj => by
    by_cases hjm : j = m
    · rw [hjm, hSelf]
    · rw [hR.touches.other j hjm, hE.done j (by omega)]
  have hQueues : Queues (k.enqueueFresh m) fun j => if j < m + 1 then some 0 else none := by
    have hHomeOf : (k.enqueueFresh m).homeOf m = some 0 := by
      rw [homeOf, hSelf]
      rfl
    have hMore : update (fun j => if j < m then some 0 else none) m
        ((k.enqueueFresh m).homeOf m) = fun j => if j < m + 1 then some 0 else none := by
      funext j
      by_cases hjm : j = m
      · rw [hjm, update_self, hHomeOf, if_pos (Nat.lt_succ_self m)]
      · rw [update_of_ne hjm]
        exact if_congr (by omega) rfl rfl
    rw [← hMore]
    exact hR.queues
  refine ⟨hQueues, hDone, fun j hj => ?_, ?_, ?_, ?_, ?_⟩
  · rw [hR.touches.other j (by omega), hE.rest j (by omega)]
  · rw [hFresh, hQueue, rqs_modify, vtime_rqEnqueue, hTime]
  · rw [hFresh, hQueue] at hQueues hDone ⊢
    refine (minVtime_rqEnqueue fun x hx => ?_).trans hMin
    rw [Treap.leftmost_eq_head?] at hx
    have hxm : x < m + 1 := by
      by_contra hNot
      have hHome := (hQueues.mem 0 x).mp (mem_of_mem_head? hx)
      exact absurd hHome (by simp [hNot])
    have hRun : (((k.settle m).rqEnqueue 0 m).procs x).vruntime = (entered x).vruntime := by
      rw [← hDone x hxm]
      by_cases hx : x = m
      · rw [hx, procs_modify_self]
        rfl
      · rw [procs_modify_of_ne _ _ hx]
    rw [hRun, hMin]
    rfl
  · rw [hR.touches.current, hE.current]
  · rw [hR.touches.cpuAllowed, hE.cpuAllowed]

theorem entering (m : ℕ) : Entering ((range m).foldl enqueueFresh newcomers) m := by
  induction m with
  | zero =>
    refine ⟨⟨fun q p => by simp [newcomers], fun q => Pairwise.nil, fun q => rfl⟩, ?_, ?_, rfl, rfl,
      rfl, rfl⟩
    · exact fun j hj => absurd hj (Nat.not_lt_zero j)
    · exact fun j _ => rfl
  | succ m ih =>
    rw [range_succ, foldl_append]
    exact ih.enqueueFresh

theorem Entering.schedule (hE : Entering k n) (hn : 2 ≤ n) : ∃ h, Hogging (k.schedule 0) n h 0 := by
  have hCur : k.current 0 = none := by rw [hE.current]; rfl
  -- none has any lag: the first of the queue is taken
  obtain ⟨h, hElig⟩ : ∃ h, (k.rqs 0).root.toList.find?
      (fun p => k.lagAt (k.rqs 0).vtime p ≤ 0) = some h := by
    have hMem : 0 ∈ (k.rqs 0).root.toList := (hE.queues.mem 0 0).mpr (if_pos (by omega))
    have hLag : k.lagAt (k.rqs 0).vtime 0 ≤ 0 := by
      rw [lagAt, hE.vtime, hE.done 0 (by omega)]
      decide
    exact Option.isSome_iff_exists.mp (find?_isSome.mpr ⟨0, hMem, decide_eq_true hLag⟩)
  have hhn : h < n := by
    by_contra hNot
    have hHome := (hE.queues.mem 0 h).mp (mem_of_find?_eq_some hElig)
    exact absurd hHome (by simp [hNot])
  generalize hk1 :
    (k.modify h fun x => { x with vlag := (k.rqs 0).vtime - x.vruntime }).rqDequeue 0 h = k1
  have hEq : k.schedule 0 =
      ((k1.modify h fun x => { x with rqCpu := (0 : ℕ) }).modify h
        (.setState .running)).startNext 0 h := by
    unfold Kernel.schedule switchFrom pickNext
    rw [hCur, show 0 % nrRq = 0 from rfl, rqPickBest_of_elig hElig, hk1]
    rfl
  have hOut := hE.queues.takenOut (if_pos hhn) hk1
  have hOther : ∀ j < n, j ≠ h → k1.procs j = entered j := fun j hjn hj => by
    rw [hOut.other j hj, hE.done j hjn]
  have hQueues : Queues k1 (waiters n h) := by
    have hRest : update (fun j => if j < n then some 0 else none) h none = waiters n h := by
      funext j
      by_cases hj : j = h
      · rw [hj, update_self, waiters_self]
      · rw [update_of_ne hj, waiters]
        exact if_congr (by simp [hj]) rfl rfl
    exact hRest ▸ hOut.queues
  have hFloor : (k1.rqs 0).minVtime = 0 := by
    refine (hOut.floor fun x hx => ?_).trans hE.floor
    rw [Treap.leftmost_eq_head?] at hx
    obtain ⟨hxn, hxh⟩ := waiters_lt ((hQueues.mem 0 x).mp (mem_of_mem_head? hx))
    rw [hOther x hxn hxh, hE.floor]
    rfl
  have hTime : (k1.rqs 0).vtime = 0 := hOut.vtime.trans hE.vtime
  have hHog : (k.schedule 0).procs h = startOn 0 k1.ticks
      { entered h with vlag := 0 - (entered h).vruntime, rqCpu := (0 : ℕ), state := .running } := by
    rw [hEq, startNext, procs_setCurrent, procs_modify_self, procs_modify_self, procs_modify_self,
      hOut.self, hE.vtime, hE.done h hhn]
    rfl
  have hWait : ∀ j < n, j ≠ h → (k.schedule 0).procs j = entered j := fun j hjn hj => by
    rw [hEq, startNext, procs_setCurrent, procs_modify_of_ne _ _ hj, procs_modify_of_ne _ _ hj,
      procs_modify_of_ne _ _ hj, hOther j hjn hj]
  have hRqs : (k.schedule 0).rqs = k1.rqs := by rw [hEq]; rfl
  have hAll : ∀ j < n, ((k.schedule 0).procs j).pid = (entered j).pid ∧
      ((k.schedule 0).procs j).slice = (entered j).slice := fun j hjn => by
    by_cases hj : j = h
    · rw [hj, hHog]
      exact ⟨rfl, rfl⟩
    · rw [hWait j hjn hj]
      exact ⟨rfl, rfl⟩
  refine ⟨h, {
    lt := hhn
    pids := fun i hi j hj hSame => ?_
    slice := fun j hjn => (hAll j hjn).2
    vruntime := fun j hjn hj => by rw [hWait j hjn hj]; rfl
    deadline := fun j hjn hj => by rw [hWait j hjn hj]; rfl
    cg := by rw [hHog]; rfl
    weight := by rw [hHog]; rfl
    onCpu := by rw [hHog]; rfl
    hog := by rw [hHog]; rfl
    vtime := by rw [hRqs, hTime]
    queues := ?_
    floor := by rw [hRqs, hFloor]
    current := by rw [hEq, startNext, current_setCurrent_self]
    state := by rw [hHog]; rfl
    lastRunTick := by rw [hHog, hEq]; rfl }⟩
  · rw [(hAll i hi).1, (hAll j hj).1] at hSame
    have hSame' : (i : ℤ) + 1 = j + 1 := hSame
    omega
  · rw [hEq]
    have hMoved := (hQueues.modify (fun x => { x with rqCpu := (0 : ℕ) })
      (.inl (waiters_self n h))).modify (.setState .running) (.inl (waiters_self n h))
    exact (hMoved.modify (startOn 0 k1.ticks) (.inl (waiters_self n h))).congr (fun _ => rfl)
      (fun _ => rfl) fun _ _ => ⟨rfl, rfl⟩

theorem ahead_replicate_one (m : ℕ) {v : Word} (hv : v.toNat + m * 1024 < 2 ^ 63) :
    Ahead v (replicate m 1) := by
  induction m generalizing v with
  | zero => trivial
  | succ m ih =>
    have hUnit : (v + 1 * virtUnit).toNat = v.toNat + 1024 := by
      have hNat : (1 * virtUnit : Word).toNat = 1024 := rfl
      rw [toNat_add, hNat]
      omega
    refine ⟨by decide, ?_, ih (by omega)⟩
    rw [BitVec.toInt_eq_toNat_cond]
    split <;> omega

theorem ahead_replicate_turn (m : ℕ) {v : Word} (hv : 0 < v.toInt) :
    Ahead v (replicate m (2 ^ 54)) := by
  induction m with
  | zero => trivial
  | succ m ih =>
    have hTurn : v + 2 ^ 54 * virtUnit = v := by
      exact BitVec.add_zero v
    refine ⟨by decide, ?_, ?_⟩
    · rwa [hTurn]
    · rwa [hTurn]

theorem exists_ahead (m : ℕ) : ∃ ds : List Word, Ahead 0 ds ∧ m < (ds.map toNat).sum := by
  by_cases hm : m < 2 ^ 52
  · refine ⟨replicate (m + 1) 1, ahead_replicate_one _ ?_, ?_⟩
    · have hZero : (0 : Word).toNat = 0 := rfl
      omega
    · have hOne : (1 : Word).toNat = 1 := rfl
      rw [map_replicate, sum_replicate_nat, hOne]
      omega
  · refine ⟨1 :: replicate (m + 1) (2 ^ 54), ⟨by decide, by decide, ?_⟩, ?_⟩
    · exact ahead_replicate_turn _ (by decide)
    · have hTurn : (2 ^ 54 : Word).toNat = 2 ^ 54 := by decide
      rw [map_cons, sum_cons, map_replicate, sum_replicate_nat, hTurn]
      omega

theorem not_fair (hn : 2 ≤ n) (b : ℕ) : ¬ Fair n b := by
  intro hFair
  obtain ⟨h, hH⟩ := (entering n).schedule hn
  obtain ⟨j, hjn, hjh⟩ := exists_other hn h
  obtain ⟨ds, hds, hLong⟩ := exists_ahead (b * sliceTicks)
  have hServed : served n newcomers ds =
      update (fun _ => 0) h (0 + (ds.map toNat).sum) := hH.serve hn ds hds _
  have hBound := hFair newcomers (lobby_newcomers n) ds h hH.lt j hjn
  rw [hServed, update_self, update_of_ne hjh] at hBound
  omega

/-- The ticks that tasks of equal weight receive stay within a fixed number of slices of each other
only when there are not two of them. -/
theorem fair_iff (n b : ℕ) : Fair n b ↔ n ≤ 1 := by
  constructor
  · intro hFair
    by_contra hn
    exact not_fair (by omega) b hFair
  · intro hn k _ ds i hi j hj
    have hij : i = j := by omega
    rw [hij]
    exact Nat.le_add_right _ _

/-- Two tasks and a hundred ticks: the second one gets none, and no number of slices bounds how far
it falls behind. -/
theorem second_task_starves : served 2 newcomers (List.replicate 100 1) 0 = 100 ∧
      served 2 newcomers (List.replicate 100 1) 1 = 0 ∧ ¬ ∃ b, Fair 2 b :=
  ⟨by decide +kernel, by decide +kernel, fun ⟨b, hFair⟩ => not_fair le_rfl b hFair⟩

end Gnos.Kernel
