import Gnos.Sched.Effects

/-! Run-queue membership over whole runs: a task is ready exactly when it is in one run queue, and
that queue is the one that `rq_cpu` names. -/

namespace Gnos.Kernel

open ProofKit Function Option

variable {k k' : Kernel} {p q cpu : ℕ}

/-- The state of a task that runs no more and has still to be switched away. -/
def AtRest (s : ProcState) : Prop := s = .zombie ∨ s = .stopped ∨ s = .blocked

instance : DecidablePred AtRest := fun s =>
  inferInstanceAs (Decidable (s = .zombie ∨ s = .stopped ∨ s = .blocked))

/-- The invariant between two steps of the scheduler.  While processor `loose` switches tasks, the
one that it is leaving need not run any more. -/
structure SchedInv (k : Kernel) (loose : Option ℕ) : Prop where
  queues : Queues k k.homeOf
  ready : ∀ p, (k.procs p).state = .ready → 0 ≤ (k.procs p).rqCpu ∧ (k.procs p).rqCpu < nrRq
  /-- The queue that a running task goes back to is the one it is registered with. -/
  running : ∀ p, (k.procs p).state = .running → (k.procs p).rqCpu = clampCpu (k.procs p).onCpu
  current : ∀ cpu p, k.current cpu = some p →
    ((k.procs p).state = .running ∧ (k.procs p).onCpu = cpu) ∨ AtRest (k.procs p).state ∨
      loose = some cpu ∧ (k.procs p).state ≠ .running ∧
        ((k.procs p).state = .ready → (k.procs p).onCpu = cpu)
  single : ∀ cpu cpu' p, k.current cpu = some p → k.current cpu' = some p → cpu = cpu'
  pids : ∀ i j, (k.procs i).state ≠ .unused → (k.procs j).state ≠ .unused →
    (k.procs i).pid = (k.procs j).pid → i = j
  fresh : ∀ i, (k.procs i).state ≠ .unused → (k.procs i).pid < k.gNextPid

theorem homeOf_of_ne (h : (k.procs p).state ≠ .ready) : k.homeOf p = none := if_neg h

theorem homeOf_ne_none (h : k.homeOf p ≠ none) : (k.procs p).state = .ready := by
  by_contra hState
  exact h (homeOf_of_ne hState)

theorem homeOf_congr (h : (k'.procs p).state = (k.procs p).state)
    (h' : (k'.procs p).rqCpu = (k.procs p).rqCpu) : k'.homeOf p = k.homeOf p := by
  rw [homeOf, homeOf, h, h']

/-- No processor has still to switch away from a task that is blocked. -/
def Settled (k : Kernel) : Prop := ∀ cpu p, k.current cpu = some p → (k.procs p).state ≠ .blocked

theorem touches_releaseOne (k : Kernel) (p : ℕ) : Touches p k (k.releaseOne p) := by
  unfold Kernel.releaseOne
  split
  · have hUnlink := Touches.entity k p (.setParkNext (-1)) rfl
    dsimp only
    split
    · exact hUnlink.trans (touches_parkLink _ _ p)
    · exact hUnlink.trans (touches_enqueueFresh _ p)
  · exact .refl p k

theorem Settled.releaseOne (h : k.Settled) (p : ℕ) : (k.releaseOne p).Settled := by
  by_cases hState : (k.procs p).state = .blocked
  · have hT := touches_releaseOne k p
    intro cpu j hj
    rw [hT.current] at hj
    have hjp : j ≠ p := fun hEq => h cpu p (hEq ▸ hj) hState
    rw [hT.other j hjp]
    exact h cpu j hj
  · rw [Kernel.releaseOne, if_neg fun hBoth => hState hBoth.1]
    exact h

namespace SchedInv

variable {loose : Option ℕ}

theorem home_pids (h : SchedInv k loose) (hp : (k.procs p).state ≠ .ready)
    (hLive : (k.procs p).state ≠ .unused) :
    ∀ a, k.homeOf a ≠ none → (k.procs a).pid ≠ (k.procs p).pid := by
  intro a ha hEq
  have hReady := homeOf_ne_none ha
  have : a = p := h.pids a p (by simp [hReady]) hLive hEq
  exact hp (this ▸ hReady)

theorem current_cases (h : SchedInv k none) (hCur : k.current cpu = some p) :
    (k.procs p).state = .running ∧ (k.procs p).onCpu = cpu ∨ AtRest (k.procs p).state :=
  (h.current cpu p hCur).imp_right fun hRest =>
    hRest.resolve_right fun hLoose => absurd hLoose.1 (by simp)

theorem ne_of_current (h : SchedInv k none) (hCur : k.current cpu = some p) {s : ProcState}
    (hs : s ≠ .running ∧ ¬AtRest s) : (k.procs p).state ≠ s := by
  rintro rfl
  rcases h.current_cases hCur with ⟨hRun, -⟩ | hAtRest
  · exact hs.1 hRun
  · exact hs.2 hAtRest

theorem loosen (h : SchedInv k none) (loose : Option ℕ) : SchedInv k loose :=
  { h with current := fun _ _ hp => (h.current_cases hp).imp_right .inl }

section

variable (h : SchedInv k loose)
include h

theorem congr (hQ : Queues k' k.homeOf) (hState : ∀ p, (k'.procs p).state = (k.procs p).state)
    (hRq : ∀ p, (k'.procs p).rqCpu = (k.procs p).rqCpu)
    (hOn : ∀ p, (k'.procs p).onCpu = (k.procs p).onCpu)
    (hPid : ∀ p, (k'.procs p).pid = (k.procs p).pid) (hCur : k'.current = k.current)
    (hNext : k'.gNextPid = k.gNextPid) : SchedInv k' loose where
  queues := by
    rw [show k'.homeOf = k.homeOf from funext fun p => homeOf_congr (hState p) (hRq p)]
    exact hQ
  ready p := by
    rw [hState, hRq]
    exact h.ready p
  running p := by
    rw [hState, hRq, hOn]
    exact h.running p
  current cpu p := by
    rw [hCur, hState, hOn]
    exact h.current cpu p
  single cpu cpu' p := by
    rw [hCur]
    exact h.single cpu cpu' p
  pids i j := by
    rw [hState, hState, hPid, hPid]
    exact h.pids i j
  fresh i := by
    rw [hState, hPid, hNext]
    exact h.fresh i

theorem onlyCgs (hOnly : OnlyCgs k k') : SchedInv k' loose := by
  rw [hOnly]
  exact h.congr (h.queues.congr (fun _ => rfl) (fun _ => rfl) fun _ _ => ⟨rfl, rfl⟩)
    (fun _ => rfl) (fun _ => rfl) (fun _ => rfl) (fun _ => rfl) rfl rfl

theorem tweak (f : Proc → Proc) (hState : (f (k.procs p)).state = (k.procs p).state)
    (hRq : (f (k.procs p)).rqCpu = (k.procs p).rqCpu)
    (hOn : (f (k.procs p)).onCpu = (k.procs p).onCpu) (hPid : (f (k.procs p)).pid = (k.procs p).pid)
    (hKey : (k.procs p).state = .ready → (f (k.procs p)).deadline = (k.procs p).deadline) :
    SchedInv (k.modify p f) loose := by
  have hAll : ∀ j, ((k.modify p f).procs j).state = (k.procs j).state ∧
      ((k.modify p f).procs j).rqCpu = (k.procs j).rqCpu ∧
      ((k.modify p f).procs j).onCpu = (k.procs j).onCpu ∧
      ((k.modify p f).procs j).pid = (k.procs j).pid := fun j => by
    by_cases hj : j = p
    · subst hj
      rw [procs_modify_self]
      exact ⟨hState, hRq, hOn, hPid⟩
    · rw [procs_modify_of_ne k f hj]
      exact ⟨rfl, rfl, rfl, rfl⟩
  refine h.congr (h.queues.modify f ?_) (fun j => (hAll j).1) (fun j => (hAll j).2.1)
    (fun j => (hAll j).2.2.1) (fun j => (hAll j).2.2.2) rfl rfl
  by_cases hReady : (k.procs p).state = .ready
  · exact .inr ⟨hKey hReady, hPid⟩
  · exact .inl (homeOf_of_ne hReady)

/-- A change of task `p` and of the processors that have it; the other tasks are as before. -/
theorem change {loose' : Option ℕ} (hOther : ∀ j ≠ p, k'.procs j = k.procs j)
    (hNext : k.gNextPid ≤ k'.gNextPid) (hQ : Queues k' (update k.homeOf p (k'.homeOf p)))
    (hReady : (k'.procs p).state = .ready → 0 ≤ (k'.procs p).rqCpu ∧ (k'.procs p).rqCpu < nrRq)
    (hRunning : (k'.procs p).state = .running → (k'.procs p).rqCpu = clampCpu (k'.procs p).onCpu)
    (hElse : ∀ c j, j ≠ p → k'.current c = some j →
      k.current c = some j ∧ (loose = some c → loose' = some c))
    (hCur : ∀ c, k'.current c = some p →
      ((k'.procs p).state = .running ∧ (k'.procs p).onCpu = c) ∨ AtRest (k'.procs p).state ∨
        loose' = some c ∧ (k'.procs p).state ≠ .running ∧
          ((k'.procs p).state = .ready → (k'.procs p).onCpu = c))
    (hSingle : ∀ c c', k'.current c = some p → k'.current c' = some p → c = c')
    (hPid : (k'.procs p).state ≠ .unused → (k'.procs p).pid < k'.gNextPid ∧
      ∀ j ≠ p, (k.procs j).state ≠ .unused → (k.procs j).pid ≠ (k'.procs p).pid) :
    SchedInv k' loose' where
  queues := by
    have hHome : update k.homeOf p (k'.homeOf p) = k'.homeOf := by
      funext j
      by_cases hj : j = p
      · subst hj
        rw [update_self]
      · rw [update_of_ne hj, homeOf, homeOf, hOther j hj]
    exact hHome ▸ hQ
  ready j hj := by
    by_cases hjp : j = p
    · subst hjp
      exact hReady hj
    · rw [hOther j hjp] at hj ⊢
      exact h.ready j hj
  running j hj := by
    by_cases hjp : j = p
    · subst hjp
      exact hRunning hj
    · rw [hOther j hjp] at hj ⊢
      exact h.running j hj
  current c j hj := by
    by_cases hjp : j = p
    · subst hjp
      exact hCur c hj
    · obtain ⟨hOld, hLoose⟩ := hElse c j hjp hj
      rw [hOther j hjp]
      exact (h.current c j hOld).imp_right (Or.imp_right (And.imp_left hLoose))
  single c c' j hj hj' := by
    by_cases hjp : j = p
    · subst hjp
      exact hSingle c c' hj hj'
    · exact h.single c c' j (hElse c j hjp hj).1 (hElse c' j hjp hj').1
  pids i j hi hj hEq := by
    by_contra hne
    by_cases hip : i = p
    · subst hip
      rw [hOther j (Ne.symm hne)] at hj hEq
      exact (hPid hi).2 j (Ne.symm hne) hj hEq.symm
    · rw [hOther i hip] at hi hEq
      by_cases hjp : j = p
      · subst hjp
        exact (hPid hj).2 i hip hi hEq
      · rw [hOther j hjp] at hj hEq
        exact hne (h.pids i j hi hj hEq)
  fresh j hj := by
    by_cases hjp : j = p
    · subst hjp
      exact (hPid hj).1
    · rw [hOther j hjp] at hj ⊢
      exact (h.fresh j hj).trans_le hNext

theorem requeue (hPid : ∀ j ≠ p, (k.procs j).state ≠ .unused → (k.procs j).pid ≠ (k.procs p).pid)
    (hFresh : (k.procs p).pid < k.gNextPid)
    (hIdle : ∀ cpu, k.current cpu = some p → loose = some cpu ∧ (k.procs p).onCpu = cpu)
    (hR : Requeued k.homeOf p k k') : SchedInv k' loose := by
  have hCur := hR.touches.current
  have hRun : (k'.procs p).state ≠ .running := by
    rcases hR.state with ⟨h, -⟩ | ⟨h, -⟩ <;> simp [h]
  refine h.change hR.touches.other hR.touches.gNextPid.ge hR.queues (fun hj => ?_)
    (fun hj => absurd hj hRun)
    (fun c j _ hj => ⟨hCur ▸ hj, id⟩) (fun c hc => ?_) (fun c c' => hCur ▸ h.single c c' p)
    fun _ => ?_
  · rcases hR.state with h | ⟨h, -⟩
    · exact h.2
    · exact absurd (hj.symm.trans h) (by decide)
  · obtain ⟨hLoose, hOn⟩ := hIdle c (hCur ▸ hc)
    exact .inr (.inr ⟨hLoose, hRun, fun _ => hR.onCpu.trans hOn⟩)
  · rw [hR.touches.pid, hR.touches.gNextPid]
    exact ⟨hFresh, hPid⟩

theorem pid_ne (hLive : (k.procs p).state ≠ .unused) :
    ∀ j ≠ p, (k.procs j).state ≠ .unused → (k.procs j).pid ≠ (k.procs p).pid :=
  fun j hj hState hEq => hj (h.pids j p hState hLive hEq)

end

section

variable (h : SchedInv k none)
include h

theorem enqueueFresh (hState : (k.procs p).state = .blocked ∨ (k.procs p).state = .stopped)
    (hIdle : ∀ cpu, k.current cpu ≠ some p) : SchedInv (k.enqueueFresh p) none := by
  have hReady : (k.procs p).state ≠ .ready := fun hEq => by simp [hEq] at hState
  have hLive : (k.procs p).state ≠ .unused := fun hEq => by simp [hEq] at hState
  exact h.requeue (h.pid_ne hLive) (h.fresh p hLive) (fun cpu hCur => absurd hCur (hIdle cpu))
    (h.queues.enqueueFresh (homeOf_of_ne hReady) (h.home_pids hReady hLive))

theorem schedWake (hIdle : (k.procs p).state = .blocked → ∀ cpu, k.current cpu ≠ some p) :
    SchedInv (k.schedWake p) none := by
  unfold Kernel.schedWake
  split_ifs with hState
  · have hWoken := h.tweak (p := p) (fun x => { x with waitReason := .none, wakeTick := 0 }) rfl rfl
      rfl rfl fun _ => rfl
    exact hWoken.enqueueFresh (.inl (by simpa using hState)) (hIdle hState)
  · exact h

theorem releaseOne (hSettled : k.Settled) (p : ℕ) : SchedInv (k.releaseOne p) none := by
  unfold Kernel.releaseOne
  split_ifs with hState
  · have hIdle : ∀ cpu, k.current cpu ≠ some p := fun cpu hCur => hSettled cpu p hCur hState.1
    have hUnlinked : SchedInv (k.modify p (.setParkNext (-1))) none :=
      h.tweak _ rfl rfl rfl rfl fun _ => rfl
    have hBlocked : ((k.modify p (.setParkNext (-1))).procs p).state = .blocked := by
      rw [procs_modify_self]
      exact hState.1
    simp only
    split
    · have hLive : ((k.modify p (.setParkNext (-1))).procs p).state ≠ .unused := by
        rw [hBlocked]
        decide
      refine hUnlinked.requeue (hUnlinked.pid_ne hLive) (hUnlinked.fresh p hLive)
        (fun cpu hCur => absurd hCur (hIdle cpu)) ?_
      refine hUnlinked.queues.parkLink (homeOf_of_ne (by rw [hBlocked]; decide)) _ hBlocked ?_
      rw [procs_modify_self]
      exact hState.2
    · exact hUnlinked.enqueueFresh (.inl hBlocked) hIdle
  · exact h

theorem releaseLoop (hSettled : k.Settled) (fuel : ℕ) (pid : ℤ) :
    SchedInv (Kernel.releaseLoop fuel pid k) none ∧ (Kernel.releaseLoop fuel pid k).Settled := by
  induction fuel generalizing k pid with
  | zero => exact ⟨h, hSettled⟩
  | succ fuel ih =>
    rw [releaseLoop]
    split
    · exact ⟨h, hSettled⟩
    · split
      · exact ⟨h, hSettled⟩
      · exact ih (h.releaseOne hSettled _) (hSettled.releaseOne _) _

theorem refreshGroup (hSettled : k.Settled) (c : ℕ) :
    SchedInv (k.refreshGroup c) none ∧ (k.refreshGroup c).Settled := by
  unfold Kernel.refreshGroup
  simp only
  split
  · exact ((h.onlyCgs (OnlyCgs.setCg k c _)).onlyCgs (OnlyCgs.setCg _ c _)).releaseLoop hSettled _ _
  · exact ⟨h, hSettled⟩

theorem cgTickRefresh (hSettled : k.Settled) : SchedInv k.cgTickRefresh none := by
  unfold Kernel.cgTickRefresh
  generalize List.range maxCgs = cs
  induction cs generalizing k with
  | nil => exact h
  | cons c cs ih =>
    obtain ⟨hGroup, hStill⟩ := h.refreshGroup hSettled c
    exact ih hGroup hStill

end

theorem account (h : SchedInv k loose) (p : ℕ) : SchedInv (k.account p) loose := by
  unfold Kernel.account
  have hClock : SchedInv (k.setRq (clampCpu (k.procs p).onCpu) fun rq =>
      { rq with vtime := rq.vtime + (k.ticks - (k.procs p).lastRunTick) * virtUnit }) loose :=
    h.congr (h.queues.setRq _ (fun _ => rfl) fun _ => rfl) (fun _ => rfl) (fun _ => rfl)
      (fun _ => rfl) (fun _ => rfl) rfl rfl
  exact hClock.tweak _ rfl rfl rfl rfl fun _ => rfl

theorem putRunning (h : SchedInv k loose) (hRun : (k.procs p).state = .running) (used : Word) :
    Requeued k.homeOf p k (k.putRunning p used) := by
  have hHome : k.homeOf p = none := homeOf_of_ne (by simp [hRun])
  have hPids := h.home_pids (p := p) (by simp [hRun]) (by simp [hRun])
  unfold Kernel.putRunning
  -- after the charge the task is in no queue, and only cgroups have changed besides
  have hOnly := onlyCgs_cgChargeRuntime (k.modify p readyAgain) p used
  have hCg : ((k.modify p readyAgain).cgChargeRuntime p used).1 →
      (((k.modify p readyAgain).cgChargeRuntime p used).2.procs p).cg ≠ none := fun hHit => by
    rw [hOnly.procs]
    exact cg_of_cgChargeRuntime hHit
  generalize (k.modify p readyAgain).cgChargeRuntime p used = r at *
  obtain ⟨throttled, kc⟩ := r
  have hTouch : Touches p k kc := (Touches.entity k p readyAgain rfl).trans (hOnly.touches p)
  have hQ : Queues kc k.homeOf := hOnly.queues (h.queues.modify readyAgain (.inl hHome))
  have hProc : kc.procs p = readyAgain (k.procs p) := by rw [hOnly.procs, procs_modify_self]
  have hPids' : ∀ a, k.homeOf a ≠ none → (kc.procs a).pid ≠ (kc.procs p).pid := fun a ha => by
    rw [hTouch.pid, hTouch.pid]
    exact hPids a ha
  have hBack : ∀ {k'}, Requeued k.homeOf p kc k' → Requeued k.homeOf p k k' := fun hR =>
    ⟨hTouch.trans hR.touches, hR.queues, hR.state, hR.onCpu.trans (by rw [hProc]; rfl)⟩
  simp only
  split_ifs with hHit
  · refine hBack (hQ.cgPark hHome hPids' ?_)
    rcases Bool.or_eq_true_iff.mp hHit with hHit | hHit
    · exact hCg hHit
    · exact cg_of_cgChainThrottled hHit
  · refine hBack ?_
    have hPlaced := place_eq (kc.rqs (clampCpu (kc.procs p).onCpu)) (kc.procs p)
    have hSelf : (kc.rqEnqueue (clampCpu (kc.procs p).onCpu) p).procs p =
        place (kc.rqs (clampCpu (kc.procs p).onCpu)) (kc.procs p) := by
      rw [procs_rqEnqueue, procs_modify_self]
    have hRq : (kc.procs p).rqCpu = clampCpu (kc.procs p).onCpu := by
      rw [hProc]
      exact h.running p hRun
    have hReady : (kc.procs p).state = .ready := by
      rw [hProc]
      rfl
    refine ⟨touches_rqEnqueue kc _ p, ?_, .inl ?_, ?_⟩
    · have hNew : (kc.rqEnqueue (clampCpu (kc.procs p).onCpu) p).homeOf p =
          some (clampCpu (kc.procs p).onCpu) := by
        rw [homeOf, hSelf, hPlaced.2.1, hPlaced.2.2.1, hReady, if_pos rfl, hRq, Int.toNat_natCast]
      rw [hNew]
      exact hQ.rqEnqueue hHome fun a ha => hPids' a (by simp [ha])
    · rw [hSelf, hPlaced.2.1, hPlaced.2.2.1, hReady, hRq]
      have := clampCpu_lt (kc.procs p).onCpu
      exact ⟨rfl, by omega, by omega⟩
    · rw [hSelf, hPlaced.2.2.2]

section

variable (h : SchedInv k (some cpu))
include h

theorem putPrev (hCur : k.current cpu = some p) :
    SchedInv (k.putPrev p) (some cpu) ∧ ((k.putPrev p).procs p).state ≠ .running ∧
      (k.putPrev p).current = k.current := by
  have hAcc := h.account p
  have hAccCur : (k.account p).current = k.current := rfl
  unfold Kernel.putPrev
  simp only
  split_ifs with hRun
  · have hElse : ∀ c, (k.account p).current c = some p →
        some cpu = some c ∧ ((k.account p).procs p).onCpu = c := by
      have hOn : ∀ c, (k.account p).current c = some p → ((k.account p).procs p).onCpu = c := by
        intro c hc
        rcases hAcc.current c p hc with ⟨-, hOn⟩ | hAtRest | ⟨-, hNot, -⟩
        · exact hOn
        · exact absurd (hRun ▸ hAtRest) (by decide)
        · exact absurd hRun hNot
      intro c hc
      have hEq : (cpu : ℤ) = c := (hOn cpu hCur).symm.trans (hOn c hc)
      exact ⟨congrArg some (Int.ofNat_inj.mp hEq), hOn c hc⟩
    have hR := hAcc.putRunning hRun (k.unaccounted p)
    have hLive : ((k.account p).procs p).state ≠ .unused := by simp [hRun]
    refine ⟨hAcc.requeue (hAcc.pid_ne hLive) (hAcc.fresh p hLive) hElse hR, ?_, hR.touches.current⟩
    rcases hR.state with ⟨hState, -⟩ | ⟨hState, -⟩
    · simp [hState]
    · simp [hState]
  · exact ⟨hAcc, hRun, hAccCur⟩

theorem tighten (hNone : k.current cpu = none) : SchedInv k none := by
  refine { h with current := fun c p hp => ?_ }
  obtain hRun | hZombie | hLoose := h.current c p hp
  · exact .inl hRun
  · exact .inr (.inl hZombie)
  · obtain rfl : cpu = c := some.inj hLoose.1
    exact absurd (hNone.symm.trans hp) (by simp)

theorem leave : SchedInv (k.setCurrent cpu none) none := by
  have hOther : ∀ c p, (k.setCurrent cpu none).current c = some p →
      c ≠ cpu ∧ k.current c = some p := fun c p hp => by
    have hc : c ≠ cpu := fun hEq => by
      rw [hEq, current_setCurrent_self] at hp
      exact absurd hp (by simp)
    rw [current_setCurrent_of_ne _ _ hc] at hp
    exact ⟨hc, hp⟩
  refine ⟨h.queues.congr (fun _ => rfl) (fun _ => rfl) fun _ _ => ⟨rfl, rfl⟩, h.ready, h.running,
    fun c p hp => ?_, fun c c' p hp hp' => h.single c c' p (hOther c p hp).2 (hOther c' p hp').2,
    h.pids, h.fresh⟩
  obtain ⟨hc, hp⟩ := hOther c p hp
  obtain hRun | hZombie | hLoose := h.current c p hp
  · exact .inl hRun
  · exact .inr (.inl hZombie)
  · exact absurd (some.inj hLoose.1).symm hc

theorem start (hT : Taken k.homeOf p k k') {k2 : Kernel} (hQ : Queues k2 (update k.homeOf p none))
    (hOther : ∀ j ≠ p, k2.procs j = k'.procs j) (hState : (k2.procs p).state = .running)
    (hRq : (k2.procs p).rqCpu = clampCpu cpu) (hOn : (k2.procs p).onCpu = cpu)
    (hPid : (k2.procs p).pid = (k'.procs p).pid) (hNext : k2.gNextPid = k'.gNextPid)
    (hCur : k2.current cpu = some p) (hElse : ∀ c ≠ cpu, k2.current c = k'.current c) :
    SchedInv k2 none := by
  have hReady : (k.procs p).state = .ready := homeOf_ne_none hT.queued
  have hLive : (k.procs p).state ≠ .unused := by simp [hReady]
  -- no other processor has the task, which was ready
  have hSeat : ∀ c, k2.current c = some p → c = cpu := fun c hcp => by
    by_contra hc
    rw [hElse c hc, hT.touches.current] at hcp
    rcases h.current c p hcp with ⟨hRun, -⟩ | hAtRest | ⟨hLoose, -⟩
    · exact absurd (hReady.symm.trans hRun) (by decide)
    · exact absurd (hReady ▸ hAtRest) (by decide)
    · exact hc (some.inj hLoose).symm
  refine h.change (fun j hj => (hOther j hj).trans (hT.touches.other j hj))
    (hNext.trans hT.touches.gNextPid).ge ?_
    (fun hj => absurd (hState.symm.trans hj) (by decide)) (fun _ => by rw [hRq, hOn])
    (fun c j hj hc => ?_)
    (fun c hc => .inl ⟨hState, hSeat c hc ▸ hOn⟩)
    (fun c c' hc hc' => (hSeat c hc).trans (hSeat c' hc').symm) fun _ => ?_
  · rw [homeOf_of_ne (by simp [hState])]
    exact hQ
  · have hne : c ≠ cpu := fun hEq => hj (some.inj ((hEq ▸ hCur).symm.trans hc)).symm
    rw [hElse c hne, hT.touches.current] at hc
    exact ⟨hc, fun hLoose => absurd (some.inj hLoose).symm hne⟩
  · rw [hPid, hNext, hT.touches.pid, hT.touches.gNextPid]
    exact ⟨h.fresh p hLive, h.pid_ne hLive⟩

theorem switchFrom (hLeft : ∀ p, k.current cpu = some p → (k.procs p).state ≠ .running)
    (hCpu : clampCpu cpu = cpu % nrRq) : SchedInv (k.switchFrom cpu (k.current cpu)) none := by
  unfold Kernel.switchFrom
  rcases h.queues.pickNext (cpu % nrRq) with hNone | ⟨n, hSome, hT, hRq⟩
  · rw [hNone]
    simp only
    split
    · rename_i hPrev
      exact h.tighten hPrev
    · rename_i p hPrev
      rw [if_neg (hLeft p hPrev)]
      exact h.leave
  · obtain ⟨k1, hPick⟩ : ∃ k1, k.pickNext (cpu % nrRq) = (some n, k1) := ⟨_, Prod.ext hSome rfl⟩
    rw [hPick] at hT hRq ⊢
    simp only at hT hRq ⊢
    have hQ : Queues (k1.modify n (.setState .running)) (update k.homeOf n none) :=
      hT.queues.modify _ (.inr ⟨rfl, rfl⟩)
    have hOther : ∀ j ≠ n, (k1.modify n (.setState .running)).procs j = k1.procs j :=
      fun j hj => procs_modify_of_ne k1 _ hj
    split
    · rename_i hPrev
      -- the task stays on its processor
      have hOn : (k1.procs n).onCpu = cpu := by
        have hReady : (k.procs n).state = .ready := homeOf_ne_none hT.queued
        rw [hT.onCpu]
        rcases h.current cpu n hPrev with ⟨-, hOn⟩ | hAtRest | ⟨-, -, hOn⟩
        · exact hOn
        · exact absurd (hReady ▸ hAtRest) (by decide)
        · exact hOn hReady
      refine h.start hT hQ hOther ?_ ?_ ?_ ?_ rfl (hT.touches.current ▸ hPrev) fun _ _ => rfl
      · rw [procs_modify_self]
        rfl
      · rw [procs_modify_self]
        exact hRq.trans (congrArg _ hCpu.symm)
      · rw [procs_modify_self]
        exact hOn
      · rw [procs_modify_self]
        rfl
    · have hSelf : ((k1.modify n (.setState .running)).startNext cpu n).procs n =
          startOn cpu k1.ticks (Proc.setState .running (k1.procs n)) := by
        simp [startNext]
      refine h.start hT ?_ ?_ ?_ ?_ ?_ ?_ rfl (current_setCurrent_self ..)
        fun c hc => current_setCurrent_of_ne _ _ hc
      · have hStarted : Queues ((k1.modify n (.setState .running)).modify n (startOn cpu k1.ticks))
            (update k.homeOf n none) := hQ.modify _ (.inl (update_self n _ _))
        exact hStarted.congr (fun _ => rfl) (fun _ => rfl) fun _ _ => ⟨rfl, rfl⟩
      · intro j hj
        rw [startNext, procs_setCurrent, procs_modify_of_ne _ _ hj, hOther j hj]
      · rw [hSelf]
        rfl
      · rw [hSelf]
        exact hRq.trans (congrArg _ hCpu.symm)
      · rw [hSelf]
        rfl
      · rw [hSelf]
        rfl

theorem schedule (hCpu : clampCpu cpu = cpu % nrRq) : SchedInv (k.schedule cpu) none := by
  unfold Kernel.schedule
  cases hCur : k.current cpu with
  | none =>
    have hSwitch := h.switchFrom (fun p hp => absurd (hCur.symm.trans hp) (by simp)) hCpu
    rwa [hCur] at hSwitch
  | some p =>
    obtain ⟨hPut, hLeft, hSame⟩ := h.putPrev hCur
    have hSwitch := hPut.switchFrom (fun p' hp' => by
      obtain rfl : p = p' := some.inj (hCur.symm.trans (hSame ▸ hp'))
      exact hLeft) hCpu
    rwa [hSame, hCur] at hSwitch

end

theorem repick (h : SchedInv k loose) (q : ℕ) : SchedInv (k.repick q).2 loose := by
  unfold Kernel.repick
  rcases h.queues.rqPickBest q with hNone | ⟨p, hSome, hHome, hT, hRq⟩
  · rw [hNone]
    exact h
  · obtain ⟨k1, hPick⟩ : ∃ k1, k.rqPickBest q = (some p, k1) := ⟨_, Prod.ext hSome rfl⟩
    rw [hPick] at hT hRq ⊢
    have hReady : (k.procs p).state = .ready := homeOf_ne_none hT.queued
    have hTouch := hT.touches.trans (touches_rqEnqueue k1 q p)
    have hPlaced := place_eq (k1.rqs q) (k1.procs p)
    have hSelf : (k1.rqEnqueue q p).procs p = place (k1.rqs q) (k1.procs p) := by
      rw [procs_rqEnqueue, procs_modify_self]
    have hQ : Queues (k1.rqEnqueue q p) k.homeOf := by
      have := hT.queues.rqEnqueue (p := p) (q := q) (update_self p _ _) fun a ha => by
        have hap : a ≠ p := fun hEq => by simp [hEq] at ha
        rw [update_of_ne hap] at ha
        rw [hT.touches.pid, hT.touches.pid]
        intro hEq
        have haReady : (k.procs a).state = .ready := homeOf_ne_none (by simp [ha])
        exact hap (h.pids a p (by simp [haReady]) (by simp [hReady]) hEq)
      rwa [update_idem, ← hHome, update_eq_self] at this
    have hAll : ∀ j, ((k1.rqEnqueue q p).procs j).state = (k.procs j).state ∧
        ((k1.rqEnqueue q p).procs j).rqCpu = (k.procs j).rqCpu ∧
        ((k1.rqEnqueue q p).procs j).onCpu = (k.procs j).onCpu := fun j => by
      by_cases hj : j = p
      · rw [hj, hSelf, hPlaced.2.1, hPlaced.2.2.1, hPlaced.2.2.2, hT.state, hRq, hT.onCpu]
        exact ⟨rfl, rfl, rfl⟩
      · rw [hTouch.other j hj]
        exact ⟨rfl, rfl, rfl⟩
    exact h.congr hQ (fun j => (hAll j).1) (fun j => (hAll j).2.1) (fun j => (hAll j).2.2)
      hTouch.pid hTouch.current hTouch.gNextPid

section

variable (h : SchedInv k none)
include h

theorem schedTick (hCpu : clampCpu cpu = cpu % nrRq) : SchedInv (k.schedTick cpu) none := by
  unfold Kernel.schedTick
  split
  · exact h
  · rename_i cur _
    simp only
    have hCharged := (h.account cur).onlyCgs
      (onlyCgs_cgChargeRuntime (k.account cur) cur (k.unaccounted cur))
    split
    · exact ((hCharged.repick _).loosen _).schedule hCpu
    · exact hCharged.repick _

/-- Task `p` is neither queued nor running afterwards; the processors that have it are `loose`, or
have still to switch. -/
theorem retire (hQ : Queues k' (update k.homeOf p none)) (hT : Touches p k k')
    (hReady : (k'.procs p).state ≠ .ready) (hRun : (k'.procs p).state ≠ .running)
    (hUsed : (k'.procs p).state ≠ .unused → (k.procs p).state ≠ .unused)
    (hCur : ∀ c, k.current c = some p → AtRest (k'.procs p).state ∨ loose = some c) :
    SchedInv k' loose := by
  refine h.change hT.other hT.gNextPid.ge ?_ (fun hj => absurd hj hReady) (fun hj => absurd hj hRun)
    (fun c j _ hj => ⟨hT.current ▸ hj, fun hNone => absurd hNone (by simp)⟩) (fun c hc => ?_)
    (fun c c' => hT.current ▸ h.single c c' p) fun hj => ?_
  · rw [homeOf_of_ne hReady]
    exact hQ
  · rcases hCur c (hT.current ▸ hc) with hAtRest | hLoose
    · exact .inr (.inl hAtRest)
    · exact .inr (.inr ⟨hLoose, hRun, fun hEq => absurd hEq hReady⟩)
  · rw [hT.pid, hT.gNextPid]
    exact ⟨h.fresh p (hUsed hj), h.pid_ne (hUsed hj)⟩

theorem homeOf_current (hCur : k.current cpu = some p) : k.homeOf p = none :=
  homeOf_of_ne (h.ne_of_current hCur (by decide))

end

end SchedInv

end Gnos.Kernel
