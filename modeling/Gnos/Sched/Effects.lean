import Gnos.Sched.Queues

/-! What each operation of the scheduler does to the queues and to the task that it is about. -/

namespace Gnos.Kernel

open ProofKit Function Proc

variable {k k' k'' : Kernel} {p q mine : ℕ} {home : ℕ → Option ℕ}

/-- The step is about task `p`: of the other tasks nothing changes, of `p` only what the scheduler
owns. -/
structure Touches (p : ℕ) (k k' : Kernel) : Prop where
  other : ∀ j ≠ p, k'.procs j = k.procs j
  ident : (k'.procs p).toIdent = (k.procs p).toIdent
  signals : (k'.procs p).toSignals = (k.procs p).toSignals
  tracing : (k'.procs p).toTracing = (k.procs p).toTracing
  confined : (k'.procs p).toConfined = (k.procs p).toConfined
  current : k'.current = k.current
  gNextPid : k'.gNextPid = k.gNextPid
  cpuAllowed : k'.cpuAllowed = k.cpuAllowed
  ticks : k'.ticks = k.ticks

namespace Touches

theorem refl (p : ℕ) (k : Kernel) : Touches p k k :=
  ⟨fun _ _ => rfl, rfl, rfl, rfl, rfl, rfl, rfl, rfl, rfl⟩

theorem trans (h : Touches p k k') (h' : Touches p k' k'') : Touches p k k'' :=
  ⟨fun j hj => (h'.other j hj).trans (h.other j hj), h'.ident.trans h.ident,
    h'.signals.trans h.signals, h'.tracing.trans h.tracing, h'.confined.trans h.confined,
    h'.current.trans h.current, h'.gNextPid.trans h.gNextPid, h'.cpuAllowed.trans h.cpuAllowed,
    h'.ticks.trans h.ticks⟩

theorem entity (k : Kernel) (p : ℕ) (f : Proc → Proc)
    (hf : f (k.procs p) = { k.procs p with toEntity := (f (k.procs p)).toEntity }) :
    Touches p k (k.modify p f) := by
  refine ⟨fun j hj => procs_modify_of_ne k f hj, ?_, ?_, ?_, ?_, rfl, rfl, rfl, rfl⟩
  all_goals rw [procs_modify_self, hf]

theorem setRq (k : Kernel) (p q : ℕ) (f : Rq → Rq) : Touches p k (k.setRq q f) :=
  ⟨fun _ _ => rfl, rfl, rfl, rfl, rfl, rfl, rfl, rfl, rfl⟩

theorem setCg (k : Kernel) (p c : ℕ) (f : CpuCgroup → CpuCgroup) : Touches p k (k.setCg c f) :=
  ⟨fun _ _ => rfl, rfl, rfl, rfl, rfl, rfl, rfl, rfl, rfl⟩

theorem pid (h : Touches p k k') (j : ℕ) : (k'.procs j).pid = (k.procs j).pid := by
  by_cases hj : j = p
  · subst hj
    exact congrArg Ident.pid h.ident
  · rw [h.other j hj]

end Touches

def OnlyCgs (k k' : Kernel) : Prop := k' = { k with cgs := k'.cgs }

namespace OnlyCgs

theorem refl (k : Kernel) : OnlyCgs k k := rfl

theorem setCg (k : Kernel) (c : ℕ) (f : CpuCgroup → CpuCgroup) : OnlyCgs k (k.setCg c f) := rfl

section

variable (h : OnlyCgs k k')
include h

theorem trans (h' : OnlyCgs k' k'') : OnlyCgs k k'' := by
  rw [OnlyCgs] at *
  rw [h', h]

theorem procs : k'.procs = k.procs := by rw [h]

theorem rqs : k'.rqs = k.rqs := by rw [h]

theorem touches (p : ℕ) : Touches p k k' := by
  rw [h]
  exact ⟨fun _ _ => rfl, rfl, rfl, rfl, rfl, rfl, rfl, rfl, rfl⟩

theorem queues (hQ : Queues k home) : Queues k' home :=
  hQ.congr (fun _ => by rw [h.rqs]) (fun _ => by rw [h.rqs]) fun _ _ => by
    rw [h.procs]
    exact ⟨rfl, rfl⟩

end

end OnlyCgs

theorem onlyCgs_chargeChain (used : Word) (cs : List ℕ) (throttled : Bool) (k : Kernel) :
    OnlyCgs k (chargeChain used cs throttled k).2 := by
  induction cs generalizing throttled k with
  | nil => exact .refl k
  | cons c cs ih => exact (OnlyCgs.setCg k c _).trans (ih _ _)

theorem onlyCgs_cgChargeRuntime (k : Kernel) (p : ℕ) (used : Word) :
    OnlyCgs k (k.cgChargeRuntime p used).2 := by
  unfold cgChargeRuntime
  split
  · exact .refl k
  · exact onlyCgs_chargeChain used _ false k

theorem cg_of_cgChargeRuntime {used : Word} (h : (k.cgChargeRuntime p used).1) :
    (k.procs p).cg ≠ none := by
  intro hcg
  unfold cgChargeRuntime at h
  split at h
  · exact Bool.noConfusion h
  · simp [cgChain, hcg, chargeChain] at h

theorem cg_of_cgChainThrottled (h : k.cgChainThrottled p) : (k.procs p).cg ≠ none := by
  intro hcg
  simp [cgChainThrottled, cgChain, hcg] at h

theorem procs_bumpMin (k : Kernel) (q : ℕ) : (k.bumpMin q).procs = k.procs := by
  unfold bumpMin
  split
  · split <;> rfl
  · rfl

theorem touches_bumpMin (k : Kernel) (p q : ℕ) : Touches p k (k.bumpMin q) := by
  unfold bumpMin
  split
  · split
    · exact .setRq ..
    · exact .refl ..
  · exact .refl ..

theorem place_eq (rq : Rq) (p : Proc) : place rq p = { p with toEntity := (place rq p).toEntity } ∧
    (place rq p).state = p.state ∧ (place rq p).rqCpu = p.rqCpu ∧ (place rq p).onCpu = p.onCpu := by
  unfold place
  simp only
  split <;> exact ⟨rfl, rfl, rfl, rfl⟩

section

variable (k)

theorem procs_rqEnqueue (q p : ℕ) :
    (k.rqEnqueue q p).procs = (k.modify p (place (k.rqs q))).procs := by
  unfold rqEnqueue
  rw [procs_bumpMin]
  rfl

theorem touches_rqEnqueue (q p : ℕ) : Touches p k (k.rqEnqueue q p) :=
  ((Touches.entity k p _ (place_eq _ _).1).trans ((Touches.setRq _ p q _).trans
    (Touches.setRq _ p q _))).trans (touches_bumpMin _ p q)

theorem procs_rqDequeue (q p : ℕ) : (k.rqDequeue q p).procs = k.procs := by
  unfold rqDequeue
  rw [procs_bumpMin]
  rfl

theorem touches_rqDequeue (q p : ℕ) : Touches p k (k.rqDequeue q p) :=
  ((Touches.setRq k p q _).trans (Touches.setRq _ p q _)).trans (touches_bumpMin _ p q)

theorem procs_enqueueReady_self (p : ℕ) : (k.enqueueReady p).procs p =
      (place ((k.settle p).rqs ((k.settle p).procs p).rqCpu.toNat) ((k.settle p).procs p)).setState
        .ready := by
  unfold enqueueReady
  rw [procs_modify_self, procs_rqEnqueue, procs_modify_self]

theorem touches_enqueueReady (p : ℕ) : Touches p k (k.enqueueReady p) :=
  ((Touches.entity k p _ rfl).trans (touches_rqEnqueue (k.settle p) _ p)).trans
    (Touches.entity _ p _ rfl)

theorem cgs_bumpMin (q : ℕ) : (k.bumpMin q).cgs = k.cgs := by
  unfold bumpMin
  split
  · split <;> rfl
  · rfl

theorem cgs_enqueueReady (p : ℕ) : (k.enqueueReady p).cgs = k.cgs := by
  unfold enqueueReady rqEnqueue
  rw [cgs_modify, cgs_bumpMin]
  rfl

theorem cg_enqueueReady (p : ℕ) : ((k.enqueueReady p).procs p).cg = (k.procs p).cg := by
  have hPlace : ∀ (rq : Rq) (x : Proc), (place rq x).cg = x.cg := fun rq x => by
    unfold place
    dsimp only
    split <;> rfl
  rw [procs_enqueueReady_self, setState, hPlace, settle, procs_modify_self]

theorem state_enqueueReady (p : ℕ) : ((k.enqueueReady p).procs p).state = .ready := by
  rw [procs_enqueueReady_self]
  rfl

theorem touches_parkLink (c p : ℕ) : Touches p k (k.parkLink c p) :=
  (Touches.entity k p (.setParkNext (k.cgs c).parkHead) rfl).trans (Touches.setCg _ p c _)

end

section

variable (k p)

theorem touches_cgPark : Touches p k (k.cgPark p) := by
  unfold cgPark
  split
  · exact .refl p k
  · refine Touches.trans (Touches.entity k p (fun x => (x.block .cgroup).setParkNext (-1)) rfl) ?_
    dsimp only
    split
    · exact touches_enqueueReady _ p
    · exact touches_parkLink _ _ p

theorem touches_enqueueFresh : Touches p k (k.enqueueFresh p) := by
  unfold enqueueFresh
  split
  · exact touches_cgPark k p
  · exact touches_enqueueReady k p

theorem state_enqueueFresh : ((k.enqueueFresh p).procs p).state = .ready ∨
      ((k.enqueueFresh p).procs p).state = .blocked ∧
      ((k.enqueueFresh p).procs p).waitReason = .cgroup := by
  unfold enqueueFresh
  split
  next hThrottled =>
    have hcg := cg_of_cgChainThrottled hThrottled
    unfold cgPark
    rw [if_neg (by simpa using hcg)]
    dsimp only
    split
    · exact .inl (state_enqueueReady _ p)
    · right
      simp [parkLink, setParkNext, block]
  next => exact .inl (state_enqueueReady k p)

theorem touches_schedWake : Touches p k (k.schedWake p) := by
  unfold schedWake
  split
  · exact (Touches.entity k p (fun x => { x with waitReason := .none, wakeTick := 0 }) rfl).trans
      (touches_enqueueFresh _ p)
  · exact .refl p k

theorem touches_rqRemove : Touches p k (k.rqRemove p) := by
  unfold rqRemove
  dsimp only
  split
  · exact .refl p k
  · exact ((Touches.entity k p _ rfl).trans (touches_rqDequeue _ _ p)).trans
      (Touches.entity _ p _ rfl)

theorem state_rqRemove : ((k.rqRemove p).procs p).state = (k.procs p).state := by
  unfold rqRemove
  dsimp only
  split
  · rfl
  · rw [procs_modify_self, procs_rqDequeue, procs_modify_self]

theorem touches_cgDetach : Touches p k (k.cgDetach p) := by
  unfold cgDetach
  refine Touches.trans ?_ (Touches.entity _ p _ rfl)
  cases (k.procs p).cg with
  | none => exact Touches.refl p k
  | some c =>
    dsimp only
    split
    · exact Touches.setCg k p c _
    · exact Touches.refl p k

theorem touches_account : Touches p k (k.account p) := by
  unfold account
  exact Touches.trans (Touches.setRq k p _ _) (Touches.entity _ p _ rfl)

theorem touches_putPrev : Touches p k (k.putPrev p) := by
  unfold putPrev
  dsimp only
  split
  · refine (touches_account k p).trans ?_
    unfold putRunning
    dsimp only
    refine (Touches.entity _ p readyAgain rfl).trans
      (((onlyCgs_cgChargeRuntime _ p (k.unaccounted p)).touches p).trans ?_)
    split
    · exact touches_cgPark _ p
    · exact touches_rqEnqueue _ _ p
  · exact touches_account k p

theorem pickCpu_lt : k.pickCpu p < nrRq := by
  unfold pickCpu lowestCpu
  cases h : (List.range nrRq).find? fun i => (k.cpuMaskOf p).getLsbD i with
  | none => decide
  | some i => exact List.mem_range.mp (List.mem_of_find?_eq_some h)

end

theorem clampCpu_lt (cpu : ℤ) : clampCpu cpu < nrRq := by
  unfold clampCpu
  split
  · omega
  · decide

theorem homeCpu_bounds (k : Kernel) (p : ℕ) : 0 ≤ k.homeCpu p ∧ k.homeCpu p < nrRq := by
  unfold homeCpu
  simp only
  split
  · have := k.pickCpu_lt p
    omega
  · omega

def homeOf (k : Kernel) (p : ℕ) : Option ℕ :=
  if (k.procs p).state = .ready then some (k.procs p).rqCpu.toNat else none

/-- Task `p`, which was in no queue, is ready on the queue of its `rqCpu`, or parked. -/
structure Requeued (home : ℕ → Option ℕ) (p : ℕ) (k k' : Kernel) : Prop where
  touches : Touches p k k'
  queues : Queues k' (update home p (k'.homeOf p))
  state : (k'.procs p).state = .ready ∧ 0 ≤ (k'.procs p).rqCpu ∧ (k'.procs p).rqCpu < nrRq ∨
    (k'.procs p).state = .blocked ∧ (k'.procs p).waitReason = .cgroup
  onCpu : (k'.procs p).onCpu = (k.procs p).onCpu

theorem Requeued.of_modify {f : Proc → Proc}
    (hf : f (k.procs p) = { k.procs p with toEntity := (f (k.procs p)).toEntity })
    (hCpu : (f (k.procs p)).onCpu = (k.procs p).onCpu) (h : Requeued home p (k.modify p f) k') :
    Requeued home p k k' :=
  ⟨(Touches.entity k p f hf).trans h.touches, h.queues, h.state, by
    rw [h.onCpu, procs_modify_self, hCpu]⟩

section Enqueue

variable (hQ : Queues k home) (hp : home p = none)
  (hPid : ∀ a, home a ≠ none → (k.procs a).pid ≠ (k.procs p).pid)
include hQ hp hPid

theorem Queues.enqueueReady : Requeued home p k (k.enqueueReady p) := by
  have hSet : Touches p k (k.settle p) := Touches.entity k p _ rfl
  have hCpu : ((k.settle p).procs p).rqCpu = k.homeCpu p := by simp [settle]
  have hOn : ((k.settle p).procs p).onCpu = (k.procs p).onCpu := by simp [settle]
  have hPlaced := place_eq ((k.settle p).rqs (k.homeCpu p).toNat) ((k.settle p).procs p)
  have hEq : k.enqueueReady p = ((k.settle p).rqEnqueue (k.homeCpu p).toNat p).modify p
      (.setState .ready) := by
    rw [← hCpu]
    rfl
  have hProc : (k.enqueueReady p).procs p =
      (place ((k.settle p).rqs (k.homeCpu p).toNat) ((k.settle p).procs p)).setState .ready := by
    rw [procs_enqueueReady_self, hCpu]
  have hQueued : Queues ((k.settle p).rqEnqueue (k.homeCpu p).toNat p)
      (update home p (some (k.homeCpu p).toNat)) := by
    have hSettled : Queues (k.settle p) home := hQ.modify _ (.inl hp)
    refine hSettled.rqEnqueue hp fun a ha => ?_
    rw [hSet.pid, hSet.pid]
    exact hPid a (by simp [ha])
  refine ⟨touches_enqueueReady k p, ?_, .inl ?_, ?_⟩
  · have hHome : (k.enqueueReady p).homeOf p = some (k.homeCpu p).toNat := by
      rw [homeOf, hProc, setState, if_pos rfl, hPlaced.2.2.1, hCpu]
    rw [hHome, hEq]
    exact hQueued.modify _ (.inr ⟨rfl, rfl⟩)
  · rw [hProc, setState, hPlaced.2.2.1, hCpu]
    exact ⟨rfl, k.homeCpu_bounds p⟩
  · rw [hProc, setState, hPlaced.2.2.2, hOn]

omit hPid in
theorem Queues.parkLink (c : ℕ) (hState : (k.procs p).state = .blocked)
    (hWait : (k.procs p).waitReason = .cgroup) : Requeued home p k (k.parkLink c p) := by
  have hProc : (k.parkLink c p).procs p = (k.procs p).setParkNext (k.cgs c).parkHead := by
    simp [Kernel.parkLink]
  have hLinked : Touches p k (k.modify p (.setParkNext (k.cgs c).parkHead)) :=
    Touches.entity k p _ rfl
  refine ⟨hLinked.trans (Touches.setCg _ p c _), ?_, .inr ?_, ?_⟩
  · have hHome : (k.parkLink c p).homeOf p = home p := by
      rw [homeOf, hProc, hp, if_neg (by simp [setParkNext, hState])]
    rw [hHome, update_eq_self]
    exact (OnlyCgs.setCg _ c _).queues (hQ.modify _ (.inl hp))
  · rw [hProc]
    exact ⟨hState, hWait⟩
  · rw [hProc]
    rfl

theorem Queues.cgPark (hcg : (k.procs p).cg ≠ none) : Requeued home p k (k.cgPark p) := by
  unfold Kernel.cgPark
  rw [if_neg (by simpa using hcg)]
  have hSet : Touches p k (k.modify p fun x => (x.block .cgroup).setParkNext (-1)) :=
    Touches.entity k p _ rfl
  have hQ' : Queues (k.modify p fun x => (x.block .cgroup).setParkNext (-1)) home :=
    hQ.modify _ (.inl hp)
  refine Requeued.of_modify (f := fun x => (x.block .cgroup).setParkNext (-1)) rfl rfl ?_
  simp only
  split
  · refine hQ'.enqueueReady hp fun a ha => ?_
    rw [hSet.pid, hSet.pid]
    exact hPid a ha
  · refine hQ'.parkLink hp _ ?_ ?_
    · rw [procs_modify_self]
      rfl
    · rw [procs_modify_self]
      rfl

theorem Queues.enqueueFresh : Requeued home p k (k.enqueueFresh p) := by
  unfold Kernel.enqueueFresh
  split_ifs with h
  · exact hQ.cgPark hp hPid (cg_of_cgChainThrottled h)
  · exact hQ.enqueueReady hp hPid

end Enqueue

/-- The two choices of a walk are tasks of `l`. -/
def Picked.From (a : Picked) (l : List ℕ) : Prop := ∀ x, a.elig = some x ∨ a.fb = some x → x ∈ l

section

variable {l : List ℕ} {a : Picked} (h : a.From l) (vtime : Word)
include h

theorem Picked.From.consider {y : ℕ} (hy : y ∈ l) : (a.consider k vtime y).From l := by
  intro x hx
  unfold Picked.consider at hx
  dsimp only at hx
  split at hx <;> split at hx
  · rcases hx with hx | hx
    · exact Option.some.inj hx ▸ hy
    · exact h x (.inr hx)
  · exact h x hx
  · rcases hx with hx | hx
    · exact h x (.inl hx)
    · exact Option.some.inj hx ▸ hy
  · exact h x hx

theorem Picked.From.trPick {t : Treap ℕ} (ht : ∀ x ∈ t.toList, x ∈ l) :
    (trPick k vtime t a).From l := by
  induction t generalizing a with
  | nil => exact h
  | node left y right ihl ihr =>
    have hLeft := ihl h fun x hx => ht x (by simp [hx])
    rw [Kernel.trPick]
    dsimp only
    split
    · exact h
    split
    · exact hLeft
    · exact ihr (hLeft.consider vtime (ht y (by simp))) fun x hx => ht x (by simp [hx])

end

theorem rqPickBest_cases (k : Kernel) (q : ℕ) :
    k.rqPickBest q = (none, k) ∨ ∃ p ∈ (k.rqs q).root.toList, k.rqPickBest q = (some p,
      (k.modify p fun x => { x with vlag := (k.rqs q).vtime - x.vruntime }).rqDequeue q p) := by
  have hStart : Picked.From {} (k.rqs q).root.toList := fun x hx => by simp at hx
  have hPicked := hStart.trPick (k := k) (k.rqs q).vtime fun _ hx => hx
  unfold rqPickBest
  dsimp only
  split
  · exact .inl rfl
  next p hp => exact .inr ⟨p, hPicked p ((Option.or_eq_some_iff.mp hp).imp_right And.right), rfl⟩

structure Taken (home : ℕ → Option ℕ) (p : ℕ) (k k' : Kernel) : Prop where
  touches : Touches p k k'
  queued : home p ≠ none
  queues : Queues k' (update home p none)
  state : (k'.procs p).state = (k.procs p).state
  onCpu : (k'.procs p).onCpu = (k.procs p).onCpu

theorem Queues.rqPickBest (hQ : Queues k home) (q : ℕ) :
    k.rqPickBest q = (none, k) ∨ ∃ p, (k.rqPickBest q).1 = some p ∧ home p = some q ∧
      Taken home p k (k.rqPickBest q).2 ∧
      ((k.rqPickBest q).2.procs p).rqCpu = (k.procs p).rqCpu := by
  rcases rqPickBest_cases k q with hNone | ⟨p, hp, hPick⟩
  · exact .inl hNone
  · have hHome : home p = some q := (hQ.mem q p).mp hp
    rw [hPick]
    refine .inr ⟨p, rfl, hHome, ⟨?_, by simp [hHome], ?_, ?_, ?_⟩, ?_⟩
    · exact (Touches.entity k p _ rfl).trans (touches_rqDequeue _ q p)
    · exact (hQ.modify _ (.inr ⟨rfl, rfl⟩)).rqDequeue hHome
    · simp [procs_rqDequeue]
    · simp [procs_rqDequeue]
    · simp [procs_rqDequeue]

theorem Queues.pickNext (hQ : Queues k home) (mine : ℕ) :
    k.pickNext mine = (none, k) ∨ ∃ p, (k.pickNext mine).1 = some p ∧
      Taken home p k (k.pickNext mine).2 ∧ ((k.pickNext mine).2.procs p).rqCpu = mine := by
  have hMove : ∀ {p : ℕ} {k' : Kernel} {f : Proc → Proc}, Taken home p k k' →
      f (k'.procs p) = { k'.procs p with toEntity := (f (k'.procs p)).toEntity } →
      (f (k'.procs p)).state = (k'.procs p).state → (f (k'.procs p)).onCpu = (k'.procs p).onCpu →
      Taken home p k (k'.modify p f) := fun {p k' f} h hf hState hCpu =>
    ⟨h.touches.trans (Touches.entity k' p f hf), h.queued,
      h.queues.modify _ (.inl (update_self p _ _)),
      by rw [procs_modify_self, hState, h.state], by rw [procs_modify_self, hCpu, h.onCpu]⟩
  unfold Kernel.pickNext
  rcases hQ.rqPickBest mine with hNone | ⟨p, hSome, -, hTaken, -⟩
  · rw [hNone]
    simp only
    split
    · exact .inl rfl
    · rename_i b _
      rcases hQ.rqPickBest b with hNone | ⟨p, hSome, -, hTaken, -⟩
      · rw [hNone]
        exact .inl rfl
      · obtain ⟨k', hPick⟩ : ∃ k', k.rqPickBest b = (some p, k') := ⟨_, Prod.ext hSome rfl⟩
        rw [hPick] at hTaken ⊢
        refine .inr ⟨p, rfl, ?_, by simp⟩
        exact hMove
          (f := fun x => { x with vruntime := (k'.rqs mine).vtime - x.vlag, rqCpu := mine })
          hTaken rfl rfl rfl
  · obtain ⟨k', hPick⟩ : ∃ k', k.rqPickBest mine = (some p, k') := ⟨_, Prod.ext hSome rfl⟩
    rw [hPick] at hTaken ⊢
    refine .inr ⟨p, rfl, ?_, by simp⟩
    exact hMove (f := fun x => { x with rqCpu := mine }) hTaken rfl rfl rfl

end Gnos.Kernel
