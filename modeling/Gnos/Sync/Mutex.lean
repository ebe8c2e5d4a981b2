import Gnos.ProofKit.Linked
import Gnos.ProofKit.Runs

/-! The kernel's sleeping mutex, `src/kernel/mutex.c`, with any number of tasks and processors.  A
step is what happens under the mutex's spinlock or the scheduler's lock.  The mutex is a line: the
owner, and then the waiters in the order in which they came. -/

namespace Gnos.Sync

open ProofKit Function List

/-- `mutex_t` and the links of its waiters.  The counter is a natural number: it counts entries of
the process table. -/
structure Mutex (τ : Type) where
  owner : Option τ
  waiters : Option τ
  mutexNext : τ → Option τ
  count : ℕ

inductive Phase (τ : Type) where
  /-- Outside, and not in possession as far as it knows. -/
  | out
  /-- In `mutex_lock`, in the queue of waiters and still running. -/
  | queued
  /-- In `mutex_lock`, with `PROC_BLOCKED`. -/
  | parked
  /-- In `mutex_lock`, ready to run again. -/
  | woken
  /-- Between the return from a lock and the unlock. -/
  | inside
  /-- In `mutex_unlock`, before `sched_wake` of the task it has made the owner. -/
  | handing (next : τ)
  deriving DecidableEq

/-- The task has called `mutex_lock`, had to wait and has not returned. -/
def Phase.Locking {τ : Type} (x : Phase τ) : Prop := x = .queued ∨ x = .parked ∨ x = .woken

namespace Mutex

variable {τ : Type} [DecidableEq τ] [Fintype τ]

omit [DecidableEq τ] in
def chain (m : Mutex τ) : List τ := walk m.mutexNext (Fintype.card τ) m.waiters

/-- The slow path of `mutex_lock`: the caller goes behind the last waiter. -/
def enqueue (m : Mutex τ) (t : τ) : Mutex τ :=
  let m := { m with mutexNext := Function.update m.mutexNext t none }
  match m.waiters with
  | some _ =>
    { m with mutexNext := updateAt m.mutexNext m.chain.getLast? (some t), count := m.count + 1 }
  | none => { m with waiters := some t, count := m.count + 1 }

omit [Fintype τ] in
def acquire (m : Mutex τ) (t : τ) : Mutex τ := { m with owner := some t }

omit [Fintype τ] in
def release (m : Mutex τ) : Mutex τ := { m with owner := none }

omit [Fintype τ] in
def handOff (m : Mutex τ) (n : τ) : Mutex τ where
  owner := some n
  waiters := m.mutexNext n
  mutexNext := Function.update m.mutexNext n none
  count := m.count - 1

omit [Fintype τ] in
/-- The end of `mutex_lock` after its sleep. -/
def returned (m : Mutex τ) (t : τ) : Mutex τ :=
  { m with mutexNext := Function.update m.mutexNext t none }

end Mutex

/-- The mutex, where every task is, and the line of those who have come and not left. -/
structure System (τ : Type) where
  m : Mutex τ
  phase : τ → Phase τ
  line : List τ

inductive MutexOp (τ : Type) where
  | lock (t : τ)
  | trylock (t : τ)
  | unlock (t : τ)
  /-- The critical section of `sched_block`. -/
  | park (t : τ)
  /-- `sched_wake` at the end of `mutex_unlock`. -/
  | wake (t : τ)
  /-- Any other waker: `proc_signal`, the timer, the end of another task. -/
  | rouse (t : τ)
  /-- The scheduler runs a task that was woken up. -/
  | resume (t : τ)

namespace System

variable {τ : Type} [DecidableEq τ]

def setPhase (s : System τ) (t : τ) (x : Phase τ) : System τ :=
  { s with phase := Function.update s.phase t x }

def setM (s : System τ) (m : Mutex τ) : System τ := { s with m := m }

def setLine (s : System τ) (l : List τ) : System τ := { s with line := l }

/-- `sched_wake`: a task that is not blocked is left alone. -/
def schedWake (s : System τ) (t : τ) : System τ :=
  if s.phase t = .parked then s.setPhase t .woken else s

/-- Whether the task runs outside the functions of the mutex, so that it may call one. -/
def Calls (s : System τ) (t : τ) : Prop := s.phase t = .out ∨ s.phase t = .inside

instance (s : System τ) (t : τ) : Decidable (s.Calls t) := inferInstanceAs (Decidable (_ ∨ _))

/-- `mutex_trylock`, and the fast path of `mutex_lock`. -/
def take (s : System τ) (t : τ) : System τ :=
  ((s.setM (s.m.acquire t)).setPhase t .inside).setLine (s.line ++ [t])

/-- `mutex_unlock` up to the release of the spinlock. -/
def unlock (s : System τ) (t : τ) : System τ :=
  if s.m.owner ≠ some t then s.setPhase t .out
  else
    match s.m.waiters with
    | some n => ((s.setM (s.m.handOff n)).setPhase t (.handing n)).setLine s.line.tail
    | none => ((s.setM s.m.release).setPhase t .out).setLine s.line.tail

def exec [Fintype τ] (s : System τ) : MutexOp τ → System τ
  | .lock t =>
    if s.Calls t then
      if s.m.owner = none then s.take t
      else ((s.setM (s.m.enqueue t)).setPhase t .queued).setLine (s.line ++ [t])
    else s
  | .trylock t => if s.Calls t ∧ s.m.owner = none then s.take t else s
  | .unlock t => if s.Calls t then s.unlock t else s
  | .park t => if s.phase t = .queued then s.setPhase t .parked else s
  | .wake t =>
    match s.phase t with
    | .handing n => (s.setPhase t .out).schedWake n
    | _ => s
  | .rouse t => s.schedWake t
  | .resume t => if s.phase t = .woken then (s.setM (s.m.returned t)).setPhase t .inside else s

/-- The condition on one step: nobody locks what it owns, a hand-off goes to a task that is blocked,
and no other waker meets a task that is blocked here. -/
def Sound (s : System τ) : MutexOp τ → Prop
  | .lock t => s.m.owner ≠ some t
  | .unlock t => s.m.owner = some t → ∀ n ∈ s.m.waiters, s.phase n = .parked
  | .rouse t => s.phase t ≠ .parked
  | _ => True

instance (s : System τ) : (op : MutexOp τ) → Decidable (s.Sound op)
  | .lock t => inferInstanceAs (Decidable (s.m.owner ≠ some t))
  | .trylock _ => inferInstanceAs (Decidable True)
  | .unlock t =>
    inferInstanceAs (Decidable (s.m.owner = some t → ∀ n ∈ s.m.waiters, s.phase n = .parked))
  | .park _ => inferInstanceAs (Decidable True)
  | .wake _ => inferInstanceAs (Decidable True)
  | .rouse t => inferInstanceAs (Decidable (s.phase t ≠ .parked))
  | .resume _ => inferInstanceAs (Decidable True)

omit [DecidableEq τ] in
/-- The state after `mutex_init`. -/
def Start (s : System τ) : Prop :=
  s.m.owner = none ∧ s.m.waiters = none ∧ s.m.count = 0 ∧ (∀ t, s.phase t = .out) ∧ s.line = []

def Reached [Fintype τ] : System τ → Prop := Reaches Start Sound exec

end System

namespace Mutex

variable {τ : Type} [DecidableEq τ] [Fintype τ] {m : Mutex τ} {l : List τ}

structure Queue (m : Mutex τ) (l : List τ) : Prop where
  linked : Linked m.mutexNext l
  nodup : l.Nodup
  head : m.waiters = l.head?
  count : m.count = l.length

omit [DecidableEq τ] in
theorem Queue.chain (h : m.Queue l) : m.chain = l := by
  rw [Mutex.chain, h.head]
  exact h.linked.walk_eq (h.nodup.length_le_card)

theorem Queue.enqueue (h : m.Queue l) {t : τ} (ht : t ∉ l) :
    (m.enqueue t).Queue (l ++ [t]) ∧ (m.enqueue t).owner = m.owner := by
  have hCleared : Linked (update m.mutexNext t none) l :=
    h.linked.congr fun x hx => update_of_ne (ne_of_mem_of_not_mem hx ht) _ _
  have hNodup : (l ++ [t]).Nodup := by
    rw [← concat_eq_append]
    exact h.nodup.concat ht
  have hCount : m.count + 1 = (l ++ [t]).length := by
    rw [length_append, length_singleton, h.count]
  have hPush := h.linked.pushBack h.nodup ht
  unfold Mutex.enqueue
  cases hHead : m.waiters with
  | none =>
    have hEmpty : l = [] := head?_eq_none_iff.mp (h.head.symm.trans hHead)
    subst hEmpty
    exact ⟨⟨hPush, hNodup, rfl, hCount⟩, rfl⟩
  | some _ =>
    have hChain : Mutex.chain { m with mutexNext := update m.mutexNext t none } = l :=
      Queue.chain ⟨hCleared, h.nodup, h.head, h.count⟩
    dsimp only
    rw [hHead] at hChain
    rw [hChain]
    refine ⟨⟨hPush, hNodup, ?_, hCount⟩, rfl⟩
    rw [head?_append, ← h.head, hHead]
    rfl

omit [Fintype τ] in
theorem Queue.handOff {n : τ} (h : m.Queue (n :: l)) : (m.handOff n).Queue l := by
  have hn : n ∉ l := (nodup_cons.mp h.nodup).1
  refine ⟨h.linked.tail.congr fun _ hx => ?_, (nodup_cons.mp h.nodup).2, h.linked.head, ?_⟩
  · exact update_of_ne (ne_of_mem_of_not_mem hx hn) _ _
  · show m.count - 1 = l.length
    rw [h.count]
    rfl

omit [Fintype τ] in
theorem Queue.returned (h : m.Queue l) {t : τ} (ht : t ∉ l) : (m.returned t).Queue l :=
  ⟨h.linked.congr fun _ hx => update_of_ne (ne_of_mem_of_not_mem hx ht) _ _, h.nodup, h.head,
    h.count⟩

end Mutex

namespace System

variable {τ : Type}

/-- What a task's phase says about its place in the line. -/
def Placed (s : System τ) (t : τ) : Phase τ → Prop
  | .out => t ∉ s.line
  | .queued => t ∈ s.line.tail
  | .parked => t ∈ s.line.tail ∨ s.line.head? = some t ∧ ∃ u, s.phase u = .handing t
  | .woken => s.line.head? = some t
  | .inside => s.line.head? = some t
  | .handing n => t ∉ s.line ∧ s.line.head? = some n ∧ s.phase n = .parked

/-- The first in the line is the owner, the others are the waiters, and one hand-off at most is on
its way. -/
structure Inv (s : System τ) : Prop where
  nodup : s.line.Nodup
  owner : s.m.owner = s.line.head?
  queue : s.m.Queue s.line.tail
  placed : ∀ t, s.Placed t (s.phase t)
  single : ∀ t u n k, s.phase t = .handing n → s.phase u = .handing k → t = u

variable {s s' : System τ} {t u : τ} {x : Phase τ}

/-- The others keep their places when the first in the line stays, nobody leaves, and the task that
changes is neither blocked nor handing over. -/
theorem Placed.frame (hPlaced : s.Placed u x) (hHead : s'.line.head? = s.line.head?)
    (hTail : u ∈ s.line.tail → u ∈ s'.line.tail) (hOut : u ∉ s.line → u ∉ s'.line)
    (hParked : ∀ v, s.phase v = .parked → s'.phase v = .parked)
    (hHanding : ∀ v n, s.phase v = .handing n → s'.phase v = .handing n) : s'.Placed u x := by
  cases x with
  | out => exact hOut hPlaced
  | queued => exact hTail hPlaced
  | parked =>
    refine hPlaced.imp hTail fun hFirst => ⟨hHead.trans hFirst.1, ?_⟩
    obtain ⟨v, hv⟩ := hFirst.2
    exact ⟨v, hHanding v u hv⟩
  | woken => exact hHead.trans hPlaced
  | inside => exact hHead.trans hPlaced
  | handing n => exact ⟨hOut hPlaced.1, hHead.trans hPlaced.2.1, hParked n hPlaced.2.2⟩

section

variable (h : s.Inv)
include h

theorem Inv.at_phase (hx : s.phase t = x) : s.Placed t x :=
  hx ▸ h.placed t

theorem Inv.notMem_line (hCalls : s.Calls t) (hOwner : s.m.owner ≠ some t) :
    s.phase t = .out ∧ t ∉ s.line := by
  rcases hCalls with hOut | hInside
  · exact ⟨hOut, h.at_phase hOut⟩
  · exact absurd (h.owner.trans (h.at_phase hInside)) hOwner

theorem Inv.first_notMem (hFirst : s.line.head? = some t) : t ∉ s.line.tail := by
  obtain ⟨l, hLine⟩ := head?_eq_some_iff.mp hFirst
  have hNodup := h.nodup
  rw [hLine] at hNodup ⊢
  exact (nodup_cons.mp hNodup).1

end

variable [DecidableEq τ]

theorem phase_of_ne (hu : u ≠ t) : update s.phase t x u = s.phase u :=
  update_of_ne hu _ _

/-- Another phase than that of the task that changes stays. -/
theorem phase_kept {y : Phase τ} (ht : s.phase t ≠ y) (hu : s.phase u = y) :
    update s.phase t x u = y := by
  have hne : u ≠ t := fun hEq => ht (hEq ▸ hu)
  exact (phase_of_ne hne).trans hu

theorem Inv.single_update (h : s.Inv) (hx : ∀ n, x ≠ .handing n) (v w n k : _)
    (hv : update s.phase t x v = .handing n) (hw : update s.phase t x w = .handing k) : v = w := by
  have hOld : ∀ y j, update s.phase t x y = .handing j → s.phase y = .handing j := by
    intro y j hy
    rcases eq_or_ne y t with rfl | hne
    · rw [update_self] at hy
      exact absurd hy (hx j)
    · rwa [phase_of_ne hne] at hy
  exact h.single v w n k (hOld v n hv) (hOld w k hw)

theorem Inv.setPhase (h : s.Inv) {m : Mutex τ} {y : Phase τ} (hOld : s.phase t = y)
    (hOwner : m.owner = s.m.owner) (hQueue : m.Queue s.line.tail) (hParked : y ≠ .parked)
    (hHanding : ∀ n, y ≠ .handing n) (hx : ∀ n, x ≠ .handing n)
    (hPlaced : ((s.setM m).setPhase t x).Placed t x) : ((s.setM m).setPhase t x).Inv := by
  subst hOld
  refine ⟨h.nodup, hOwner.trans h.owner, hQueue, fun u => ?_, h.single_update hx⟩
  show Placed _ u (update s.phase t x u)
  rcases eq_or_ne u t with rfl | hu
  · rw [update_self]
    exact hPlaced
  · rw [phase_of_ne hu]
    exact (h.placed u).frame rfl id id (fun v => phase_kept hParked) fun v n =>
      phase_kept (hHanding n)

theorem Inv.take (h : s.Inv) (hCalls : s.Calls t) (hFree : s.m.owner = none) : (s.take t).Inv := by
  have hLine : s.line = [] := head?_eq_none_iff.mp (h.owner.symm.trans hFree)
  have hNew : (s.take t).line = [t] := by
    show s.line ++ [t] = [t]
    rw [hLine]
    rfl
  have hQueue := h.queue
  rw [hLine] at hQueue
  refine ⟨?_, ?_, ?_, fun u => ?_, h.single_update fun n => nofun⟩
  · rw [hNew]
    exact nodup_singleton t
  · rw [hNew]
    rfl
  · rw [hNew]
    exact { hQueue with }
  show Placed _ u (update s.phase t .inside u)
  rcases eq_or_ne u t with rfl | hu
  · rw [update_self]
    show (take s u).line.head? = some u
    rw [hNew]
    rfl
  · rw [phase_of_ne hu]
    -- With an empty line everybody is outside.
    have hOld := h.placed u
    cases hPhase : s.phase u <;> rw [hPhase] at hOld <;> simp only [Placed, hLine] at hOld ⊢ <;>
      simp at hOld
    rw [hNew]
    simpa using hu

theorem Inv.enqueue [Fintype τ] (h : s.Inv) (hCalls : s.Calls t) (hOther : s.m.owner ≠ some t)
    (hOwned : s.m.owner ≠ none) :
    (((s.setM (s.m.enqueue t)).setPhase t .queued).setLine (s.line ++ [t])).Inv := by
  obtain ⟨hOut, hNot⟩ := h.notMem_line hCalls hOther
  obtain ⟨o, l, hLine⟩ : ∃ o l, s.line = o :: l := by
    cases hLine : s.line with
    | nil => exact absurd (h.owner.trans (by rw [hLine]; rfl)) hOwned
    | cons o l => exact ⟨o, l, rfl⟩
  have hHead : (s.line ++ [t]).head? = s.line.head? := by rw [hLine]; rfl
  have hTail : (s.line ++ [t]).tail = s.line.tail ++ [t] := by rw [hLine]; rfl
  obtain ⟨hQueue, hOwner⟩ := h.queue.enqueue fun hMem => hNot (mem_of_mem_tail hMem)
  refine ⟨?_, ?_, ?_, fun u => ?_, h.single_update fun n => nofun⟩
  · show (s.line ++ [t]).Nodup
    rw [← concat_eq_append]
    exact h.nodup.concat hNot
  · exact hOwner.trans (h.owner.trans hHead.symm)
  · show (s.m.enqueue t).Queue (s.line ++ [t]).tail
    rw [hTail]
    exact hQueue
  show Placed _ u (update s.phase t .queued u)
  rcases eq_or_ne u t with rfl | hu
  · rw [update_self]
    show u ∈ (s.line ++ [u]).tail
    rw [hTail]
    simp
  · rw [phase_of_ne hu]
    have hKept : ∀ y, y ≠ .out → ∀ v, s.phase v = y → update s.phase t .queued v = y :=
      fun y hy v => phase_kept (hOut ▸ hy.symm)
    refine (h.placed u).frame hHead (fun hMem => ?_) (fun hNot => ?_) (hKept .parked nofun)
      fun v n => hKept (.handing n) nofun v
    · show u ∈ (s.line ++ [t]).tail
      rw [hTail]
      exact mem_append_left _ hMem
    · show u ∉ s.line ++ [t]
      simpa using ⟨hNot, hu⟩

omit [DecidableEq τ] in
theorem Inv.owner_calls (h : s.Inv) (hCalls : s.Calls t) (hOwner : s.m.owner = some t) :
    s.phase t = .inside ∧ (∃ l, s.line = t :: l) ∧ ∀ u n, s.phase u ≠ .handing n := by
  have hHead : s.line.head? = some t := h.owner.symm.trans hOwner
  have hLine : ∃ l, s.line = t :: l := head?_eq_some_iff.mp hHead
  have hInside : s.phase t = .inside := by
    rcases hCalls with hOut | hInside
    · obtain ⟨l, hl⟩ := hLine
      have hNot : t ∉ s.line := h.at_phase hOut
      rw [hl] at hNot
      exact absurd mem_cons_self hNot
    · exact hInside
  refine ⟨hInside, hLine, fun u n hu => ?_⟩
  obtain ⟨-, hFirst, hParked⟩ := h.at_phase hu
  obtain rfl : t = n := Option.some.inj (hHead.symm.trans hFirst)
  rw [hInside] at hParked
  cases hParked

omit [DecidableEq τ] in
/-- Nobody else is on the way while the owner runs: they are out, or wait in the line. -/
theorem Inv.others (h : s.Inv) {l : List τ} (hLine : s.line = t :: l)
    (hNobody : ∀ u n, s.phase u ≠ .handing n) {u : τ} (hu : u ≠ t) :
    s.phase u = .out ∧ u ∉ l ∨ (s.phase u = .queued ∨ s.phase u = .parked) ∧ u ∈ l := by
  have hOld := h.placed u
  have hFirst : s.line.head? ≠ some u := by
    rw [hLine]
    exact fun hEq => hu (Option.some.inj hEq).symm
  cases hPhase : s.phase u <;> rw [hPhase] at hOld <;> unfold Placed at hOld
  case out =>
    rw [hLine] at hOld
    exact .inl ⟨rfl, fun hMem => hOld (mem_cons_of_mem t hMem)⟩
  case queued =>
    rw [hLine] at hOld
    exact .inr ⟨.inl rfl, hOld⟩
  case parked =>
    have hMem := hOld.resolve_right fun hOld => hFirst hOld.1
    rw [hLine] at hMem
    exact .inr ⟨.inr rfl, hMem⟩
  case woken => exact absurd hOld hFirst
  case inside => exact absurd hOld hFirst
  case handing n => exact absurd hPhase (hNobody u n)

section

variable (h : s.Inv) (hCalls : s.Calls t)
include h hCalls

theorem Inv.release (hOwner : s.m.owner = some t) (hNone : s.m.waiters = none) :
    (((s.setM s.m.release).setPhase t .out).setLine s.line.tail).Inv := by
  obtain ⟨hInside, ⟨l, hLine⟩, hNobody⟩ := h.owner_calls hCalls hOwner
  obtain rfl : l = [] := by
    have hHead := h.queue.head
    rw [hNone, hLine] at hHead
    exact head?_eq_none_iff.mp hHead.symm
  have hQueue := h.queue
  rw [hLine] at hQueue ⊢
  refine ⟨nodup_nil, rfl, { hQueue with }, fun u => ?_, h.single_update fun n => nofun⟩
  have hOut : update s.phase t .out u = .out := by
    rcases eq_or_ne u t with rfl | hu
    · exact update_self ..
    · rw [phase_of_ne hu]
      exact ((h.others hLine hNobody hu).resolve_right fun hIn => not_mem_nil hIn.2).1
  show Placed _ u (update s.phase t .out u)
  rw [hOut]
  exact not_mem_nil

theorem Inv.handOff (hOwner : s.m.owner = some t) {n : τ} (hNext : s.m.waiters = some n)
    (hParked : s.phase n = .parked) :
    (((s.setM (s.m.handOff n)).setPhase t (.handing n)).setLine s.line.tail).Inv := by
  obtain ⟨hInside, ⟨l, hLine⟩, hNobody⟩ := h.owner_calls hCalls hOwner
  obtain ⟨k, rfl⟩ : ∃ k, l = n :: k := by
    have hHead := h.queue.head
    rw [hNext, hLine] at hHead
    exact head?_eq_some_iff.mp hHead.symm
  have hOthers := fun u => h.others hLine hNobody (u := u)
  have hQueue := h.queue
  have hNodup := h.nodup
  rw [hLine] at hQueue hNodup ⊢
  have hNot : t ∉ n :: k := (nodup_cons.mp hNodup).1
  have hne : n ≠ t := fun hEq => hNot (hEq ▸ mem_cons_self)
  refine ⟨(nodup_cons.mp hNodup).2, rfl, hQueue.handOff, fun u => ?_, fun v w i j hv hw => ?_⟩
  · show Placed _ u (update s.phase t (.handing n) u)
    rcases eq_or_ne u t with rfl | hu
    · rw [update_self]
      exact ⟨hNot, rfl, (phase_of_ne hne).trans hParked⟩
    · rw [phase_of_ne hu]
      rcases hOthers u hu with ⟨hPhase, hMem⟩ | ⟨hPhase | hPhase, hMem⟩ <;> rw [hPhase]
      · exact hMem
      · rcases mem_cons.mp hMem with rfl | hMem
        · rw [hParked] at hPhase
          cases hPhase
        · exact hMem
      · rcases mem_cons.mp hMem with rfl | hMem
        · exact .inr ⟨rfl, t, update_self ..⟩
        · exact .inl hMem
  · have hOnly : ∀ y i, update s.phase t (.handing n) y = .handing i → y = t := by
      intro y i hy
      by_contra hyt
      rw [phase_of_ne hyt] at hy
      exact hNobody y i hy
    rw [hOnly v i hv, hOnly w j hw]

theorem Inv.unlock (hSound : s.m.owner = some t → ∀ n ∈ s.m.waiters, s.phase n = .parked) :
    (s.unlock t).Inv := by
  unfold System.unlock
  split_ifs with hRefused
  · obtain ⟨hOut, hNot⟩ := h.notMem_line hCalls hRefused
    exact h.setPhase hOut rfl h.queue nofun (fun n => nofun) (fun n => nofun) hNot
  · rw [not_not] at hRefused
    split
    · rename_i n hNext
      exact h.handOff hCalls hRefused hNext (hSound hRefused n hNext)
    · rename_i hNone
      exact h.release hCalls hRefused hNone

end

theorem Inv.wake (h : s.Inv) {n : τ} (hHanding : s.phase t = .handing n) :
    ((s.setPhase t .out).schedWake n).Inv ∧ ((s.setPhase t .out).schedWake n).phase n = .woken := by
  obtain ⟨hNot, hFirst, hParked⟩ := h.at_phase hHanding
  have hne : n ≠ t := fun hEq => by
    rw [hEq, hHanding] at hParked
    cases hParked
  have hWake : (s.setPhase t .out).schedWake n = (s.setPhase t .out).setPhase n .woken :=
    if_pos ((phase_of_ne hne).trans hParked)
  rw [hWake]
  refine ⟨⟨h.nodup, h.owner, h.queue, fun u => ?_, fun v w i j hv hw => ?_⟩, update_self ..⟩
  · show Placed _ u (update (update s.phase t .out) n .woken u)
    rcases eq_or_ne u n with rfl | hun
    · rw [update_self]
      exact hFirst
    rw [update_of_ne hun]
    rcases eq_or_ne u t with rfl | hut
    · rw [update_self]
      exact hNot
    rw [update_of_ne hut]
    have hOld := h.placed u
    cases hPhase : s.phase u with
    | handing i => exact absurd (h.single u t i n hPhase hHanding) hut
    | parked =>
      rw [hPhase] at hOld
      rcases hOld with hOld | hOld
      · exact .inl hOld
      · exact absurd (Option.some.inj (hFirst.symm.trans hOld.1)).symm hun
    | _ =>
      rw [hPhase] at hOld
      exact hOld
  · have hOnly : ∀ y i, update (update s.phase t .out) n .woken y ≠ .handing i := by
      intro y i hy
      rw [update_apply] at hy
      split at hy
      · cases hy
      rw [update_apply] at hy
      split at hy
      · cases hy
      · rename_i hyt
        exact hyt (h.single y t i n hy hHanding)
    exact absurd hv (hOnly v i)

theorem Inv.exec [Fintype τ] (h : s.Inv) {op : MutexOp τ} (hSound : s.Sound op) :
    (s.exec op).Inv := by
  unfold System.exec
  cases op with
  | lock t =>
    dsimp only
    split
    · rename_i hCalls
      split_ifs with hFree
      · exact h.take hCalls hFree
      · exact h.enqueue hCalls hSound hFree
    · exact h
  | trylock t =>
    dsimp only
    split_ifs with hBoth
    · exact h.take hBoth.1 hBoth.2
    · exact h
  | unlock t =>
    dsimp only
    split_ifs with hCalls
    · exact h.unlock hCalls hSound
    · exact h
  | park t =>
    dsimp only
    split_ifs with hQueued
    · have hWaits : t ∈ s.line.tail := h.at_phase hQueued
      exact h.setPhase hQueued rfl h.queue nofun (fun n => nofun) (fun n => nofun) (.inl hWaits)
    · exact h
  | wake t =>
    dsimp only
    split
    · rename_i n hHanding
      exact (h.wake hHanding).1
    · exact h
  | rouse t =>
    have hStays : s.schedWake t = s := if_neg hSound
    dsimp only
    rw [hStays]
    exact h
  | resume t =>
    dsimp only
    split_ifs with hWoken
    · have hFirst : s.line.head? = some t := h.at_phase hWoken
      exact h.setPhase hWoken rfl (h.queue.returned (h.first_notMem hFirst)) nofun (fun n => nofun)
        (fun n => nofun) hFirst
    · exact h

omit [DecidableEq τ] in
theorem Start.inv (h : s.Start) : s.Inv := by
  obtain ⟨hOwner, hWaiters, hCount, hOut, hLine⟩ := h
  refine ⟨by rw [hLine]; exact nodup_nil, by rw [hLine, hOwner]; rfl, ?_, fun t => ?_,
    fun t u n k ht => ?_⟩
  · rw [hLine]
    exact ⟨linked_nil _, nodup_nil, hWaiters, hCount⟩
  · rw [hOut t]
    show t ∉ s.line
    rw [hLine]
    exact not_mem_nil
  · rw [hOut t] at ht
    cases ht

theorem Reached.inv [Fintype τ] (h : s.Reached) : s.Inv :=
  Reaches.invariant (fun _ hStart => hStart.inv) (fun _ _ hInv hSound => hInv.exec hSound) h

omit [DecidableEq τ] in
theorem Inv.mem_tail (h : s.Inv) (t : τ) :
    t ∈ s.line.tail ↔ (s.phase t).Locking ∧ s.m.owner ≠ some t := by
  rw [h.owner]
  have hPlaced := h.placed t
  constructor
  · intro hMem
    have hNotFirst : s.line.head? ≠ some t := fun hFirst => h.first_notMem hFirst hMem
    refine ⟨?_, hNotFirst⟩
    cases hPhase : s.phase t with
    | queued => exact .inl rfl
    | parked => exact .inr (.inl rfl)
    | woken => exact .inr (.inr rfl)
    | out => rw [hPhase] at hPlaced; exact absurd (mem_of_mem_tail hMem) hPlaced
    | inside => rw [hPhase] at hPlaced; exact absurd hPlaced hNotFirst
    | handing n => rw [hPhase] at hPlaced; exact absurd (mem_of_mem_tail hMem) hPlaced.1
  · rintro ⟨hQueued | hParked | hWoken, hNotFirst⟩
    · exact h.at_phase hQueued
    · rcases h.at_phase hParked with hMem | hFirst
      · exact hMem
      · exact absurd hFirst.1 hNotFirst
    · exact absurd (h.at_phase hWoken) hNotFirst

/-- In every state that sound steps reach: a task about to return from a lock, or returned, is the
owner, so at most one is inside; the waiters are those who have called `mutex_lock` and are not the
owner, and become it in the order in which they came; and a blocked owner has a wake-up on its
way. -/
theorem mutex_handoff [Fintype τ] (h : s.Reached) :
    (∀ t, s.phase t = .woken ∨ s.phase t = .inside → s.m.owner = some t) ∧
      (∀ t u, s.phase t = .inside → s.phase u = .inside → t = u) ∧
      (∀ t, t ∈ s.m.chain ↔ (s.phase t).Locking ∧ s.m.owner ≠ some t) ∧
      (s.m.owner = s.line.head? ∧ s.m.chain = s.line.tail ∧ s.m.count = s.line.tail.length) ∧
      ∀ t, s.m.owner = some t → s.phase t = .queued ∨ s.phase t = .parked →
        ∃ u, s.phase u = .handing t ∧ (s.exec (.wake u)).phase t = .woken := by
  have hInv := h.inv
  have hOwner : ∀ t, s.phase t = .woken ∨ s.phase t = .inside → s.m.owner = some t := by
    rintro t (hWoken | hInside)
    · exact hInv.owner.trans (hInv.at_phase hWoken)
    · exact hInv.owner.trans (hInv.at_phase hInside)
  refine ⟨hOwner, fun t u ht hu => ?_, fun t => ?_,
    ⟨hInv.owner, hInv.queue.chain, hInv.queue.count⟩, fun t hOwned hBlocked => ?_⟩
  · exact Option.some.inj ((hOwner t (.inr ht)).symm.trans (hOwner u (.inr hu)))
  · rw [hInv.queue.chain]
    exact hInv.mem_tail t
  · have hNot : t ∉ s.line.tail := fun hMem => ((hInv.mem_tail t).mp hMem).2 hOwned
    rcases hBlocked with hQueued | hParked
    · exact absurd (hInv.at_phase hQueued) hNot
    · rcases hInv.at_phase hParked with hMem | ⟨-, u, hu⟩
      · exact absurd hMem hNot
      · refine ⟨u, hu, ?_⟩
        unfold exec
        dsimp only
        rw [hu]
        exact (hInv.wake hu).2

def twoTasks : System (Fin 2) where
  m := ⟨none, none, fun _ => none, 0⟩
  phase := fun _ => .out
  line := []

local instance : NeZero 2 := ⟨two_ne_zero⟩

def handedOver : List (MutexOp (Fin 2)) :=
  [.lock 0, .lock 1, .park 1, .unlock 0, .wake 0, .resume 1]

theorem mutex_handoff_handedOver : (handedOver.foldl exec twoTasks).phase 1 = .inside ∧
      (handedOver.foldl exec twoTasks).m.owner = some 1 := by
  have hReached : (handedOver.foldl exec twoTasks).Reached :=
    Reaches.foldl (.start ⟨rfl, rfl, rfl, fun _ => rfl, rfl⟩) _ (by decide +kernel)
  have hInside : (handedOver.foldl exec twoTasks).phase 1 = .inside := by decide +kernel
  exact ⟨hInside, (mutex_handoff hReached).1 1 (.inr hInside)⟩

/-- A signal wakes a waiter up, and it returns from `mutex_lock` while the other task is inside. -/
theorem signal_breaks_exclusion :
    ∃ ops : List (MutexOp (Fin 2)), ops = [.lock 0, .lock 1, .park 1, .rouse 1, .resume 1] ∧
      (ops.foldl exec twoTasks).phase 0 = .inside ∧ (ops.foldl exec twoTasks).phase 1 = .inside ∧
      (ops.foldl exec twoTasks).m.owner = some 0 :=
  ⟨_, rfl, by decide +kernel, by decide +kernel, by decide +kernel⟩

end System

end Gnos.Sync
