import Gnos.Proc.Drift
import Gnos.Seccomp.Model

/-! Confinement over whole runs: what a task was once held to holds for it and for the tasks it
makes. -/

namespace Gnos.Kernel

open ProofKit Seccomp List Option

variable {k k' k'' : Kernel} {p q : ℕ}

/-- Only the tasks of `gone` may lose their filters. -/
def KeepsConfined (gone : List ℕ) (k k' : Kernel) : Prop :=
  ∀ q ∉ gone, (k'.procs q).toConfined = (k.procs q).toConfined

namespace KeepsConfined

variable {gone gone' : List ℕ}

theorem mono (h : KeepsConfined gone k k') (hSub : gone ⊆ gone') : KeepsConfined gone' k k' :=
  fun q hq => h q fun hMem => hq (hSub hMem)

theorem closed : Closed (fun _ => True) (KeepsConfined gone) :=
  .same Proc.toConfined (fun _ _ h => h.confined) fun _ _ hf => by cases hf <;> exact fun _ => rfl

theorem modify (k : Kernel) (p : ℕ) (f : Proc → Proc) (hf : ∀ x, (f x).toConfined = x.toConfined) :
    KeepsConfined gone k (k.modify p f) := fun q _ => by
  by_cases hq : q = p
  · rw [hq, procs_modify_self, hf]
  · rw [procs_modify_of_ne _ _ hq]

theorem procTeardown (k : Kernel) (p : ℕ) : KeepsConfined [p] k (k.procTeardown p) := fun q hq => by
  have hqp : q ≠ p := fun hEq => hq (by simp [hEq])
  have hFree : (k.modify p .freeFilter).procs q = k.procs q := procs_modify_of_ne _ _ hqp
  have hDetach := closed.touches trivial (touches_cgDetach (k.modify p .freeFilter) p) q not_mem_nil
  unfold Kernel.procTeardown Kernel.adopt
  dsimp only
  rw [← hFree, ← hDetach]
  split <;> rfl

end KeepsConfined

/-- Who is alive was alive before, and as confined. -/
def Loyal (k k' : Kernel) : Prop :=
  ∀ q, Alive k' q → Alive k q ∧ (k'.procs q).toConfined = (k.procs q).toConfined

namespace Loyal

theorem of_eq {gone : List ℕ} (hRoster : k'.roster = k.roster) (hKeeps : KeepsConfined gone k k')
    (hGone : ∀ q ∈ gone, ¬ Alive k' q) : Loyal k k' := fun q hq =>
  ⟨(alive_congr (by rw [hRoster])).mp hq, hKeeps q fun hMem => hGone q hMem hq⟩

theorem trans (h : Loyal k k') (h' : Loyal k' k'') : Loyal k k'' := fun q hq => by
  obtain ⟨hAlive', hConf'⟩ := h' q hq
  obtain ⟨hAlive, hConf⟩ := h q hAlive'
  exact ⟨hAlive, hConf'.trans hConf⟩

theorem of_alter {gone : List ℕ} {f : ℕ → Member → Member} (hRoster : k'.roster = k.roster.alter f)
    (hf : ∀ j m, m.dead → (f j m).dead) (hKeeps : KeepsConfined gone k k')
    (hGone : ∀ j m, j ∈ gone → (f j m).dead) : Loyal k k' := fun q hq => by
  refine ⟨alive_of_alter hRoster hf hq, hKeeps q fun hMem => ?_⟩
  obtain ⟨m, hm, hDead⟩ := (alive_iff k' q).mp hq
  rw [hRoster] at hm
  obtain ⟨m0, -, rfl⟩ := Roster.member_alter_eq_some.mp hm
  rw [hGone q m0 hMem] at hDead
  exact absurd hDead (by decide)

section

variable (hUsed : (k.procs p).state ≠ .unused)
include hUsed

theorem exitLeader (status : ℤ) : Loyal k (k.exitLeader p status) := by
  have hRoster := roster_exitLeader hUsed status
  simp only [Roster.condemn, Roster.adopt, Roster.die, Roster.alter_alter] at hRoster
  refine of_alter hRoster (fun j m hDead => ?_)
    (KeepsConfined.closed.exitLeader (fun _ => trivial) k p
    (KeepsConfined.procTeardown · p) status) fun j m hj => ?_
  · split_ifs <;> first | rfl | exact hDead
  · rw [if_pos (mem_singleton.mp hj)]

theorem exitForLeader {leader : ℕ} (hLeader : (k.procs leader).state ≠ .unused) (status : ℤ) :
    Loyal k (k.exitForLeader p leader status) := by
  have hRoster := roster_exitForLeader hUsed hLeader status
  simp only [Roster.condemn, Roster.adopt, Roster.die, Roster.alter_alter] at hRoster
  have hTear : ∀ q ∈ [p, leader], ∀ k,
      KeepsConfined [p, leader] k (k.procTeardown q) := fun q hq k =>
    (KeepsConfined.procTeardown k q).mono (by simpa using hq)
  refine of_alter hRoster (fun j m hDead => ?_)
    (KeepsConfined.closed.exitForLeader (fun _ => trivial) k p
    (hTear p (by simp)) status (hTear leader (by simp))) fun j m hj => ?_
  · split_ifs <;> first | rfl | exact hDead
  · rcases mem_pair.mp hj with rfl | rfl
    · rw [if_pos rfl]
    · split_ifs <;> first | rfl | contradiction

theorem procExitGroup (status : ℤ) : Loyal k (k.procExitGroup p status) := by
  unfold Kernel.procExitGroup
  split
  · exact exitLeader hUsed status
  · split
    · exact fun q hq => ⟨hq, rfl⟩
    next l hFind =>
      rw [procByPid_eq_find] at hFind
      obtain ⟨ml, hl, -⟩ := Roster.member_of_find hFind
      exact exitForLeader hUsed (of_member hl).1 status

theorem procExit (status : ℤ) : Loyal k (k.procExit p status) := by
  by_cases hLeader : (k.procs p).pid = (k.procs p).tgid
  · have hGroup := procExitGroup hUsed status
    unfold Kernel.procExit
    rwa [if_pos hLeader]
  · have hRoster := roster_exitThread hUsed hLeader status
    simp only [Roster.adopt, Roster.die, Roster.alter_alter] at hRoster
    refine of_alter hRoster (fun j m hDead => ?_)
      (KeepsConfined.closed.exitThread (fun _ => trivial) k p
      (KeepsConfined.procTeardown · p) status hLeader) fun j m hj => ?_
    · split_ifs <;> first | rfl | exact hDead
    · rw [if_pos (mem_singleton.mp hj)]

end

theorem procExecve (k : Kernel) (p : ℕ) : Loyal k (k.procExecve p) := by
  have hRoster := roster_procExecve k p
  simp only [Roster.condemn, Roster.renew, Roster.alter_alter] at hRoster
  have hKeeps : KeepsConfined [] k (k.procExecve p) :=
    KeepsConfined.closed.procExecve (fun _ => trivial) k p
  refine of_alter hRoster (fun j m hDead => ?_) hKeeps (by simp)
  split_ifs <;> exact hDead

theorem procWaitpid (hAlive : Alive k p) (pid : ℤ) (untraced nohang : Bool) :
    Loyal k (k.procWaitpid p pid untraced nohang) := by
  have hKeeps : KeepsConfined [] k (k.procWaitpid p pid untraced nohang) :=
    KeepsConfined.closed.procWaitpid (fun _ => trivial) k p pid untraced nohang
  rcases roster_procWaitpid hAlive pid untraced nohang with hSame | ⟨c, -, -, -, hReap⟩
  · exact of_eq hSame hKeeps (by simp)
  · intro q hq
    obtain ⟨m, hm, hDead⟩ := (alive_iff _ q).mp hq
    rw [hReap] at hm
    exact ⟨(alive_iff k q).mpr ⟨m, (Roster.member_drop_eq_some.mp hm).1, hDead⟩, hKeeps q (by simp)⟩

theorem quiet {op : TaskOp} (hQuiet : op.quiet) (hOn : op.Enabled k) : Loyal k (op.exec k) := by
  exact of_eq (TaskOp.roster_exec hQuiet hOn)
    (@KeepsConfined.closed [] |>.quiet (fun _ => trivial) hQuiet) (by simp)

end Loyal

theorem confined_procClone (k : Kernel) (p q : ℕ) (thread vfork admitted : Bool)
    (weight : BitVec 32) : ((k.procClone p thread vfork admitted weight).procs q).toConfined =
      if k.freeSlot = some q then {} else (k.procs q).toConfined := by
  cases hFree : k.freeSlot with
  | none =>
    unfold procClone newTask
    rw [hFree]
    rfl
  | some i =>
    rw [KeepsConfined.closed.procClone hFree trivial trivial (fun k' c => KeepsConfined.closed.trans
      (.modify k' i (fun x => { x with cg := some c, schedWeight := weight }) fun _ => rfl)
      (.modify _ i (.inherit (k.procs p) thread) fun _ => rfl)) vfork admitted q not_mem_nil]
    by_cases hq : q = i
    · rw [hq, procs_procAlloc_self, if_pos rfl]
    · rw [procs_procAlloc_of_ne k hq, if_neg fun hEq => hq (some.inj hEq).symm]

inductive Rule
  | strict
  | filter (f : List SockFilter)
  deriving DecidableEq

def Rule.allows (wild : BitVec 32 → BitVec 32) (nr : Word) (args : Args) (rule : Rule) : Prop :=
  (nr.setWidth 32).setWidth 64 = nr ∧
    match rule with
    | .strict => strictAllows (nr.setWidth 32)
    | .filter f =>
      action wild f ⟨nr.setWidth 32, args⟩ = retAllow ∨
        action wild f ⟨nr.setWidth 32, args⟩ = retLog

def inForce (c : Confined) : Option Rule :=
  match c.seccMode with
  | .disabled => none
  | .strict => some .strict
  | .filter => c.seccompFilter.map .filter

/-- A system call with what it finds: the memory beyond the data of a filter, whether a fork is
admitted and with which weight, whether there is an image to execute, the program that `seccomp`
points to and where there is memory for it. -/
structure Call where
  p : ℕ
  entry : Regs
  now : Regs
  wild : BitVec 32 → BitVec 32 := fun _ => 0
  admitted : Bool := true
  weight : BitVec 32 := 1024
  image : Bool := true
  fprog : Option (List SockFilter) := none
  room : ℕ → Bool := fun _ => true

def creates (nr : Word) : Bool := nr = 56 ∨ nr = 57 ∨ nr = 58

/-- The calls that change the process table or the confinement of a task; the others are left
out. -/
def dispatchCall (k : Kernel) (c : Call) (nr : Word) (args : Args) : Kernel :=
  if nr = 56 then
    k.procClone c.p (args.a1.getLsbD 16) (args.a1.getLsbD 14) c.admitted c.weight
  else if nr = 57 ∨ nr = 58 then k.procFork c.p c.admitted c.weight
  else if nr = 59 then if c.image then k.procExecve c.p else k
  else if nr = 60 then k.procExit c.p (args.a1.setWidth 32).toInt
  else if nr = 231 then k.procExitGroup c.p (args.a1.setWidth 32).toInt
  else if nr = 61 then
    k.procWaitpid c.p (args.a1.setWidth 32).toInt (args.a3.getLsbD 1) (args.a3.getLsbD 0)
  else if nr = 157 then (k.seccompPrctl c.p (args.a1.setWidth 32) args.a2).2
  else if nr = 317 then (k.sysSeccomp c.p args.a1 args.a2 c.fprog c.room).2
  else k

def Call.outcome (c : Call) (k : Kernel) : Outcome := k.syscallHandler c.p c.wild c.entry c.now

def execCall (k : Kernel) (c : Call) : Kernel :=
  match c.outcome k with
  | .refused _ => k
  | .killed => (k.modify c.p (.setTermSig 31)).procExit c.p 159
  | .dispatched nr args => k.dispatchCall c nr args

/-- The process table, with all the rules that a task, or a task it comes from, has been under. -/
structure Sandbox where
  k : Kernel
  rules : ℕ → List Rule

namespace Sandbox

inductive Op
  | call (c : Call)
  /-- Outside of a system call. -/
  | turn (op : TaskOp)

def inherited (s : Sandbox) (c : Call) : ℕ → List Rule :=
  match c.outcome s.k, s.k.freeSlot with
  | .dispatched nr _, some i =>
    if creates nr then Function.update s.rules i (s.rules c.p) else s.rules
  | _, _ => s.rules

def note (k : Kernel) (rules : ℕ → List Rule) (q : ℕ) : List Rule :=
  (inForce (k.procs q).toConfined).toList ++ rules q

def exec (s : Sandbox) : Op → Sandbox
  | .call c => ⟨s.k.execCall c, note (s.k.execCall c) (s.inherited c)⟩
  | .turn op => ⟨op.exec s.k, note (op.exec s.k) s.rules⟩

/-- Calls are made by tasks that run, also by one that a thread of its group has ended meanwhile;
without a call a task may be ended by a signal. -/
def Enabled (s : Sandbox) : Op → Prop
  | .call c => (s.k.procs c.p).state = .running ∨ (s.k.procs c.p).state = .zombie
  | .turn op => op.Possible s.k ∧ match op with
      | .fork .. | .clone .. | .execve _ | .waitpid .. => False
      | _ => True

/-- No thread of the group of `p` that the filter is given to is in strict mode. -/
def NoStrictThread (k : Kernel) (p : ℕ) : Prop :=
  ∀ i < maxProcs, (k.procs i).state ≠ .unused ∧ (k.procs i).tgid = (k.procs p).tgid ∧
    (k.procs i).noNewPrivs ∧ i ≠ p → (k.procs i).seccMode ≠ .strict

instance (k : Kernel) (p : ℕ) : Decidable (NoStrictThread k p) := by
  unfold NoStrictThread
  infer_instance

/-- A task that was ended makes no call any more, only tasks that are not confined make tasks, a
filter is not given to a thread in strict mode, and no filter asks for a tracer. -/
def Careful (s : Sandbox) : Op → Prop
  | .call c =>
    (s.k.procs c.p).state ≠ .zombie ∧ (creates c.now.rax → (s.k.procs c.p).seccMode = .disabled) ∧
      (c.now.rax = 317 → NoStrictThread s.k c.p) ∧
      ∀ f ∈ (s.k.procs c.p).seccompFilter,
        action c.wild f ⟨c.now.rax.setWidth 32, checkedArgs c.entry c.now⟩ ≠ retTrace
  | .turn op => op.Living s.k

instance (s : Sandbox) (op : Op) : Decidable (s.Enabled op) := by
  cases op with
  | call c =>
    exact inferInstanceAs
      (Decidable ((s.k.procs c.p).state = .running ∨ (s.k.procs c.p).state = .zombie))
  | turn op => rcases op <;> unfold Enabled <;> infer_instance

instance (s : Sandbox) (op : Op) : Decidable (s.Careful op) := by
  rcases op <;> unfold Careful <;> infer_instance

structure Start (s : Sandbox) : Prop where
  init : OnlyInit s.k
  free : (s.k.procs 0).toConfined = {}
  rules : ∀ q, s.rules q = []

/-- A call is dispatched only if all the rules of the caller let it through. -/
def Confines (s : Sandbox) (c : Call) : Prop :=
  ∀ nr args, c.outcome s.k = .dispatched nr args → ∀ rule ∈ s.rules c.p, rule.allows c.wild nr args

/-- A task that is alive is under every rule that was noted for it. -/
structure Inv (s : Sandbox) : Prop where
  held : ∀ q, Alive s.k q → ∀ rule ∈ s.rules q, inForce (s.k.procs q).toConfined = some rule
  program : ∀ q, Alive s.k q → ∀ f, (s.k.procs q).seccompFilter = some f → f ≠ []

variable {s : Sandbox} {c : Call} {nr : Word}

theorem dispatched_eq {args : Args} (h : c.outcome k = .dispatched nr args) :
    nr = c.now.rax ∧ args = dispatchedArgs nr c.entry c.now ∧ nr.toNat < 2 ^ 31 ∧
      seccompCheck c.wild (k.procs c.p).toConfined ⟨nr.setWidth 32,
      checkedArgs c.entry c.now⟩ = 0 := by
  unfold Call.outcome syscallHandler at h
  dsimp only at h
  split at h
  · cases h
  · split at h
    · cases h
    next hCheck =>
      split at h
      next hLt =>
        injection h with hNr hArgs
        subst hNr
        exact ⟨rfl, hArgs.symm, hLt, not_not.mp hCheck⟩
      next => cases h

theorem setWidth_of_int (h : nr.toNat < 2 ^ 31) : (nr.setWidth 32).setWidth 64 = nr := by
  apply BitVec.eq_of_toNat_eq
  simp only [BitVec.toNat_setWidth]
  omega

theorem mem_note {rules : ℕ → List Rule} {rule : Rule} :
    rule ∈ note k rules q ↔ inForce (k.procs q).toConfined = some rule ∨ rule ∈ rules q := by
  simp [note, mem_toList]

theorem seccompPrctl_cases (k : Kernel) (p : ℕ) (option : BitVec 32) (arg2 : Word) :
    let k' := (k.seccompPrctl p option arg2).2
    k' = k ∨ k' = k.modify p .setNoNewPrivs ∨ (k.procs p).seccMode ≠ .filter ∧
    k' = k.modify p .setStrict := by
  unfold seccompPrctl
  dsimp only
  split
  · split
    · exact .inl rfl
    · exact .inr (.inl rfl)
  · split
    · exact .inl rfl
    · split
      · split
        · exact .inl rfl
        next hMode =>
          split
          · exact .inr (.inr ⟨hMode, rfl⟩)
          · split
            · exact .inl rfl
            · split <;> exact .inl rfl
      · split <;> exact .inl rfl

/-- What the loop over the threads does: a thread without a filter may get `f`, or none. -/
structure Synced (f : List SockFilter) (p : ℕ) (k k' : Kernel) : Prop where
  state : ∀ q, (k'.procs q).state = (k.procs q).state
  tgid : ∀ q, (k'.procs q).tgid = (k.procs q).tgid
  noNewPrivs : ∀ q, (k'.procs q).noNewPrivs = (k.procs q).noNewPrivs
  confined : ∀ q, (k'.procs q).toConfined = (k.procs q).toConfined ∨
    (q < maxProcs ∧ (k.procs q).state ≠ .unused ∧ (k.procs q).tgid = (k.procs p).tgid ∧
        (k.procs q).noNewPrivs ∧ q ≠ p) ∧ (k.procs q).seccMode ≠ .filter ∧
      ((k'.procs q).toConfined = ⟨.filter, some f, true⟩ ∨
      (k'.procs q).toConfined = ⟨.disabled, none, true⟩)

theorem Synced.refl (f : List SockFilter) (p : ℕ) (k : Kernel) : Synced f p k k :=
  ⟨fun _ => rfl, fun _ => rfl, fun _ => rfl, fun _ => .inl rfl⟩

theorem Synced.tsyncOne {f : List SockFilter} (h : Synced f p k k') (room : ℕ → Bool) {i : ℕ}
    (hi : i < maxProcs) : Synced f p k (Kernel.tsyncOne p f room k' i) := by
  unfold Kernel.tsyncOne
  dsimp only
  split
  · exact h
  next hThread =>
    split
    next hOpen =>
      simp only [not_or, h.state, h.tgid, ne_eq, not_not] at hThread
      obtain ⟨hip, hUsed, hTgid⟩ := hThread
      have hPrivs : (k.procs i).noNewPrivs := (h.noNewPrivs i).symm.trans hOpen.2
      have hMode : (k.procs i).seccMode ≠ .filter := by
        rcases h.confined i with hSame | ⟨-, hMode, -⟩
        · rw [← hSame]
          exact hOpen.1
        · exact hMode
      refine ⟨fun q => ?_, fun q => ?_, fun q => ?_, fun q => ?_⟩
      all_goals by_cases hq : q = i
      · rw [hq, procs_modify_self, ← h.state i]
        split <;> rfl
      · rw [procs_modify_of_ne _ _ hq, h.state q]
      · rw [hq, procs_modify_self, ← h.tgid i]
        split <;> rfl
      · rw [procs_modify_of_ne _ _ hq, h.tgid q]
      · rw [hq, procs_modify_self, ← h.noNewPrivs i]
        split <;> rfl
      · rw [procs_modify_of_ne _ _ hq, h.noNewPrivs q]
      · rw [hq, procs_modify_self]
        refine .inr ⟨⟨hi, hUsed, hTgid, hPrivs, hip⟩, hMode, ?_⟩
        split
        · exact .inl (by simp only [Proc.setFilter, hOpen.2])
        · exact .inr (by simp only [Proc.unfiltered, hOpen.2])
      · rw [procs_modify_of_ne _ _ hq]
        exact h.confined q
    next => exact h

theorem synced_tsync (f : List SockFilter) (p : ℕ) (room : ℕ → Bool) (k : Kernel) :
    Synced f p k ((range maxProcs).foldl (Kernel.tsyncOne p f room) k) :=
  foldlRecOn _ _ (Synced.refl f p k) fun _ h _ hi => h.tsyncOne room (mem_range.mp hi)

theorem update_freeSlot (k : Kernel) (rules : ℕ → List Rule) (p q : ℕ) : (match k.freeSlot with
      | some i => Function.update rules i (rules p)
      | none => rules) q = if k.freeSlot = some q then rules p else rules q := by
  cases hFree : k.freeSlot with
  | none => simp
  | some i =>
    by_cases hq : q = i
    · simp [hq]
    · simp [hq, Ne.symm hq]

section

variable (h : Inv s)
include h

omit h in
theorem alive_of_call (hOn : s.Enabled (.call c)) (hCareful : s.Careful (.call c)) :
    Alive s.k c.p :=
  alive_of_running (hOn.resolve_right hCareful.1)

theorem Inv.confines (hOn : s.Enabled (.call c)) (hCareful : s.Careful (.call c)) :
    s.Confines c := by
  intro nr args hDispatched rule hRule
  have hAlive : Alive s.k c.p := alive_of_call hOn hCareful
  obtain ⟨hNr, hArgs, hLt, hCheck⟩ := dispatched_eq hDispatched
  have hForce := h.held c.p hAlive rule hRule
  obtain ⟨-, hCreates, -, hTrace⟩ := hCareful
  refine ⟨setWidth_of_int hLt, ?_⟩
  unfold inForce at hForce
  unfold seccompCheck at hCheck
  cases hMode : (s.k.procs c.p).seccMode with
  | disabled => simp [hMode] at hForce
  | strict =>
    simp only [hMode, some.injEq] at hForce hCheck
    subst hForce
    by_contra hDenied
    rw [if_neg hDenied] at hCheck
    exact absurd hCheck (by decide)
  | filter =>
    simp only [hMode] at hForce hCheck
    obtain ⟨f, hFilter, rfl⟩ := map_eq_some_iff.mp hForce
    simp only [hFilter] at hCheck
    have hNonempty : f.length ≠ 0 := fun hLen =>
      h.program c.p hAlive f hFilter (length_eq_zero_iff.mp hLen)
    rw [if_neg hNonempty] at hCheck
    -- a task under a filter does not clone, so the arguments are the ones checked
    have hNotClone : nr ≠ sysClone := fun hEq => by
      have hDisabled := hCreates (by rw [← hNr, hEq]; decide)
      rw [hMode] at hDisabled
      exact absurd hDisabled (by decide)
    rw [dispatchedArgs, if_neg hNotClone] at hArgs
    rw [hArgs]
    have hNotTrace := hTrace f hFilter
    rw [← hNr] at hNotTrace
    rcases ofResult_eq_zero hCheck with hAllow | hLog | hTraced
    · exact .inl hAllow
    · exact .inr hLog
    · exact absurd hTraced hNotTrace

theorem Inv.loyal (hLoyal : Loyal s.k k') : Inv ⟨k', note k' s.rules⟩ where
  held q hq rule hRule := by
    obtain ⟨hAlive, hConf⟩ := hLoyal q hq
    rcases mem_note.mp hRule with hForce | hOld
    · exact hForce
    · exact (congrArg inForce hConf).trans (h.held q hAlive rule hOld)
  program q hq f hf := by
    obtain ⟨hAlive, hConf⟩ := hLoyal q hq
    exact h.program q hAlive f ((congrArg Confined.seccompFilter hConf).symm.trans hf)

theorem Inv.create (hAlive : Alive s.k p) (hFree : (s.k.procs p).seccMode = .disabled)
    {rules : ℕ → List Rule}
    (hRules : ∀ q, rules q = if s.k.freeSlot = some q then s.rules p else s.rules q)
    (hConf : ∀ q, (k'.procs q).toConfined =
      if s.k.freeSlot = some q then {} else (s.k.procs q).toConfined)
    (hOld : ∀ q, s.k.freeSlot ≠ some q → Alive k' q → Alive s.k q) : Inv ⟨k', note k' rules⟩ := by
  have hNone : s.rules p = [] := by
    refine eq_nil_iff_forall_not_mem.mpr fun rule hRule => ?_
    have hForce := h.held p hAlive rule hRule
    simp [inForce, hFree] at hForce
  refine ⟨fun q hq rule hRule => ?_, fun q hq f hf => ?_⟩
  · rcases mem_note.mp hRule with hForce | hMem
    · exact hForce
    · rw [hRules q] at hMem
      rw [hConf q]
      split at hMem
      · rw [hNone] at hMem
        exact absurd hMem (by simp)
      next hNotNew =>
        rw [if_neg hNotNew]
        exact h.held q (hOld q hNotNew hq) rule hMem
  · have hFilter : (k'.procs q).toConfined.seccompFilter = _ :=
      congrArg Confined.seccompFilter (hConf q)
    have hf' : (k'.procs q).toConfined.seccompFilter = some f := hf
    rw [hf'] at hFilter
    split at hFilter
    · exact absurd hFilter (by simp)
    next hNotNew => exact h.program q (hOld q hNotNew hq) f hFilter.symm

theorem Inv.tighten (hState : ∀ q, (k'.procs q).state = (s.k.procs q).state)
    (hForce : ∀ q rule, Alive s.k q → inForce (s.k.procs q).toConfined = some rule →
      inForce (k'.procs q).toConfined = some rule)
    (hProgram : ∀ q f, (k'.procs q).seccompFilter = some f → (s.k.procs q).seccompFilter = some f ∨
      f ≠ []) : Inv ⟨k', note k' s.rules⟩ := by
  have hAlive : ∀ q, Alive k' q → Alive s.k q := fun q hq => by
    unfold Alive at hq ⊢
    rwa [← hState q]
  refine ⟨fun q hq rule hRule => ?_, fun q hq f hf => ?_⟩
  · rcases mem_note.mp hRule with hNow | hOld
    · exact hNow
    · exact hForce q rule (hAlive q hq) (h.held q (hAlive q hq) rule hOld)
  · rcases hProgram q f hf with hOld | hNew
    · exact h.program q (hAlive q hq) f hOld
    · exact hNew

theorem Inv.modify (p : ℕ) (f : Proc → Proc)
    (hState : (f (s.k.procs p)).state = (s.k.procs p).state)
    (hForce : ∀ rule, inForce (s.k.procs p).toConfined = some rule →
      inForce (f (s.k.procs p)).toConfined = some rule)
    (hProgram : ∀ g, (f (s.k.procs p)).seccompFilter = some g →
      (s.k.procs p).seccompFilter = some g ∨ g ≠ []) :
    Inv ⟨s.k.modify p f, note (s.k.modify p f) s.rules⟩ := by
  refine h.tighten (fun q => ?_) (fun q rule _ => ?_) fun q g => ?_
  all_goals by_cases hq : q = p
  · rw [hq, procs_modify_self, hState]
  · rw [procs_modify_of_ne _ _ hq]
  · rw [hq, procs_modify_self]
    exact hForce rule
  · rw [procs_modify_of_ne _ _ hq]
    exact id
  · rw [hq, procs_modify_self]
    exact hProgram g
  · rw [procs_modify_of_ne _ _ hq]
    exact .inl

theorem Inv.prctl (p : ℕ) (option : BitVec 32) (arg2 : Word) :
    Inv ⟨(s.k.seccompPrctl p option arg2).2, note (s.k.seccompPrctl p option arg2).2 s.rules⟩ := by
  rcases seccompPrctl_cases s.k p option arg2 with hSame | hPrivs | ⟨hMode, hStrict⟩
  · rw [hSame]
    exact h.loyal fun q hq => ⟨hq, rfl⟩
  · rw [hPrivs]
    exact h.modify p .setNoNewPrivs rfl (fun _ => id) fun _ => .inl
  · rw [hStrict]
    refine h.modify p .setStrict rfl (fun rule hForce => ?_) fun _ => .inl
    unfold inForce at hForce
    cases hOld : (s.k.procs p).seccMode with
    | disabled => simp [hOld] at hForce
    | strict =>
      simp only [hOld] at hForce
      exact hForce
    | filter => exact absurd hOld hMode

theorem Inv.synced {f : List SockFilter} (hf : f ≠ []) (hSynced : Synced f p s.k k')
    (hNoStrict : NoStrictThread s.k p) : Inv ⟨k', note k' s.rules⟩ := by
  refine h.tighten hSynced.state (fun q rule _ hForce => ?_) fun q g hg => ?_
  · rcases hSynced.confined q with hSame | ⟨⟨hLt, hThread⟩, hMode, -⟩
    · rw [hSame]
      exact hForce
    · -- the thread was free: it had no filter, and none is in strict mode
      have hNot := hNoStrict q hLt hThread
      unfold inForce at hForce
      cases hOld : (s.k.procs q).seccMode with
      | disabled => simp [hOld] at hForce
      | strict => exact absurd hOld hNot
      | filter => exact absurd hOld hMode
  · have hg' : (k'.procs q).toConfined.seccompFilter = some g := hg
    rcases hSynced.confined q with hSame | ⟨-, -, hNew | hNone⟩
    · rw [hSame] at hg'
      exact .inl hg'
    · rw [hNew] at hg'
      exact .inr (some.inj hg' ▸ hf)
    · rw [hNone] at hg'
      exact absurd hg' (by simp)

theorem Inv.sub {rules : ℕ → List Rule} (hSub : ∀ q, rules q ⊆ s.rules q) : Inv ⟨s.k, rules⟩ :=
  ⟨fun q hq rule hRule => h.held q hq rule (hSub q hRule), h.program⟩

theorem Inv.seccomp (p : ℕ) (op flags : Word) (fprog : Option (List SockFilter)) (room : ℕ → Bool)
    (hFree : (s.k.procs p).seccMode ≠ .strict) (hNoStrict : NoStrictThread s.k p) :
    Inv ⟨(s.k.sysSeccomp p op flags fprog room).2,
      note (s.k.sysSeccomp p op flags fprog room).2 s.rules⟩ := by
  have hSame : Inv ⟨s.k, note s.k s.rules⟩ := h.loyal fun q hq => ⟨hq, rfl⟩
  unfold sysSeccomp
  split
  · split
    · exact hSame
    · split
      · exact hSame
      next hMode =>
        split
        · exact hSame
        next f =>
          split
          · exact hSame
          next hLen =>
            have hf : f ≠ [] := fun hEq => hLen (.inl (by rw [hEq]; rfl))
            split
            · have hFilter : Inv ⟨s.k.modify p (.setFilter f),
                  note (s.k.modify p (.setFilter f)) s.rules⟩ := by
                refine h.modify p (.setFilter f) rfl (fun rule hForce => ?_) fun g hg =>
                  .inr (some.inj hg ▸ hf)
                unfold inForce at hForce
                cases hOld : (s.k.procs p).seccMode with
                | disabled => simp [hOld] at hForce
                | strict => exact absurd hOld hFree
                | filter => exact absurd hOld hMode
              split
              · have hNoStrict' : NoStrictThread (s.k.modify p (.setFilter f)) p := fun i hi => by
                  have hTgid : ((s.k.modify p (.setFilter f)).procs p).tgid =
                      (s.k.procs p).tgid := by
                    rw [procs_modify_self]
                    rfl
                  by_cases hip : i = p
                  · exact fun hThread => absurd hip hThread.2.2.2
                  · rw [procs_modify_of_ne _ _ hip, hTgid]
                    exact hNoStrict i hi
                refine (hFilter.synced hf (synced_tsync f p room _) hNoStrict').sub
                  fun q rule hRule => ?_
                rcases mem_note.mp hRule with hNow | hOld
                · exact mem_note.mpr (.inl hNow)
                · exact mem_note.mpr (.inr (mem_note.mpr (.inr hOld)))
              · exact hFilter
            · exact hSame
  · split
    · dsimp only
      split <;> exact hSame
    · exact hSame

theorem Inv.creation (args : Args) (hAlive : Alive s.k c.p)
    (hFree : (s.k.procs c.p).seccMode = .disabled) (hNr : creates nr) :
    Inv ⟨s.k.dispatchCall c nr args, note (s.k.dispatchCall c nr args) (match s.k.freeSlot with
      | some i => Function.update s.rules i (s.rules c.p)
      | none => s.rules)⟩ := by
  obtain ⟨thread, vfork, hMade⟩ : ∃ thread vfork,
      s.k.dispatchCall c nr args = s.k.procClone c.p thread vfork c.admitted c.weight := by
    unfold dispatchCall
    split
    · exact ⟨_, _, rfl⟩
    next hClone =>
      rw [if_pos ((of_decide_eq_true hNr).resolve_left hClone), procFork_eq]
      exact ⟨_, _, rfl⟩
  rw [hMade]
  exact h.create hAlive hFree (update_freeSlot s.k s.rules c.p)
    (fun q => confined_procClone s.k c.p q thread vfork c.admitted c.weight)
    fun q hq => alive_of_made (roster_procClone hAlive thread vfork c.admitted c.weight) hq

theorem Inv.dispatchCall (args : Args) (hAlive : Alive s.k c.p) (hNr : creates nr = false)
    (hFree : nr = 317 → (s.k.procs c.p).seccMode ≠ .strict)
    (hNoStrict : nr = 317 → NoStrictThread s.k c.p) :
    Inv ⟨s.k.dispatchCall c nr args, note (s.k.dispatchCall c nr args) s.rules⟩ := by
  simp only [creates, decide_eq_false_iff_not, not_or] at hNr
  obtain ⟨hClone, hFork, hVfork⟩ := hNr
  have hSame : Inv ⟨s.k, note s.k s.rules⟩ := h.loyal fun q hq => ⟨hq, rfl⟩
  unfold Kernel.dispatchCall
  rw [if_neg hClone, if_neg (not_or.mpr ⟨hFork, hVfork⟩)]
  split
  · split
    · exact h.loyal (Loyal.procExecve s.k c.p)
    · exact hSame
  · split
    · exact h.loyal (Loyal.procExit hAlive.1 _)
    · split
      · exact h.loyal (Loyal.procExitGroup hAlive.1 _)
      · split
        · exact h.loyal (Loyal.procWaitpid hAlive _ _ _)
        · split
          · exact h.prctl c.p _ _
          · split
            next hSeccomp => exact h.seccomp c.p _ _ _ _ (hFree hSeccomp) (hNoStrict hSeccomp)
            next => exact hSame

end

theorem loyal_killed (hUsed : (k.procs p).state ≠ .unused) :
    Loyal k ((k.modify p (.setTermSig 31)).procExit p 159) := by
  have hRoster : (k.modify p (.setTermSig 31)).roster = k.roster := roster_modify_of_eq _ rfl
  have hSig : Loyal k (k.modify p (.setTermSig 31)) :=
    @Loyal.of_eq _ _ [] hRoster (.modify k p _ fun _ => rfl) (by simp)
  exact hSig.trans (Loyal.procExit ((used_congr hRoster).mpr hUsed) 159)

theorem not_strict_of_check {wild : BitVec 32 → BitVec 32} {c : Confined} {args : Args}
    (h : seccompCheck wild c ⟨nr.setWidth 32, args⟩ = 0) (hNr : nr = 317) :
    c.seccMode ≠ .strict := by
  intro hMode
  unfold seccompCheck at h
  rw [hMode, hNr] at h
  change (if strictAllows ((317 : Word).setWidth 32) then (0 : ℤ) else -eInval) = 0 at h
  exact absurd h (by decide)

theorem Inv.call (h : Inv s) (hOn : s.Enabled (.call c)) (hCareful : s.Careful (.call c)) :
    Inv (s.exec (.call c)) := by
  have hAlive : Alive s.k c.p := alive_of_call hOn hCareful
  obtain ⟨-, hCreates, hTsync, -⟩ := hCareful
  unfold exec execCall inherited
  dsimp only
  cases hOutcome : c.outcome s.k with
  | refused ret => exact h.loyal fun q hq => ⟨hq, rfl⟩
  | killed => exact h.loyal (loyal_killed hAlive.1)
  | dispatched nr args =>
    obtain ⟨hNr, -, -, hCheck⟩ := dispatched_eq hOutcome
    rw [← hNr] at hCreates hTsync
    cases hMakes : creates nr with
    | true =>
      have hInv := h.creation args hAlive (hCreates hMakes) hMakes
      cases hFree : s.k.freeSlot <;> simpa [hFree, hMakes] using hInv
    | false =>
      have hInv := h.dispatchCall args hAlive hMakes (not_strict_of_check hCheck) hTsync
      cases hFree : s.k.freeSlot <;> simpa [hMakes] using hInv

theorem Inv.exec (h : Inv s) {op : Op} (hOn : s.Enabled op) (hCareful : s.Careful op) :
    Inv (s.exec op) := by
  cases op with
  | call c => exact h.call hOn hCareful
  | turn op =>
    obtain ⟨hPossible, hTurn⟩ := hOn
    have hOn := hPossible.enabled hCareful
    refine h.loyal ?_
    cases op with
    | fork | clone | execve | waitpid => exact hTurn.elim
    | exit p status => exact Loyal.procExit (alive_of_running hOn).1 status
    | exitGroup p status => exact Loyal.procExitGroup (alive_of_running hOn).1 status
    | block | stop | preempt | dispatch | wake | signal => exact Loyal.quiet rfl hOn

theorem Inv.start (h : s.Start) : Inv s where
  held q _ rule hRule := by
    rw [h.rules q] at hRule
    exact absurd hRule (by simp)
  program q hq f hf := by
    have hq0 : q = 0 := by_contra fun hne => hq.1 (h.init.others q hne)
    have hf' : (s.k.procs q).toConfined.seccompFilter = some f := hf
    rw [hq0, h.free] at hf'
    exact absurd hf' (by simp)

/-- In a run in which tasks that were ended make no calls, confined tasks make no tasks, and filters
are not given to threads in strict mode and do not ask for a tracer, every call that is dispatched
is allowed by all the rules that its task and those it comes from have been under. -/
theorem confinement_only_tightens {s : Sandbox}
    (h : Reaches Start (fun s op => s.Enabled op ∧ s.Careful op) exec s) :
    ∀ c, s.Enabled (.call c) → s.Careful (.call c) → s.Confines c := by
  have hInv : Inv s :=
    h.invariant (fun _ hStart => Inv.start hStart) fun _ _ hInv hOp => hInv.exec hOp.1 hOp.2
  exact fun c hOn hCareful => hInv.confines hOn hCareful

def callOf (p : ℕ) (nr a1 a2 : Word) (fprog : Option (List SockFilter)) : Call :=
  let regs : Regs :=
    { r15 := 0, r14 := 0, r13 := 0, r12 := 0, r11 := 0, r10 := 0, r9 := 0, r8 := 0, rbp := 0,
      rdi := a1,
      rsi := a2, rdx := 0, rcx := 0, rbx := 0, rax := nr, vector := 0, errcode := 0, rip := 0,
      cs := 0, rflags := 0, rsp := 0, ss := 0 }
  { p := p, entry := regs, now := regs, fprog := fprog }

/-- Denies `getpid` and allows everything else. -/
def denyGetpid : List SockFilter :=
  [⟨0x20, 0, 0, 0⟩, ⟨0x15, 0, 1, 39⟩, ⟨0x06, 0, 0, retErrno ||| 1⟩, ⟨0x06, 0, 0, retAllow⟩]

def installs : List Op :=
  [.call (callOf 0 157 38 1 none), .call (callOf 0 317 1 0 (some denyGetpid))]

def unconfined : Sandbox := ⟨initKernel, fun _ => []⟩

theorem start_unconfined : Start unconfined := ⟨onlyInit_initKernel, rfl, fun _ => rfl⟩

/-- Init is held to its filter. -/
theorem confinement_only_tightens_filter :
    (installs.foldl exec unconfined).Confines (callOf 0 39 0 0 none) := by
  refine confinement_only_tightens ((Reaches.start start_unconfined).foldl installs ?_) _ ?_ ?_
  · decide +kernel
  · decide +kernel
  · decide +kernel

/-- A task under a filter that denies `getpid` forks, and its child calls `getpid`. -/
theorem child_escapes_filter :
    ∃ s c, Reaches Start Enabled exec s ∧ s.Enabled (.call c) ∧ ¬ s.Confines c := by
  obtain ⟨s, hReach, hOn, hRule, hDispatched⟩ : ∃ s, Reaches Start Enabled exec s ∧
      s.Enabled (.call (callOf 1 39 0 0 none)) ∧ .filter denyGetpid ∈ s.rules 1 ∧
      (callOf 1 39 0 0 none).outcome s.k = .dispatched 39 ⟨0, 0, 0, 0, 0, 0⟩ :=
    ⟨_, (Reaches.start start_unconfined).foldl
      (installs ++ [.call (callOf 0 57 0 0 none), .turn (.dispatch 1)]) (by decide +kernel),
      by decide +kernel⟩
  refine ⟨s, callOf 1 39 0 0 none, hReach, hOn, fun h => ?_⟩
  have hDenied : ¬ (action (fun _ => 0) denyGetpid ⟨39, ⟨0, 0, 0, 0, 0, 0⟩⟩ = retAllow ∨
      action (fun _ => 0) denyGetpid ⟨39, ⟨0, 0, 0, 0, 0, 0⟩⟩ = retLog) := by decide +kernel
  exact hDenied (h _ _ hDispatched _ hRule).2

end Sandbox

end Gnos.Kernel
