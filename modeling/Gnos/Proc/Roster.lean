import Gnos.Proc.Life

/-! What the process table is for: who there is, whose child and in which group, who is sentenced
and who is dead.  Every function of the life of a task is an operation on this table. -/

namespace Gnos

open Function ProcState List

structure Member where
  pid : ℤ
  ppid : ℤ
  tgid : ℤ
  dying : Bool
  dead : Bool
  deriving DecidableEq

structure Roster where
  member : ℕ → Option Member
  nextPid : ℤ

variable {r : Roster} {i : ℕ} {m : Option Member}

namespace Roster

@[ext] theorem ext {r' : Roster} (h : ∀ j, r.member j = r'.member j) (h' : r.nextPid = r'.nextPid) :
    r = r' := by
  cases r
  cases r'
  simp only [Roster.mk.injEq]
  exact ⟨funext h, h'⟩

def set (r : Roster) (i : ℕ) (m : Option Member) : Roster :=
  { r with member := Function.update r.member i m }

def alter (r : Roster) (f : ℕ → Member → Member) : Roster :=
  { r with member := fun j => (r.member j).map (f j) }

/-- `proc_by_pid`. -/
def find (r : Roster) (pid : ℤ) : Option ℕ :=
  (range maxProcs).find? fun j => (r.member j).any fun m => m.pid = pid

/-- Sentences the group `tgid`, without slot `p` unless `self`. -/
def condemn (r : Roster) (tgid : ℤ) (p : ℕ) (self : Bool) : Roster :=
  r.alter fun j m =>
    if j < maxProcs ∧ m.tgid = tgid ∧ (j = p → self) then { m with dying := true } else m

/-- The children of `pid` outside of group `tgid` go to init. -/
def adopt (r : Roster) (pid tgid : ℤ) : Roster :=
  r.alter fun _ m => if m.ppid = pid ∧ m.tgid ≠ tgid then { m with ppid := 1 } else m

def die (r : Roster) (p : ℕ) : Roster :=
  r.alter fun j m => if j = p then { m with dead := true } else m

/-- Slot `p` takes the number of its group. -/
def renew (r : Roster) (p : ℕ) : Roster :=
  r.alter fun j m => if j = p then { m with pid := m.tgid } else m

def burn (r : Roster) : Roster := { r with nextPid := Kernel.wrapInt (r.nextPid + 1) }

def drop (r : Roster) (gone : ℕ → Member → Bool) : Roster :=
  { r with member := fun j => (r.member j).filter fun m => !gone j m }

/-- The dead of group `tgid` are gone. -/
def sweep (r : Roster) (tgid : ℤ) : Roster :=
  r.drop fun j m => decide (j < maxProcs) && m.dead && decide (m.tgid = tgid)

@[simp] theorem member_alter (r : Roster) (f : ℕ → Member → Member) (j : ℕ) :
    (r.alter f).member j = (r.member j).map (f j) := rfl


@[simp] theorem member_set_self (r : Roster) (i : ℕ) (m : Option Member) :
    (r.set i m).member i = m :=
  update_self i _ _

theorem member_set_of_ne (r : Roster) {j : ℕ} (m : Option Member) (hj : j ≠ i) :
    (r.set i m).member j = r.member j :=
  update_of_ne hj _ _

@[simp] theorem member_drop (r : Roster) (gone : ℕ → Member → Bool) (j : ℕ) :
    (r.drop gone).member j = (r.member j).filter fun m => !gone j m := rfl

theorem set_eq_self (h : r.member i = m) : r.set i m = r := by
  subst h
  exact ext (fun j => congrFun (update_eq_self i r.member) j) rfl

theorem set_map (r : Roster) (i : ℕ) (f : Member → Member) :
    r.set i ((r.member i).map f) = r.alter fun j m => if j = i then f m else m := by
  refine ext (fun j => ?_) rfl
  by_cases hj : j = i
  · simp [hj]
  · simp [member_set_of_ne r _ hj, hj]

theorem alter_congr {f g : ℕ → Member → Member} (h : ∀ j m, r.member j = some m → f j m = g j m) :
    r.alter f = r.alter g := by
  refine ext (fun j => ?_) rfl
  cases hm : r.member j with
  | none => simp [hm]
  | some m => simp [hm, h j m hm]

theorem alter_id (r : Roster) : (r.alter fun _ m => m) = r := by
  refine ext (fun j => ?_) rfl
  simp

theorem alter_alter (r : Roster) (f g : ℕ → Member → Member) :
    (r.alter f).alter g = r.alter fun j m => g j (f j m) := by
  refine ext (fun j => ?_) rfl
  simp [comp_def]

theorem drop_congr {f g : ℕ → Member → Bool} (h : ∀ j m, r.member j = some m → f j m = g j m) :
    r.drop f = r.drop g := by
  refine ext (fun j => ?_) rfl
  cases hm : r.member j with
  | none => simp [hm]
  | some m => simp [hm, Option.filter, h j m hm]

theorem drop_false (r : Roster) : (r.drop fun _ _ => false) = r := by
  refine ext (fun j => ?_) rfl
  cases hm : r.member j <;> simp [hm]

theorem drop_drop (r : Roster) (f g : ℕ → Member → Bool) :
    (r.drop f).drop g = r.drop fun j m => f j m || g j m := by
  refine ext (fun j => ?_) rfl
  cases hm : r.member j with
  | none => simp [hm]
  | some m => cases hf : f j m <;> simp [hm, Option.filter, hf]

theorem set_none (r : Roster) (i : ℕ) : r.set i none = r.drop fun j _ => decide (j = i) := by
  refine ext (fun j => ?_) rfl
  by_cases hj : j = i
  · simp [hj]
  · cases hm : r.member j <;> simp [member_set_of_ne r _ hj, hj, hm, Option.filter]

end Roster

namespace Kernel

def memberOf (x : Proc) : Option Member :=
  if x.state = .unused then none
  else
    some
      { pid := x.pid
        ppid := x.ppid
        tgid := x.tgid
        dying := x.groupDying
        dead := x.state = .zombie }

def roster (k : Kernel) : Roster where
  member j := memberOf (k.procs j)
  nextPid := k.gNextPid

variable {k k' : Kernel} {p : ℕ}

def Alive (k : Kernel) (p : ℕ) : Prop :=
  (k.procs p).state ≠ .unused ∧ (k.procs p).state ≠ .zombie

theorem memberOf_congr {x y : Proc} (hIdent : y.toIdent = x.toIdent)
    (hUnused : y.state = .unused ↔ x.state = .unused)
    (hZombie : y.state = .zombie ↔ x.state = .zombie) : memberOf y = memberOf x := by
  unfold memberOf
  rw [hIdent]
  simp only [hUnused, hZombie]

theorem memberOf_of_alive {x y : Proc} (hIdent : y.toIdent = x.toIdent)
    (hx : x.state ≠ .unused ∧ x.state ≠ .zombie) (hy : y.state ≠ .unused ∧ y.state ≠ .zombie) :
    memberOf y = memberOf x :=
  memberOf_congr hIdent (iff_of_false hy.1 hx.1) (iff_of_false hy.2 hx.2)

theorem alive_of_state {st : ProcState} (h : (k.procs p).state = st)
    (hst : st ≠ .unused ∧ st ≠ .zombie) : Alive k p := by
  unfold Alive
  rw [h]
  exact hst

theorem procByPid_eq_find (k : Kernel) (pid : ℤ) : k.procByPid pid = k.roster.find pid := by
  unfold procByPid Roster.find
  congr 1
  funext j
  unfold roster memberOf
  by_cases h : (k.procs j).state = .unused <;> simp [h]

theorem roster_eq_set (hp : memberOf (k'.procs p) = m)
    (hOther : ∀ j ≠ p, k'.procs j = k.procs j) (hNext : k'.gNextPid = k.gNextPid) :
    k'.roster = k.roster.set p m := by
  refine Roster.ext (fun j => ?_) hNext
  by_cases hj : j = p
  · rw [hj, Roster.member_set_self]
    exact hp
  · rw [Roster.member_set_of_ne _ _ hj]
    exact congrArg memberOf (hOther j hj)

theorem roster_modify (k : Kernel) (p : ℕ) (f : Proc → Proc) :
    (k.modify p f).roster = k.roster.set p (memberOf (f (k.procs p))) :=
  roster_eq_set (by rw [procs_modify_self]) (fun _ hj => procs_modify_of_ne _ _ hj) rfl

theorem roster_modify_of_eq (f : Proc → Proc)
    (h : memberOf (f (k.procs p)) = memberOf (k.procs p)) : (k.modify p f).roster = k.roster := by
  rw [roster_modify, h]
  exact Roster.set_eq_self rfl

/-- A change of one slot, as the table sees it. -/
theorem roster_map {f : Proc → Proc} {g : Member → Member}
    (h : memberOf (f (k.procs p)) = (memberOf (k.procs p)).map g) :
    (k.modify p f).roster = k.roster.alter fun j m => if j = p then g m else m := by
  rw [roster_modify, h]
  exact k.roster.set_map p g

theorem roster_of_touches (hT : Touches p k k')
    (h : memberOf (k'.procs p) = memberOf (k.procs p)) : k'.roster = k.roster := by
  rw [roster_eq_set h hT.other hT.gNextPid]
  exact Roster.set_eq_self rfl

theorem roster_of_alive (hT : Touches p k k') (h : Alive k p) (h' : Alive k' p) :
    k'.roster = k.roster :=
  roster_of_touches hT (memberOf_of_alive hT.ident h h')

theorem alive_enqueueFresh (k : Kernel) (p : ℕ) : Alive (k.enqueueFresh p) p := by
  rcases state_enqueueFresh k p with hReady | ⟨hBlocked, -⟩
  · exact alive_of_state hReady (by decide)
  · exact alive_of_state hBlocked (by decide)

theorem roster_enqueueFresh (h : Alive k p) : (k.enqueueFresh p).roster = k.roster :=
  roster_of_alive (touches_enqueueFresh k p) h (alive_enqueueFresh k p)

@[simp] theorem roster_schedWake (k : Kernel) (p : ℕ) : (k.schedWake p).roster = k.roster := by
  unfold schedWake
  split
  next hBlocked =>
    rw [roster_enqueueFresh
      (by unfold Alive; rw [procs_modify_self]; exact alive_of_state hBlocked (by decide))]
    exact roster_modify_of_eq _ rfl
  next => rfl

@[simp] theorem roster_procSignal (k : Kernel) (p sig : ℕ) :
    (k.procSignal p sig).roster = k.roster := by
  unfold procSignal
  dsimp only
  split
  · rfl
  next hSome =>
    have hAlive : Alive k p :=
      ⟨fun hEq => hSome (.inr (.inr (.inl hEq))), fun hEq => hSome (.inr (.inr (.inr hEq)))⟩
    have hKeep : ∀ f : Proc → Proc, (f (k.procs p)).state = (k.procs p).state →
        Alive (k.modify p f) p := fun f hf => by
      unfold Alive
      rw [procs_modify_self, hf]
      exact hAlive
    split
    · have hUnstop : (k.modify p .unstop).roster = k.roster := roster_modify_of_eq _ rfl
      split
      · split
        · exact hUnstop
        · rw [roster_enqueueFresh, roster_modify_of_eq, hUnstop]
          · rfl
          · unfold Alive
            rw [procs_modify_self]
            exact hKeep .unstop rfl
      · exact hUnstop
    · split
      · rfl
      · have hPend : (k.modify p (.pend sig)).roster = k.roster := roster_modify_of_eq _ rfl
        split
        · rw [roster_schedWake, hPend]
        · split
          · rw [roster_enqueueFresh (hKeep _ rfl), hPend]
          · exact hPend

@[simp] theorem roster_cgDetach (k : Kernel) (p : ℕ) : (k.cgDetach p).roster = k.roster := by
  refine roster_of_touches (touches_cgDetach k p)
    (memberOf_congr (touches_cgDetach k p).ident ?_ ?_)
  all_goals
    unfold cgDetach
    rw [procs_modify_self]
    split
    · split <;> rfl
    · rfl

theorem roster_rqRemove (k : Kernel) (p : ℕ) : (k.rqRemove p).roster = k.roster := by
  refine roster_of_touches (touches_rqRemove k p)
    (memberOf_congr (touches_rqRemove k p).ident ?_ ?_)
  · rw [state_rqRemove]
  · rw [state_rqRemove]

theorem memberOf_setDying (x : Proc) :
    memberOf x.setDying = (memberOf x).map fun m => { m with dying := true } := by
  unfold memberOf Proc.setDying
  split <;> rfl

theorem memberOf_die (x : Proc) (status : ℤ) (h : x.state ≠ .unused) :
    memberOf (x.die status) = (memberOf x).map fun m => { m with dead := true } := by
  unfold memberOf Proc.die
  dsimp only
  rw [if_neg h, if_neg (by decide)]
  rfl

theorem memberOf_renew (x : Proc) :
    memberOf x.renew = (memberOf x).map fun m => { m with pid := m.tgid } := by
  unfold memberOf Proc.renew
  split <;> rfl

section

variable (k p)

theorem roster_condemnOne (tgid : ℤ) (self : Bool) (i : ℕ) :
    (condemnOne p tgid self k i).roster = k.roster.alter fun j m =>
      if j = i ∧ m.tgid = tgid ∧ (j = p → self) then { m with dying := true } else m := by
  have hMember : ∀ m, k.roster.member i = some m → (k.procs i).state ≠ .unused ∧
      m.tgid = (k.procs i).tgid := fun m hm => by
    have hm' : memberOf (k.procs i) = some m := hm
    unfold memberOf at hm'
    split at hm'
    · exact absurd hm' (by simp)
    next hUsed => exact ⟨hUsed, by rw [← Option.some.inj hm']⟩
  unfold condemnOne
  split
  next hSkip =>
    refine (k.roster.alter_id).symm.trans (Roster.alter_congr fun j m hm => ?_)
    rw [if_neg]
    rintro ⟨hj, hTgid, hSelf⟩
    rw [hj] at hm hSelf
    obtain ⟨hUsed, hSame⟩ := hMember m hm
    rcases hSkip with hUnused | hTgid' | ⟨hip, hOff⟩
    · exact hUsed hUnused
    · exact hTgid' (hSame ▸ hTgid)
    · exact absurd ((hSelf hip).symm.trans hOff) (by decide)
  next hIn =>
    simp only [not_or, not_and, Decidable.not_not] at hIn
    obtain ⟨hUsed, hTgid, hSelf⟩ := hIn
    have hWake : ∀ k' : Kernel, (if i ≠ p ∧ (k'.procs i).state = .blocked then k'.schedWake i
        else k').roster = k'.roster := fun k' => by
      split
      · exact roster_schedWake k' i
      · rfl
    rw [hWake, roster_map (memberOf_setDying _)]
    refine Roster.alter_congr fun j m hm => ?_
    by_cases hj : j = i
    · rw [hj] at hm ⊢
      rw [if_pos rfl, if_pos ⟨rfl, (hMember m hm).2.trans hTgid, by simpa using hSelf⟩]
    · rw [if_neg hj, if_neg fun hEq => hj hEq.1]

theorem roster_condemn (self : Bool) :
    (k.condemn p self).roster = k.roster.condemn (k.procs p).tgid p self := by
  have hFold : ∀ (l : List ℕ) (k' : Kernel) (tgid : ℤ),
      (l.foldl (condemnOne p tgid self) k').roster = k'.roster.alter fun j m =>
        if j ∈ l ∧ m.tgid = tgid ∧ (j = p → self) then { m with dying := true } else m := by
    intro l
    induction l with
    | nil =>
      intro k' tgid
      exact (k'.roster.alter_id).symm.trans (Roster.alter_congr fun j m _ => by simp)
    | cons i l ih =>
      intro k' tgid
      rw [foldl_cons, ih, roster_condemnOne, Roster.alter_alter]
      refine Roster.alter_congr fun j m _ => ?_
      grind
  unfold condemn Roster.condemn
  rw [hFold]
  exact Roster.alter_congr fun j m _ => by simp only [mem_range]

theorem roster_adopt : (k.adopt p).roster = k.roster.adopt (k.procs p).pid (k.procs p).tgid := by
  refine Roster.ext (fun j => ?_) rfl
  show memberOf (if _ then _ else _) = (memberOf (k.procs j)).map _
  unfold memberOf
  by_cases hUsed : (k.procs j).state = .unused
  · simp [hUsed]
  · by_cases hChild : (k.procs j).ppid = (k.procs p).pid ∧ (k.procs j).tgid ≠ (k.procs p).tgid <;>
      simp [hUsed, hChild]

theorem roster_procTeardown :
    (k.procTeardown p).roster = k.roster.adopt (k.procs p).pid (k.procs p).tgid := by
  have hIdent : (((k.modify p .freeFilter).cgDetach p).procs p).toIdent = (k.procs p).toIdent := by
    rw [(touches_cgDetach _ p).ident, procs_modify_self]
    rfl
  unfold procTeardown
  rw [roster_adopt, hIdent, roster_cgDetach, roster_modify_of_eq]
  rfl

@[simp] theorem roster_vforkWakeParent : (k.vforkWakeParent p).roster = k.roster := by
  have hClear : (k.modify p (.setVforkParent 0)).roster = k.roster := roster_modify_of_eq _ rfl
  unfold vforkWakeParent
  dsimp only
  split
  · rfl
  · split
    · exact hClear
    · split
      next hBlocked =>
        rw [roster_enqueueFresh (alive_of_state hBlocked.1 (by decide)), hClear]
      next => exact hClear

@[simp] theorem roster_procNotifyParent : (k.procNotifyParent p).roster = k.roster := by
  unfold procNotifyParent
  dsimp only
  split
  · rfl
  · split
    · rw [roster_schedWake, roster_procSignal]
    · exact roster_procSignal k _ _

end

theorem roster_die (h : (k.procs p).state ≠ .unused) (status : ℤ) :
    (k.modify p (.die status)).roster = k.roster.die p :=
  roster_map (memberOf_die _ _ h)

theorem roster_renew (k : Kernel) (p : ℕ) : (k.modify p .renew).roster = k.roster.renew p :=
  roster_map (memberOf_renew _)

theorem roster_block (h : Alive k p) (why : WaitReason) :
    (k.modify p (.block why)).roster = k.roster :=
  roster_modify_of_eq _ (memberOf_of_alive rfl h ⟨nofun, nofun⟩)

theorem used_iff (k : Kernel) (p : ℕ) :
    (k.procs p).state ≠ .unused ↔ (k.roster.member p).isSome := by
  show _ ↔ (memberOf (k.procs p)).isSome
  unfold memberOf
  by_cases h : (k.procs p).state = .unused <;> simp [h]

theorem used_congr (h : k'.roster = k.roster) : (k'.procs p).state ≠ .unused ↔
    (k.procs p).state ≠ .unused := by
  rw [used_iff, used_iff, h]

theorem member_of_used (h : (k.procs p).state ≠ .unused) : k.roster.member p = some
      { pid := (k.procs p).pid
        ppid := (k.procs p).ppid
        tgid := (k.procs p).tgid
        dying := (k.procs p).groupDying
        dead := (k.procs p).state = .zombie } :=
  if_neg h

theorem of_member {m : Member} (h : k.roster.member p = some m) :
    (k.procs p).state ≠ .unused ∧ (k.procs p).pid = m.pid ∧ (k.procs p).ppid = m.ppid ∧
      (k.procs p).tgid = m.tgid ∧ (k.procs p).groupDying = m.dying ∧
      ((k.procs p).state = .zombie ↔ m.dead) := by
  have hUsed : (k.procs p).state ≠ .unused := (used_iff k p).mpr (by simp [h])
  rw [member_of_used hUsed, Option.some.injEq] at h
  rw [← h]
  exact ⟨hUsed, rfl, rfl, rfl, rfl, by simp⟩

theorem alive_iff (k : Kernel) (p : ℕ) :
    Alive k p ↔ ∃ m, k.roster.member p = some m ∧ m.dead = false := by
  constructor
  · rintro ⟨hUsed, hZombie⟩
    exact ⟨_, member_of_used hUsed, decide_eq_false hZombie⟩
  · rintro ⟨m, hm, hDead⟩
    obtain ⟨hUsed, -, -, -, -, hZombie⟩ := of_member hm
    exact ⟨hUsed, fun hEq => by simp [hZombie.mp hEq] at hDead⟩

theorem alive_congr (h : k'.roster.member p = k.roster.member p) : Alive k' p ↔ Alive k p := by
  rw [alive_iff, alive_iff, h]

/-- Every task keeps its slot, its number and its group. -/
def SameNames (k k' : Kernel) : Prop :=
  ∀ p, (k.procs p).state ≠ .unused → (k'.procs p).state ≠ .unused ∧
    (k'.procs p).pid = (k.procs p).pid ∧ (k'.procs p).tgid = (k.procs p).tgid

namespace SameNames

theorem trans {k'' : Kernel} (h : SameNames k k') (h' : SameNames k' k'') : SameNames k k'' :=
  fun p hp => by
    obtain ⟨hUsed, hPid, hTgid⟩ := h p hp
    obtain ⟨hUsed', hPid', hTgid'⟩ := h' p hUsed
    exact ⟨hUsed', hPid'.trans hPid, hTgid'.trans hTgid⟩

theorem of_alter {f : ℕ → Member → Member} (h : k'.roster = k.roster.alter f)
    (hf : ∀ j m, (f j m).pid = m.pid ∧ (f j m).tgid = m.tgid) : SameNames k k' := fun p hp => by
  have hMember : k'.roster.member p = (k.roster.member p).map (f p) := by
    rw [h, Roster.member_alter]
  rw [member_of_used hp, Option.map_some] at hMember
  obtain ⟨hUsed, hPid, -, hTgid, -⟩ := of_member hMember
  exact ⟨hUsed, hPid.trans (hf p _).1, hTgid.trans (hf p _).2⟩

theorem of_eq (h : k'.roster = k.roster) : SameNames k k' :=
  of_alter (h.trans k.roster.alter_id.symm) fun _ _ => ⟨rfl, rfl⟩

theorem condemn (k : Kernel) (p : ℕ) (self : Bool) : SameNames k (k.condemn p self) := by
  refine of_alter (roster_condemn k p self) fun j m => ?_
  split <;> exact ⟨rfl, rfl⟩

theorem procTeardown (k : Kernel) (p : ℕ) : SameNames k (k.procTeardown p) := by
  refine of_alter (roster_procTeardown k p) fun j m => ?_
  split <;> exact ⟨rfl, rfl⟩

theorem die (h : (k.procs p).state ≠ .unused) (status : ℤ) :
    SameNames k (k.modify p (.die status)) := by
  refine of_alter (roster_die h status) fun j m => ?_
  split <;> exact ⟨rfl, rfl⟩

end SameNames

theorem roster_procExecve (k : Kernel) (p : ℕ) :
    (k.procExecve p).roster = (k.roster.condemn (k.procs p).tgid p false).renew p := by
  unfold procExecve
  rw [roster_vforkWakeParent, roster_renew, roster_condemn]

section
variable (h : (k.procs p).state ≠ .unused)
include h

theorem roster_exitLeader (status : ℤ) : (k.exitLeader p status).roster =
      ((k.roster.condemn (k.procs p).tgid p true).adopt (k.procs p).pid
      (k.procs p).tgid).die p := by
  obtain ⟨hUsed, hPid, hTgid⟩ := SameNames.condemn k p true p h
  have hUsed' := (SameNames.procTeardown (k.condemn p true) p p hUsed).1
  unfold exitLeader
  rw [roster_procNotifyParent, roster_die hUsed', roster_procTeardown, roster_condemn, hPid, hTgid]

theorem roster_exitThread (hThread : (k.procs p).pid ≠ (k.procs p).tgid) (status : ℤ) :
    (k.procExit p status).roster = (k.roster.adopt (k.procs p).pid (k.procs p).tgid).die p := by
  have hUsed := (SameNames.procTeardown k p p h).1
  unfold procExit
  rw [if_neg hThread, roster_die, roster_vforkWakeParent, roster_procTeardown]
  exact (used_congr (roster_vforkWakeParent _ p)).mpr hUsed

theorem roster_exitForLeader {leader : ℕ} (hLeader : (k.procs leader).state ≠ .unused)
    (status : ℤ) : (k.exitForLeader p leader status).roster =
      ((((k.roster.condemn (k.procs p).tgid p true).adopt (k.procs leader).pid
        (k.procs leader).tgid).die leader).adopt (k.procs p).pid (k.procs p).tgid).die p := by
  unfold exitForLeader
  dsimp only
  have hRemove := roster_rqRemove (k.condemn p true) leader
  generalize hk1 : (k.condemn p true).rqRemove leader = k1 at hRemove
  have hNames1 : SameNames k k1 := (SameNames.condemn k p true).trans (SameNames.of_eq hRemove)
  have hSig : ((k1.procTeardown leader).modify leader (.setTermSig (k1.procs p).termSig)).roster =
      (k1.procTeardown leader).roster := roster_modify_of_eq _ rfl
  generalize hk2 : (k1.procTeardown leader).modify leader (.setTermSig (k1.procs p).termSig) = k2
    at hSig
  have hNames2 : SameNames k k2 :=
    (hNames1.trans (SameNames.procTeardown k1 leader)).trans (SameNames.of_eq hSig)
  obtain ⟨hLeader2, -, -⟩ := hNames2 leader hLeader
  have hNames3 := hNames2.trans (SameNames.die hLeader2 status)
  obtain ⟨hp3, hPid3, hTgid3⟩ := hNames3 p h
  obtain ⟨-, hPid1, hTgid1⟩ := hNames1 leader hLeader
  rw [roster_die (SameNames.procTeardown _ p p hp3).1, roster_procTeardown, hPid3, hTgid3,
    roster_die hLeader2, hSig, roster_procTeardown, hPid1, hTgid1, hRemove, roster_condemn]

end

def newMember (k : Kernel) (p : ℕ) (thread : Bool) : Member where
  pid := k.gNextPid
  ppid := (k.procs p).pid
  tgid := if thread then (k.procs p).tgid else k.gNextPid
  dying := false
  dead := false

theorem member_freeSlot (h : k.freeSlot = some i) : k.roster.member i = none :=
  if_pos (state_freeSlot h)

theorem procFork_eq (k : Kernel) (p : ℕ) (admitted : Bool) (weight : BitVec 32) :
    k.procFork p admitted weight = k.procClone p false false admitted weight := by
  unfold procFork procClone
  generalize k.newTask p false admitted weight = made
  obtain ⟨_ | i, k'⟩ := made <;> rfl

theorem roster_newTask (k : Kernel) (p : ℕ) (thread admitted : Bool) (weight : BitVec 32) :
    let r := k.newTask p thread admitted weight
    (r.1 = none ∧ (r.2.roster = k.roster ∨ r.2.roster = k.roster.burn)) ∨
      ∃ i, k.freeSlot = some i ∧ r.1 = some i ∧
        r.2.roster = k.roster.burn.set i (some (k.newMember p thread)) := by
  unfold newTask
  split
  · exact .inl ⟨rfl, .inl rfl⟩
  next i hFree =>
    have hUnused := state_freeSlot hFree
    have hAlloc : (k.procAlloc i).roster = k.roster.burn := by
      refine Roster.ext (fun j => ?_) rfl
      show memberOf ((k.procAlloc i).procs j) = memberOf (k.procs j)
      by_cases hj : j = i
      · rw [hj, procs_procAlloc_self, memberOf, memberOf, if_pos rfl, if_pos hUnused]
      · rw [procs_procAlloc_of_ne k hj]
    have hRelease : ((k.procAlloc i).slotRelease i).roster = k.roster.burn := by
      unfold slotRelease
      dsimp only
      split
      · exact hAlloc
      · rw [← hAlloc]
        refine roster_modify_of_eq _ ?_
        rw [procs_procAlloc_self]
        rfl
    dsimp only
    split
    · exact .inl ⟨rfl, .inr hRelease⟩
    next c hc =>
      split
      · refine .inr ⟨i, hFree, rfl, ?_⟩
        have hChild := procs_modify_self ((k.procAlloc i).cgAttach i c weight) i
          (.inherit (k.procs p) thread)
        have hT := touches_enqueueFresh (((k.procAlloc i).cgAttach i c weight).modify i
          (.inherit (k.procs p) thread)) i
        rw [← hAlloc]
        refine roster_eq_set (k := k.procAlloc i) ?_ (fun j hj => ?_) hT.gNextPid
        · obtain ⟨hUsed, hZombie⟩ :=
            alive_enqueueFresh (((k.procAlloc i).cgAttach i c weight).modify i
            (.inherit (k.procs p) thread)) i
          rw [memberOf, if_neg hUsed, hT.ident, decide_eq_false hZombie, hChild, cgAttach,
            procs_setCg, procs_modify_self, procs_procAlloc_self]
          rfl
        · rw [hT.other j hj, procs_modify_of_ne _ _ hj, cgAttach, procs_setCg,
            procs_modify_of_ne _ _ hj]
      · exact .inl ⟨rfl, .inr hRelease⟩

theorem roster_slotRelease (h : (k.procs p).state = .zombie) :
    (k.slotRelease p).roster = k.roster.set p none := by
  unfold slotRelease
  rw [h, if_neg (by decide), roster_modify]
  rfl

theorem roster_sweepOne (cpid : ℤ) (c : ℕ) (k : Kernel) (j : ℕ) :
    (sweepOne cpid c k j).roster = k.roster.drop fun i m =>
      decide (i = j ∧ i ≠ c) && m.dead && decide (m.tgid = cpid) := by
  unfold sweepOne
  split
  next hGone =>
    obtain ⟨hZombie, hTgid, hjc⟩ := hGone
    rw [roster_slotRelease hZombie, Roster.set_none]
    refine Roster.drop_congr fun i m hm => ?_
    by_cases hij : i = j
    · rw [hij] at hm ⊢
      obtain ⟨-, -, -, hTgid', -, hDead⟩ := of_member hm
      simp [hjc, hDead.mp hZombie, ← hTgid', hTgid]
    · simp [hij]
  next hStay =>
    refine (k.roster.drop_false).symm.trans (Roster.drop_congr fun i m hm => ?_)
    by_cases hij : i = j
    · rw [hij] at hm ⊢
      obtain ⟨-, -, -, hTgid, -, hDead⟩ := of_member hm
      rw [hTgid, hDead] at hStay
      symm
      rw [Bool.eq_false_iff]
      intro hAll
      simp only [Bool.and_eq_true, decide_eq_true_eq] at hAll
      exact hStay ⟨hAll.1.2, hAll.2, hAll.1.1.2⟩
    · simp [hij]

theorem roster_reap {c : ℕ} (hc : c < maxProcs) (hZombie : (k.procs c).state = .zombie)
    (hLeader : (k.procs c).pid = (k.procs c).tgid) :
    (k.reap c).roster = k.roster.sweep (k.procs c).pid := by
  have hFold : ∀ (l : List ℕ) (cpid : ℤ) (k' : Kernel),
      (l.foldl (sweepOne cpid c) k').roster = k'.roster.drop fun i m =>
        decide (i ∈ l ∧ i ≠ c) && m.dead && decide (m.tgid = cpid) := by
    intro l cpid
    induction l with
    | nil =>
      intro k'
      exact (k'.roster.drop_false).symm.trans (Roster.drop_congr fun i m _ => by simp)
    | cons j l ih =>
      intro k'
      rw [foldl_cons, ih, roster_sweepOne, Roster.drop_drop]
      refine Roster.drop_congr fun i m _ => ?_
      by_cases hij : i = j
      · cases hDead : m.dead <;> by_cases hc : j = c <;> simp [hij, hc]
      · simp [hij]
  unfold reap Roster.sweep
  rw [hFold, roster_slotRelease hZombie, Roster.set_none, Roster.drop_drop]
  refine Roster.drop_congr fun i m hm => ?_
  by_cases hic : i = c
  · rw [hic] at hm ⊢
    obtain ⟨-, -, -, hTgid, -, hDead⟩ := of_member hm
    simp [hc, hDead.mp hZombie, ← hTgid, hLeader]
  · simp [hic]

theorem leader_of_isChild {pid : ℤ} {c : ℕ} (h : k.isChild p pid c) :
    (k.procs c).pid = (k.procs c).tgid := by
  simp only [isChild, Bool.and_eq_true, decide_eq_true_eq] at h
  exact h.2

section

variable (h : Alive k p)
include h

theorem roster_procClone (thread vfork admitted : Bool) (weight : BitVec 32) :
    let k' := k.procClone p thread vfork admitted weight
    k'.roster = k.roster ∨ k'.roster = k.roster.burn ∨
      ∃ i, k.freeSlot = some i ∧ k'.roster = k.roster.burn.set i (some (k.newMember p thread)) := by
  have hRoster := k.roster_newTask p thread admitted weight
  unfold procClone
  generalize k.newTask p thread admitted weight = made at hRoster
  obtain ⟨child, k'⟩ := made
  dsimp only at hRoster
  rcases hRoster with ⟨hChild, hSame | hBurn⟩ | ⟨i, hFree, hChild, hNew⟩
  · rw [hChild]
    exact .inl hSame
  · rw [hChild]
    exact .inr (.inl hBurn)
  · refine .inr (.inr ⟨i, hFree, ?_⟩)
    rw [hChild]
    dsimp only
    split
    · have hip : p ≠ i := fun hEq => by
        have hUsed := (used_iff k p).mp h.1
        rw [hEq, member_freeSlot hFree] at hUsed
        exact absurd hUsed (by decide)
      have hVfork : (k'.modify i (.setVforkParent (k'.procs p).pid)).roster = k'.roster :=
        roster_modify_of_eq _ rfl
      rw [roster_block, hVfork, hNew]
      refine (alive_congr ?_).mpr h
      rw [hVfork, hNew, Roster.member_set_of_ne _ _ hip]
      rfl
    · exact hNew

theorem roster_procWaitpid (pid : ℤ) (untraced nohang : Bool) :
    (k.procWaitpid p pid untraced nohang).roster = k.roster ∨
      ∃ c < maxProcs, k.isChild p pid c ∧ (k.procs c).state = .zombie ∧
        (k.procWaitpid p pid untraced nohang).roster = k.roster.sweep (k.procs c).pid := by
  unfold procWaitpid
  split
  next c hFind =>
    have hFound := find?_some hFind
    have hLt : c < maxProcs := mem_range.mp (mem_of_find?_eq_some hFind)
    have hChild : k.isChild p pid c := (Bool.and_eq_true _ _ ▸ hFound).1
    split
    next hZombie =>
      exact .inr ⟨c, hLt, hChild, hZombie, roster_reap hLt hZombie (leader_of_isChild hChild)⟩
    next => exact .inl (roster_modify_of_eq _ rfl)
  next =>
    split
    · exact .inl rfl
    · exact .inl (roster_block h .child)

theorem roster_dispatch : (k.dispatch p).roster = k.roster := by
  unfold dispatch
  rw [roster_modify_of_eq, roster_rqRemove]
  refine memberOf_of_alive rfl ?_ ⟨nofun, nofun⟩
  rw [state_rqRemove]
  exact h

theorem alive_cgPark : Alive (k.cgPark p) p := by
  unfold cgPark
  split
  · exact h
  · dsimp only
    split
    · exact alive_of_state (state_enqueueReady _ p) (by decide)
    · unfold Alive
      simp [parkLink, Proc.setParkNext, Proc.block]

theorem alive_rqEnqueue (q : ℕ) : Alive (k.rqEnqueue q p) p := by
  unfold Alive
  rw [procs_rqEnqueue, procs_modify_self, (place_eq _ _).2.1]
  exact h

end

theorem roster_putPrev (h : (k.procs p).state = .running) : (k.putPrev p).roster = k.roster := by
  refine roster_of_alive (touches_putPrev k p) (alive_of_state h (by decide)) ?_
  unfold putPrev
  rw [if_pos (by unfold account; dsimp only; rw [procs_modify_self]; exact h)]
  unfold putRunning
  dsimp only
  have hReady : Alive ((((k.account p).modify p readyAgain).cgChargeRuntime p
      (k.unaccounted p)).2) p := by
    unfold Alive
    rw [(onlyCgs_cgChargeRuntime _ p (k.unaccounted p)).procs, procs_modify_self]
    exact ⟨noConfusion, noConfusion⟩
  split
  · exact alive_cgPark hReady
  · exact alive_rqEnqueue hReady _

end Kernel

end Gnos
