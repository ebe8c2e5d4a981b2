import Gnos.Sched.Run

/-! The treap of a run queue over any sequence of `tr_insert` and `tr_delete`, and what
`rq_pick_best` takes off it.  In between, everything may change but the keys and priorities of the
queued tasks. -/

namespace Gnos.Kernel

open ProofKit List

structure Bench where
  k : Kernel
  /-- The tasks that were inserted and not deleted since. -/
  queued : Set ℕ

inductive TrOp where
  | insert (p : ℕ)
  | delete (p : ℕ)
  | change (p : ℕ) (f : Proc → Proc)
  | clock (vtime : Word)

namespace Bench

def exec (q : ℕ) (b : Bench) : TrOp → Bench
  | .insert p => ⟨b.k.trInsert q p, insert p b.queued⟩
  | .delete p => ⟨b.k.trDelete q p, b.queued \ {p}⟩
  | .change p f => ⟨b.k.modify p f, b.queued⟩
  | .clock vtime => ⟨b.k.setRq q fun rq => { rq with vtime := vtime }, b.queued⟩

def Start (q : ℕ) (b : Bench) : Prop := (b.k.rqs q).root = .nil ∧ b.queued = ∅

/-- Tasks are inserted when they are not queued, with a key that no queued task has, and keep it
while they are. -/
def Allowed (b : Bench) : TrOp → Prop
  | .insert p => p ∉ b.queued ∧ ∀ a ∈ b.queued,
      ¬((b.k.procs a).deadline = (b.k.procs p).deadline ∧ (b.k.procs a).pid = (b.k.procs p).pid)
  | .delete p => p ∈ b.queued
  | .change p f => p ∈ b.queued → (f (b.k.procs p)).deadline = (b.k.procs p).deadline ∧
      (f (b.k.procs p)).pid = (b.k.procs p).pid ∧ (f (b.k.procs p)).tprio = (b.k.procs p).tprio
  | .clock _ => True

/-- The in-order list is the queued set by increasing key, and the priorities are a heap. -/
structure Right (q : ℕ) (b : Bench) : Prop where
  sorted : Treap.Sorted b.k.keyBefore (b.k.rqs q).root
  mem : ∀ p, p ∈ (b.k.rqs q).root.toList ↔ p ∈ b.queued
  heaped : Treap.Heaped b.k.tprioOf (b.k.rqs q).root

/-- `p` has the smallest key of the queued tasks whose lag is not positive; or it has the smallest
lag, and every lag is positive. -/
def Best (q : ℕ) (b : Bench) (p : ℕ) : Prop :=
  let lag := b.k.lagAt (b.k.rqs q).vtime
  p ∈ b.queued ∧
    if lag p ≤ 0 then ∀ x ∈ b.queued, lag x ≤ 0 → x = p ∨ b.k.keyBefore p x
    else ∀ x ∈ b.queued, 0 < lag x ∧ lag p ≤ lag x

end Bench

/-- What `tr_pick` has found after the tasks `xs`. -/
structure Found (k : Kernel) (vtime : Word) (xs : List ℕ) (a : Picked) : Prop where
  elig : a.elig = xs.find? fun p => k.lagAt vtime p ≤ 0
  empty : a.elig = none → a.fb = none → xs = []
  fb : a.elig = none → ∀ p ∈ a.fb, p ∈ xs ∧ a.fbVlag = k.lagAt vtime p ∧
    ∀ x ∈ xs, k.lagAt vtime p ≤ k.lagAt vtime x

variable {k : Kernel} {vtime : Word} {xs : List ℕ} {a : Picked} {p q : ℕ}

section

variable (h : Found k vtime xs a)
include h

theorem Found.of_full (hFull : a.full) (ys : List ℕ) : Found k vtime (xs ++ ys) a := by
  obtain ⟨e, he⟩ := Option.isSome_iff_exists.mp (Bool.and_eq_true_iff.mp hFull).1
  have hFirst := h.elig
  refine ⟨?_, fun hNone => ?_, fun hNone => ?_⟩
  · rw [find?_append, ← hFirst, he]
    rfl
  · cases he.symm.trans hNone
  · cases he.symm.trans hNone

theorem Found.consider (y : ℕ) : Found k vtime (xs ++ [y]) (a.consider k vtime y) := by
  obtain ⟨hFirst, hEmpty, hFb⟩ := h
  obtain ⟨elig, fb, vlag⟩ := a
  unfold Picked.consider
  cases elig <;> cases fb <;> constructor <;> grind

/-- `tr_pick` goes through the tasks in order and may stop once it has found both. -/
theorem Found.trPick {t : Treap ℕ} : Found k vtime (xs ++ t.toList) (trPick k vtime t a) := by
  induction t generalizing xs a with
  | nil => simpa [Kernel.trPick] using h
  | node l p r ihl ihr =>
    rw [Kernel.trPick]
    dsimp only
    split_ifs with hFull hLeft
    · exact h.of_full hFull _
    · rw [Treap.toList_node, ← append_assoc]
      exact (ihl h).of_full hLeft _
    · have hRest := ihr ((ihl h).consider p)
      simpa using hRest

end

namespace Bench

variable {b : Bench} {k' : Kernel}

section

variable (h : b.Right q)
include h

theorem Right.congr (hRoot : (k'.rqs q).root = (b.k.rqs q).root)
    (hSame : ∀ p ∈ b.queued, (k'.procs p).deadline = (b.k.procs p).deadline ∧
      (k'.procs p).pid = (b.k.procs p).pid ∧ (k'.procs p).tprio = (b.k.procs p).tprio) :
    Right q ⟨k', b.queued⟩ := by
  refine ⟨?_, ?_, ?_⟩ <;> dsimp only <;> rw [hRoot]
  · refine h.sorted.congr fun x hx y hy => ?_
    obtain ⟨hx, hx', -⟩ := hSame x ((h.mem x).mp hx)
    obtain ⟨hy, hy', -⟩ := hSame y ((h.mem y).mp hy)
    exact keyBefore_congr hx hx' hy hy'
  · exact h.mem
  · refine h.heaped.congr fun x hx => ?_
    unfold tprioOf
    rw [(hSame x ((h.mem x).mp hx)).2.2]

theorem Right.setRq (f : Rq → Rq) (hRoot : (f (b.k.rqs q)).root = (b.k.rqs q).root) :
    Right q ⟨b.k.setRq q f, b.queued⟩ := by
  refine h.congr ?_ fun _ _ => ⟨rfl, rfl, rfl⟩
  rw [rqs_setRq_self, hRoot]

theorem Right.delete (hp : p ∈ b.queued) : Right q ⟨b.k.trDelete q p, b.queued \ {p}⟩ := by
  have hMem := (h.mem p).mpr hp
  refine ⟨?_, fun x => ?_, ?_⟩ <;> dsimp only [trDelete] <;> rw [rqs_setRq_self]
  · exact h.sorted.delete (keyBefore_irrefl b.k) (keyBefore_asymm b.k) hMem
  · rw [Treap.mem_delete (keyBefore_irrefl b.k) (keyBefore_asymm b.k) h.sorted hMem, h.mem,
      and_comm]
    rfl
  · exact h.heaped.delete

theorem Right.exec {op : TrOp} (hOp : b.Allowed op) : (b.exec q op).Right q := by
  cases op with
  | insert p =>
    refine ⟨?_, fun x => ?_, ?_⟩ <;> dsimp only [Bench.exec, trInsert] <;> rw [rqs_setRq_self]
    · refine h.sorted.insert (keyBefore_trans b.k) fun x hx => ?_
      exact (keyBefore_total (hOp.2 x ((h.mem x).mp hx))).symm
    · rw [Treap.mem_insert, h.mem]
      rfl
    · exact h.heaped.insert
  | delete p => exact h.delete hOp
  | change p f =>
    refine h.congr rfl fun x hx => ?_
    rcases eq_or_ne x p with rfl | hne
    · rw [procs_modify_self]
      exact hOp hx
    · rw [procs_modify_of_ne b.k f hne]
      exact ⟨rfl, rfl, rfl⟩
  | clock vtime => exact h.setRq _ rfl

theorem Right.bumpMin : Right q ⟨b.k.bumpMin q, b.queued⟩ := by
  unfold Kernel.bumpMin
  split
  · split
    · exact h.setRq _ rfl
    · exact h
  · exact h

theorem Right.rqDequeue (hp : p ∈ b.queued) : Right q ⟨b.k.rqDequeue q p, b.queued \ {p}⟩ :=
  ((h.delete hp).setRq (fun rq => { rq with count := rq.count - 1 }) rfl).bumpMin

/-- Whatever `tr_pick` has found, the choice is the best queued task. -/
theorem Right.best (hFound : Found b.k (b.k.rqs q).vtime (b.k.rqs q).root.toList a)
    (hp : a.elig.or a.fb = some p) : b.Best q p := by
  unfold Best
  dsimp only
  cases hElig : a.elig with
  | some e =>
    rw [hElig] at hp
    obtain rfl : e = p := Option.some.inj hp
    obtain ⟨hLag, as, bs, hList, hBefore⟩ :=
      find?_eq_some_iff_append.mp (hFound.elig.symm.trans hElig)
    have hSorted := h.sorted
    rw [Treap.Sorted, hList, pairwise_append] at hSorted
    rw [if_pos (by simpa using hLag)]
    refine ⟨(h.mem e).mp (by simp [hList]), fun x hx hx' => ?_⟩
    have hx := (h.mem x).mpr hx
    rw [hList] at hx
    rcases mem_append.mp hx with hx | hx
    · have := hBefore x hx
      simp [hx'] at this
    · exact (mem_cons.mp hx).imp_right (rel_of_pairwise_cons hSorted.2.1)
  | none =>
    rw [hElig] at hp
    obtain ⟨hMem, -, hLeast⟩ := hFound.fb hElig p hp
    have hNone := find?_eq_none.mp (hFound.elig.symm.trans hElig)
    have hPos : ∀ x ∈ (b.k.rqs q).root.toList, 0 < b.k.lagAt (b.k.rqs q).vtime x := fun x hx => by
      simpa using hNone x hx
    rw [if_neg (Int.not_le.mpr (hPos p hMem))]
    exact ⟨(h.mem p).mp hMem, fun x hx => ⟨hPos x ((h.mem x).mpr hx), hLeast x ((h.mem x).mpr hx)⟩⟩

theorem Right.rqPickBest (hSome : b.queued.Nonempty) :
    ∃ p, (b.k.rqPickBest q).1 = some p ∧ b.Best q p ∧
    Right q ⟨(b.k.rqPickBest q).2, b.queued \ {p}⟩ := by
  have hStart : Found b.k (b.k.rqs q).vtime [] {} :=
    ⟨rfl, fun _ _ => rfl, fun _ _ hp => by cases hp⟩
  have hFound := hStart.trPick (t := (b.k.rqs q).root)
  rw [nil_append] at hFound
  unfold Kernel.rqPickBest
  dsimp only
  cases hPick : (Kernel.trPick b.k (b.k.rqs q).vtime (b.k.rqs q).root {}).elig.or _ with
  | none =>
    obtain ⟨x, hx⟩ := hSome
    obtain ⟨hElig, hFb⟩ := Option.or_eq_none_iff.mp hPick
    have hx := (h.mem x).mpr hx
    rw [hFound.empty hElig hFb] at hx
    cases hx
  | some p =>
    have hBest := h.best hFound hPick
    have hChange :
        b.Allowed (.change p fun x => { x with vlag := (b.k.rqs q).vtime - x.vruntime }) :=
      fun _ => ⟨rfl, rfl, rfl⟩
    exact ⟨p, rfl, hBest, (h.exec hChange).rqDequeue hBest.1⟩

end

/-- In every state reached the treap is right, and a pick from a queue that is not empty takes off
the best task and leaves the others. -/
theorem treap_right (hRun : Reaches (Start q) Allowed (exec q) b) :
    b.Right q ∧ (b.queued.Nonempty → ∃ p, (b.k.rqPickBest q).1 = some p ∧ b.Best q p ∧
      Right q ⟨(b.k.rqPickBest q).2, b.queued \ {p}⟩) := by
  have h : b.Right q := by
    refine hRun.invariant (fun b hb => ?_) fun _ _ h hOp => h.exec hOp
    obtain ⟨hRoot, hQueued⟩ := hb
    refine ⟨?_, fun p => ?_, ?_⟩ <;> rw [hRoot]
    · exact .nil
    · rw [hQueued]
      exact iff_of_false not_mem_nil id
    · trivial
  exact ⟨h, h.rqPickBest⟩

/-- Four tasks are queued, the second and third above those before them, one of them is taken out,
and the clock is set so that only the lags of tasks 3 and 4 are not positive. -/
def fourTasks : List TrOp :=
  [.change 1 fun p => { p with pid := 1, deadline := 30, tprio := 1 }, .insert 1,
    .change 2 fun p => { p with pid := 2, deadline := 10, tprio := 2 }, .insert 2,
    .change 3 fun p => { p with pid := 3, deadline := 20, tprio := 3, vruntime := 9 }, .insert 3,
    .change 4 fun p => { p with pid := 4, deadline := 20, tprio := 0, vruntime := 9 }, .insert 4,
    .delete 2, .clock 5]

def fourQueued : Bench := fourTasks.foldl (exec 0) ⟨emptyKernel, ∅⟩

/-- The one of the two with the smaller pid is picked, and the other two stay. -/
theorem treap_right_four :
    fourQueued.Right 0 ∧ (fourQueued.k.rqPickBest 0).1 = some 3 ∧ fourQueued.Best 0 3 ∧
      Right 0 ⟨(fourQueued.k.rqPickBest 0).2, fourQueued.queued \ {3}⟩ ∧
      (fourQueued.k.rqs 0).root.toList = [3, 4, 1] := by
  have hRun : Reaches (Start 0) Allowed (exec 0) fourQueued := by
    refine (Reaches.start ⟨rfl, rfl⟩).foldl fourTasks ?_
    simp [fourTasks, Along, Allowed, exec]
    decide
  obtain ⟨hRight, hPick⟩ := treap_right hRun
  obtain ⟨p, hp, hBest, hRest⟩ := hPick ⟨3, by simp [fourQueued, fourTasks, exec]⟩
  have hThree : (fourQueued.k.rqPickBest 0).1 = some 3 := by decide +kernel
  obtain rfl : 3 = p := Option.some.inj (hThree.symm.trans hp)
  exact ⟨hRight, hThree, hBest, hRest, by decide +kernel⟩

end Bench

end Gnos.Kernel
