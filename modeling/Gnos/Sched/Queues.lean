import Gnos.Sched.Model

/-! What the run queues hold.  `Queues k home` says that the treaps of `k` hold exactly the tasks
that `home` assigns to them; every operation of the scheduler is described by what it does to
`home`. -/

namespace Gnos.Kernel

open ProofKit Function

variable {k k' : Kernel} {p q a b : ℕ}

theorem keyBefore_iff : k.keyBefore a b ↔ (k.procs a).deadline.toNat < (k.procs b).deadline.toNat ∨
      (k.procs a).deadline.toNat = (k.procs b).deadline.toNat ∧
      (k.procs a).pid < (k.procs b).pid := by
  unfold keyBefore
  split_ifs with h
  · have hne : (k.procs a).deadline.toNat ≠ (k.procs b).deadline.toNat :=
      fun hEq => h (BitVec.eq_of_toNat_eq hEq)
    simp [BitVec.lt_def, hne]
  · simp [Decidable.not_not.mp h]

theorem keyBefore_trans (k : Kernel) (a b c : ℕ) (hab : k.keyBefore a b) (hbc : k.keyBefore b c) :
    k.keyBefore a c := by
  rw [keyBefore_iff] at *
  omega

theorem keyBefore_irrefl (k : Kernel) (a : ℕ) : k.keyBefore a a = false := by
  rw [Bool.eq_false_iff, ne_eq, keyBefore_iff]
  omega

theorem keyBefore_asymm (k : Kernel) (a b : ℕ) (h : k.keyBefore a b) : k.keyBefore b a = false := by
  rw [Bool.eq_false_iff, ne_eq, keyBefore_iff]
  rw [keyBefore_iff] at h
  omega

theorem keyBefore_total
    (h : ¬((k.procs a).deadline = (k.procs b).deadline ∧ (k.procs a).pid = (k.procs b).pid)) :
    k.keyBefore a b ∨ k.keyBefore b a := by
  rw [← BitVec.toNat_inj] at h
  rw [keyBefore_iff, keyBefore_iff]
  omega

theorem keyBefore_congr (ha : (k'.procs a).deadline = (k.procs a).deadline)
    (ha' : (k'.procs a).pid = (k.procs a).pid) (hb : (k'.procs b).deadline = (k.procs b).deadline)
    (hb' : (k'.procs b).pid = (k.procs b).pid) : k'.keyBefore a b = k.keyBefore a b := by
  rw [keyBefore, keyBefore, ha, ha', hb, hb']

/-- The treaps hold the tasks that `home` assigns to them, in order, and count them. -/
structure Queues (k : Kernel) (home : ℕ → Option ℕ) : Prop where
  mem : ∀ q p, p ∈ (k.rqs q).root.toList ↔ home p = some q
  sorted : ∀ q, Treap.Sorted k.keyBefore (k.rqs q).root
  count : ∀ q, (k.rqs q).count = (k.rqs q).root.toList.length

namespace Queues

variable {home : ℕ → Option ℕ}

section

variable (h : Queues k home)
include h

theorem congr (hRoot : ∀ q, (k'.rqs q).root = (k.rqs q).root)
    (hCount : ∀ q, (k'.rqs q).count = (k.rqs q).count) (hKey : ∀ p, home p ≠ none →
      (k'.procs p).deadline = (k.procs p).deadline ∧ (k'.procs p).pid = (k.procs p).pid) :
    Queues k' home where
  mem q p := by rw [hRoot, h.mem]
  sorted q := by
    rw [hRoot]
    refine (h.sorted q).congr fun a ha b hb => ?_
    have hHomeA : home a ≠ none := by simp [(h.mem q a).mp ha]
    have hHomeB : home b ≠ none := by simp [(h.mem q b).mp hb]
    exact keyBefore_congr (hKey a hHomeA).1 (hKey a hHomeA).2 (hKey b hHomeB).1 (hKey b hHomeB).2
  count q := by rw [hRoot, hCount, h.count]

theorem modify (f : Proc → Proc) (hf : home p = none ∨
      (f (k.procs p)).deadline = (k.procs p).deadline ∧ (f (k.procs p)).pid = (k.procs p).pid) :
    Queues (k.modify p f) home := by
  refine h.congr (fun _ => rfl) (fun _ => rfl) fun j hj => ?_
  by_cases hjp : j = p
  · subst hjp
    rw [procs_modify_self]
    exact hf.resolve_left hj
  · rw [procs_modify_of_ne k f hjp]
    exact ⟨rfl, rfl⟩

theorem setRq (f : Rq → Rq) (hRoot : ∀ rq, (f rq).root = rq.root)
    (hCount : ∀ rq, (f rq).count = rq.count) : Queues (k.setRq q f) home := by
  have hRq : ∀ j, ((k.setRq q f).rqs j).root = (k.rqs j).root ∧
      ((k.setRq q f).rqs j).count = (k.rqs j).count := fun j => by
    by_cases hj : j = q
    · subst hj
      rw [rqs_setRq_self]
      exact ⟨hRoot _, hCount _⟩
    · rw [rqs_setRq_of_ne k f hj]
      exact ⟨rfl, rfl⟩
  exact h.congr (fun j => (hRq j).1) (fun j => (hRq j).2) fun _ _ => ⟨rfl, rfl⟩

theorem bumpMin (q : ℕ) : Queues (k.bumpMin q) home := by
  unfold Kernel.bumpMin
  split
  · split
    · exact h.setRq _ (fun _ => rfl) fun _ => rfl
    · exact h
  · exact h

/-- An operation on the queue `q` that moves `p` between it and no queue. -/
theorem move {dest : Option ℕ} (hKey : k'.keyBefore = k.keyBefore)
    (hOther : ∀ j ≠ q, k'.rqs j = k.rqs j) (hAway : ∀ j ≠ q, home p ≠ some j ∧ dest ≠ some j)
    (hMem : ∀ x, x ∈ (k'.rqs q).root.toList ↔ update home p dest x = some q)
    (hSorted : Treap.Sorted k.keyBefore (k'.rqs q).root)
    (hCount : (k'.rqs q).count = (k'.rqs q).root.toList.length) :
    Queues k' (update home p dest) := by
  refine ⟨fun j x => ?_, fun j => ?_, fun j => ?_⟩ <;> rcases eq_or_ne j q with rfl | hj
  · exact hMem x
  · rw [hOther j hj, h.mem]
    rcases eq_or_ne x p with rfl | hx
    · rw [update_self]
      exact iff_of_false (hAway j hj).1 (hAway j hj).2
    · rw [update_of_ne hx]
  · rwa [hKey]
  · rw [hKey, hOther j hj]
    exact h.sorted j
  · exact hCount
  · rw [hOther j hj, h.count]

section

variable (hp : home p = none) (hPid : ∀ a, home a = some q → (k.procs a).pid ≠ (k.procs p).pid)
include hp hPid

theorem insert : Queues ((k.trInsert q p).setRq q fun rq => { rq with count := rq.count + 1 })
      (update home p (some q)) := by
  have hSelf : ((k.trInsert q p).setRq q fun rq => { rq with count := rq.count + 1 }).rqs q =
      { k.rqs q with
        root := (k.rqs q).root.insert k.tprioOf k.keyBefore p, count := (k.rqs q).count + 1 } := by
    simp [trInsert]
  refine h.move (q := q) rfl (fun j hj => ?_) (fun j hj => by simp [hp, hj.symm])
    (fun x => ?_) ?_ ?_
  · rw [rqs_setRq_of_ne _ _ hj, trInsert, rqs_setRq_of_ne _ _ hj]
  · rw [hSelf]
    simp only [Treap.mem_insert]
    by_cases hx : x = p
    · simp [hx]
    · rw [update_of_ne hx, h.mem]
      simp [hx]
  · rw [hSelf]
    refine (h.sorted q).insert (keyBefore_trans k) fun x hx => ?_
    exact (keyBefore_total fun hEq => hPid x ((h.mem q x).mp hx) hEq.2).symm
  · rw [hSelf]
    simp only [(Treap.perm_insert p (k.rqs q).root).length_eq, List.length_cons, h.count]

theorem rqEnqueue : Queues (k.rqEnqueue q p) (update home p (some q)) := by
  have hPlaced : Queues (k.modify p (place (k.rqs q))) home := h.modify _ (.inl hp)
  refine (hPlaced.insert hp fun a ha => ?_).bumpMin q
  have hne : a ≠ p := fun hEq => by simp [hEq, hp] at ha
  have hPlacePid : (place (k.rqs q) (k.procs p)).pid = (k.procs p).pid := by
    unfold place
    simp only
    split <;> rfl
  rw [procs_modify_of_ne _ _ hne, procs_modify_self, hPlacePid]
  exact hPid a ha

end

theorem delete (hp : home p = some q) :
    Queues ((k.trDelete q p).setRq q fun rq => { rq with count := rq.count - 1 })
    (update home p none) := by
  have hMem : p ∈ (k.rqs q).root.toList := (h.mem q p).mpr hp
  have hSelf : ((k.trDelete q p).setRq q fun rq => { rq with count := rq.count - 1 }).rqs q =
      { k.rqs q with
        root := (k.rqs q).root.delete k.tprioOf k.keyBefore p, count := (k.rqs q).count - 1 } := by
    simp [trDelete]
  refine h.move (q := q) rfl (fun j hj => ?_) (fun j hj => by simp [hp, hj.symm])
    (fun x => ?_) ?_ ?_
  · rw [rqs_setRq_of_ne _ _ hj, trDelete, rqs_setRq_of_ne _ _ hj]
  · rw [hSelf]
    simp only [Treap.mem_delete (keyBefore_irrefl k) (keyBefore_asymm k) (h.sorted q) hMem]
    by_cases hx : x = p
    · simp [hx]
    · rw [update_of_ne hx, h.mem]
      simp [hx]
  · rw [hSelf]
    exact (h.sorted q).delete (keyBefore_irrefl k) (keyBefore_asymm k) hMem
  · rw [hSelf]
    simp only [Treap.toList_delete (keyBefore_irrefl k) (keyBefore_asymm k) (h.sorted q) hMem,
      List.length_erase_of_mem hMem, h.count]

theorem rqDequeue (hp : home p = some q) : Queues (k.rqDequeue q p) (update home p none) :=
  (h.delete hp).bumpMin q

end

end Queues

end Gnos.Kernel
