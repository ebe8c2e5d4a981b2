import Mathlib

/-! Hash tables with open addressing and linear probing.  A deleted entry leaves a tombstone, which
a search passes and an insertion reuses.  `Probed` is the invariant. -/

namespace Gnos.ProofKit

open Function Nat Option

inductive Slot (κ ν : Type*) where
  | free
  | tomb
  | used (k : κ) (v : ν)
  deriving DecidableEq

namespace Slot

variable {κ ν : Type*}

def isUsed : Slot κ ν → Bool
  | used _ _ => true
  | _ => false

end Slot

namespace Probe

section Slots

variable {κ ν : Type*}

/-- The first slot from probe `i` on that an insertion can take. -/
def vacantFrom (n start : ℕ) (t : ℕ → Slot κ ν) : ℕ → ℕ → Option ℕ
  | 0, _ => none
  | r + 1, i =>
    if (t ((start + i) % n)).isUsed then vacantFrom n start t r (i + 1)
    else some ((start + i) % n)

variable (n : ℕ) (hash : κ → ℕ) (t : ℕ → Slot κ ν)

def vacant (k : κ) : Option ℕ := vacantFrom n (hash k) t n 0

def usedSlots : Finset ℕ := (Finset.range n).filter fun j => (t j).isUsed

/-- Every key is in one slot at most, and no free slot comes before it in its probe order. -/
structure Probed : Prop where
  pos : 0 < n
  unique : ∀ i j k v w, i < n → j < n → t i = .used k v → t j = .used k w → i = j
  reach : ∀ k v d, d < n → t ((hash k + d) % n) = .used k v → ∀ i < d, t ((hash k + i) % n) ≠ .free

variable {n hash t} {k : κ} {v : ν} {j : ℕ}

theorem probed_empty (hn : 0 < n) (hash : κ → ℕ) : Probed n hash (fun _ => (.free : Slot κ ν)) := by
  refine ⟨hn, ?_, ?_⟩
  · intro i j k v w _ _ h
    cases h
  · intro k v d _ h
    cases h

theorem exists_probe (hn : 0 < n) (hj : j < n) (start : ℕ) : ∃ d < n, (start + d) % n = j := by
  refine ⟨(j + (n - start % n)) % n, mod_lt _ hn, ?_⟩
  have hStart := mod_lt start hn
  rw [add_mod, mod_mod, ← add_mod, add_comm start, add_assoc, add_mod]
  have hSum : (n - start % n + start) % n = 0 := by
    rw [add_mod, ← mod_mod start n, ← add_mod, mod_mod]
    rw [Nat.sub_add_cancel hStart.le, Nat.mod_self]
  rw [hSum, add_zero, mod_mod, mod_eq_of_lt hj]

theorem mem_usedSlots : j ∈ usedSlots n t ↔ j < n ∧ (t j).isUsed := by
  rw [usedSlots, Finset.mem_filter, Finset.mem_range]

theorem usedSlots_update (s : Slot κ ν) (hj : j < n) : usedSlots n (update t j s) =
      if s.isUsed then insert j (usedSlots n t) else (usedSlots n t).erase j := by
  ext i
  rw [mem_usedSlots]
  rcases eq_or_ne i j with rfl | hne
  · split <;> simp_all
  · split <;> simp [mem_usedSlots, hne]

namespace Probed

theorem update (h : Probed n hash t) (s : Slot κ ν) (hs : s ≠ .free)
    (hUnique : ∀ k v i w, s = .used k v → i < n → i ≠ j → t i ≠ .used k w)
    (hReach : ∀ k v d, s = .used k v → d < n → (hash k + d) % n = j →
      ∀ i < d, t ((hash k + i) % n) ≠ .free) : Probed n hash (update t j s) := by
  have hStays : ∀ i, t i ≠ .free → Function.update t j s i ≠ .free := by
    intro i hi
    rcases eq_or_ne i j with rfl | hne
    · rwa [update_self]
    · rwa [update_of_ne hne]
  refine ⟨h.pos, ?_, ?_⟩
  · intro a b k v w ha hb hta htb
    rcases eq_or_ne a j with rfl | hne
    · rw [update_self] at hta
      by_contra hab
      rw [update_of_ne (Ne.symm hab)] at htb
      exact hUnique k v b w hta hb (Ne.symm hab) htb
    · rw [update_of_ne hne] at hta
      rcases eq_or_ne b j with rfl | hne'
      · rw [update_self] at htb
        exact absurd hta (hUnique k w a v htb ha hne)
      · rw [update_of_ne hne'] at htb
        exact h.unique a b k v w ha hb hta htb
  · intro k v d hd hUsed i hi
    apply hStays
    rcases eq_or_ne ((hash k + d) % n) j with hEq | hne
    · rw [hEq, update_self] at hUsed
      exact hReach k v d hUsed hd hEq i hi
    · rw [update_of_ne hne] at hUsed
      exact h.reach k v d hd hUsed i hi

theorem setValue (h : Probed n hash t) (hj : j < n) (hUsed : t j = .used k v) (w : ν) :
    Probed n hash (Function.update t j (.used k w)) := by
  apply h.update _ (by simp)
  · intro k' v' i w' hs hi hne hti
    obtain ⟨rfl, -⟩ := Slot.used.inj hs
    exact hne (h.unique i j k w' v hi hj hti hUsed)
  · intro k' v' d hs hd hPos i hi
    obtain ⟨rfl, -⟩ := Slot.used.inj hs
    exact h.reach k v d hd (by rw [hPos, hUsed]) i hi

theorem delete (h : Probed n hash t) : Probed n hash (Function.update t j .tomb) :=
  h.update _ (by simp) (fun _ _ _ _ hs => by cases hs) fun _ _ _ hs => by cases hs

end Probed

end Slots

section Keys

variable {κ ν : Type*} [DecidableEq κ]

/-- The search for `k` from probe `i` on, with `r` probes to go: the position of its slot. -/
def findFrom (n start : ℕ) (t : ℕ → Slot κ ν) (k : κ) : ℕ → ℕ → Option ℕ
  | 0, _ => none
  | r + 1, i =>
    match t ((start + i) % n) with
    | .free => none
    | .tomb => findFrom n start t k r (i + 1)
    | .used k' _ => if k' = k then some ((start + i) % n) else findFrom n start t k r (i + 1)

variable (n : ℕ) (hash : κ → ℕ) (t : ℕ → Slot κ ν)

def find (k : κ) : Option ℕ := findFrom n (hash k) t k n 0

def get (k : κ) : Option ν :=
  match find n hash t k with
  | some j =>
    match t j with
    | .used _ v => some v
    | _ => none
  | none => none

variable {n hash t} {k : κ} {v : ν} {j : ℕ}

theorem findFrom_eq_some {start r i : ℕ} (h : findFrom n start t k r i = some j) (hn : 0 < n) :
    j < n ∧ ∃ v, t j = .used k v := by
  induction r generalizing i with
  | zero => cases h
  | succ r ih =>
    unfold findFrom at h
    split at h
    · cases h
    · exact ih h
    · rename_i k' w hSlot
      split_ifs at h with hKey
      · rw [← some.inj h]
        exact ⟨mod_lt _ hn, w, by rw [hSlot, hKey]⟩
      · exact ih h

theorem findFrom_eq_none {start r i d : ℕ} (h : findFrom n start t k r i = none)
    (hFree : ∀ e, i ≤ e → e < d → t ((start + e) % n) ≠ .free) (hLo : i ≤ d) (hHi : d < i + r) :
    t ((start + d) % n) ≠ .used k v := by
  induction r generalizing i with
  | zero => omega
  | succ r ih =>
    have hRest : findFrom n start t k r (i + 1) = none → i < d →
        t ((start + d) % n) ≠ .used k v := fun h' hlt =>
      ih h' (fun e he => hFree e (by omega)) hlt (by omega)
    unfold findFrom at h
    intro hUsed
    rcases eq_or_lt_of_le hLo with rfl | hlt
    · rw [hUsed] at h
      simp at h
    · split at h
      · rename_i hSlot
        exact hFree i (le_refl i) hlt hSlot
      · exact hRest h hlt hUsed
      · split at h
        · cases h
        · exact hRest h hlt hUsed

namespace Probed

section

variable (h : Probed n hash t)
include h

theorem find_eq_none (hNone : find n hash t k = none) (hj : j < n) : t j ≠ .used k v := by
  obtain ⟨d, hd, rfl⟩ := exists_probe h.pos hj (hash k)
  intro hUsed
  exact findFrom_eq_none hNone (fun e _ he => h.reach k v d hd hUsed e he) (zero_le d)
    (by omega) hUsed

theorem find_eq_some (hj : j < n) (hUsed : t j = .used k v) : find n hash t k = some j := by
  cases hFind : find n hash t k with
  | none => exact absurd hUsed (h.find_eq_none hFind hj)
  | some i =>
    obtain ⟨hi, w, hw⟩ := findFrom_eq_some hFind h.pos
    rw [h.unique i j k w v hi hj hw hUsed]

theorem get_eq_some : get n hash t k = some v ↔ ∃ j < n, t j = .used k v := by
  unfold get
  constructor
  · intro hGet
    cases hFind : find n hash t k with
    | none =>
      rw [hFind] at hGet
      cases hGet
    | some i =>
      obtain ⟨hi, w, hw⟩ := findFrom_eq_some hFind h.pos
      rw [hFind] at hGet
      simp only [hw, some.injEq] at hGet
      exact ⟨i, hi, by rw [hw, hGet]⟩
  · rintro ⟨j, hj, hUsed⟩
    rw [h.find_eq_some hj hUsed]
    simp only [hUsed]

theorem get_eq_none : get n hash t k = none ↔ ∀ j < n, ∀ v, t j ≠ .used k v := by
  rw [eq_none_iff_forall_ne_some]
  constructor
  · intro hNone j hj v hUsed
    exact hNone v (h.get_eq_some.mpr ⟨j, hj, hUsed⟩)
  · intro hAll v hGet
    obtain ⟨j, hj, hUsed⟩ := h.get_eq_some.mp hGet
    exact hAll j hj v hUsed

theorem find_cases (k : κ) : (find n hash t k = none ∧ get n hash t k = none) ∨
      ∃ j v, j < n ∧ find n hash t k = some j ∧ t j = .used k v ∧ get n hash t k = some v := by
  cases hFind : find n hash t k with
  | none =>
    refine .inl ⟨rfl, h.get_eq_none.mpr fun j hj v => h.find_eq_none hFind hj⟩
  | some j =>
    obtain ⟨hj, v, hUsed⟩ := findFrom_eq_some hFind h.pos
    exact .inr ⟨j, v, hj, rfl, hUsed, h.get_eq_some.mpr ⟨j, hj, hUsed⟩⟩

theorem get_update_used {v : ν} (h' : Probed n hash (Function.update t j (.used k v))) (hj : j < n)
    (hOld : ∀ k' w, t j = .used k' w → k' = k) (k' : κ) :
    get n hash (Function.update t j (.used k v)) k' =
      if k' = k then some v else get n hash t k' := by
  split_ifs with hEq
  · rw [h'.get_eq_some]
    exact ⟨j, hj, by rw [update_self, hEq]⟩
  · apply ext
    intro w
    rw [h'.get_eq_some, h.get_eq_some]
    constructor
    · rintro ⟨i, hi, hUsed⟩
      rcases eq_or_ne i j with rfl | hij
      · rw [update_self] at hUsed
        exact absurd (Slot.used.inj hUsed).1.symm hEq
      · exact ⟨i, hi, by rwa [update_of_ne hij] at hUsed⟩
    · rintro ⟨i, hi, hUsed⟩
      refine ⟨i, hi, ?_⟩
      rw [update_of_ne _]
      · exact hUsed
      · rintro rfl
        exact hEq (hOld k' w hUsed)

theorem get_delete (hj : j < n) (hUsed : t j = .used k v) (k' : κ) :
    get n hash (Function.update t j .tomb) k' = if k' = k then none else get n hash t k' := by
  have h' : Probed n hash (Function.update t j .tomb) := h.delete
  split_ifs with hEq
  · rw [h'.get_eq_none]
    intro i hi w hUsed'
    rcases eq_or_ne i j with rfl | hij
    · rw [update_self] at hUsed'
      cases hUsed'
    · rw [update_of_ne hij, hEq] at hUsed'
      exact hij (h.unique i j k w v hi hj hUsed' hUsed)
  · apply ext
    intro w
    rw [h'.get_eq_some, h.get_eq_some]
    constructor
    · rintro ⟨i, hi, hUsed'⟩
      rcases eq_or_ne i j with rfl | hij
      · rw [update_self] at hUsed'
        cases hUsed'
      · exact ⟨i, hi, by rwa [update_of_ne hij] at hUsed'⟩
    · rintro ⟨i, hi, hUsed'⟩
      refine ⟨i, hi, ?_⟩
      rw [update_of_ne _]
      · exact hUsed'
      · rintro rfl
        rw [hUsed] at hUsed'
        exact hEq (Slot.used.inj hUsed').1.symm

end

end Probed

end Keys

end Probe

end Gnos.ProofKit
