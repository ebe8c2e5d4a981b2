import Gnos.Pmm.Alloc
import Gnos.ProofKit.Ledger
import Gnos.Vmm.Tree

/-! The invariant of the virtual memory manager: the page tables form a forest, and the books of the
frames are in order.  `base` is the set of frames that belong to none of the address spaces, `loose`
counts the references that no leaf entry stands for. -/

namespace Gnos

open ProofKit Function Finset

def Pte.hold (e : Pte) : Option (ℕ × Bool) := if e.p then some (e.frame, e.avl || e.cow) else none

/-- A copy-on-write entry is read-only and not otherwise shared. -/
def Pte.Sane (e : Pte) : Prop := e.p → e.cow → e.avl = false ∧ e.rw = false

theorem Pte.sane_of_cow {e : Pte} (h : e.cow = false) : e.Sane := by
  intro _ hCow
  rw [h] at hCow
  cases hCow

theorem Pte.hold_of_p {e : Pte} (h : e.p) : e.hold = some (e.frame, e.avl || e.cow) :=
  if_pos h

theorem Pte.hold_eq_none {e : Pte} : e.hold = none ↔ e.p = false := by
  unfold Pte.hold
  split <;> simp [*]

theorem Pte.hold_eq_some {e : Pte} {f : ℕ} {b : Bool} :
    e.hold = some (f, b) ↔ e.p ∧ e.frame = f ∧ (e.avl || e.cow) = b := by
  unfold Pte.hold
  split <;> simp [*]

namespace Vmm

def holds (s : Vmm) (x : ℕ × ℕ) : Option (ℕ × Bool) := (s.leaves x).hold

theorem holds_congr {s s' : Vmm} (h : s'.leaves = s.leaves) : s'.holds = s.holds :=
  funext fun x => congrArg Pte.hold (congrFun h x)

def taken (s : Vmm) : Set ℕ := {f | f < s.pmm.gTotal ∧ s.pmm.bitTest f}

def tableFrames (role : Roles) : Set ℕ := {f | role f ≠ none}

def userKeys : Finset (ℕ × ℕ) := Finset.range maxAddrspaces ×ˢ Finset.range userPages

theorem mem_userKeys {sp vpn : ℕ} :
    (sp, vpn) ∈ userKeys ↔ sp < maxAddrspaces ∧ vpn < userPages := by
  rw [userKeys, mem_product, mem_range, mem_range]

def Once (holds : ℕ × ℕ → Option (ℕ × Bool)) : Prop :=
  ∀ sp v w f b c, holds (sp, v) = some (f, b) → holds (sp, w) = some (f, c) → v = w

structure Inv (s : Vmm) (role : Roles) (base : Set ℕ) (loose : ℕ → ℕ) : Prop where
  pmm : s.pmm.Inv
  shm : Shm s
  typed : Typed s role
  slots : ∀ sp, s.gUsed sp → sp < maxAddrspaces
  ledger : Ledger userKeys s.holds s.refs s.taken (base ∪ tableFrames role) loose
  apart : ∀ f ∈ base, role f = none
  zero : 0 ∈ base
  once : Once s.holds
  sane : ∀ x, (s.leaves x).Sane

theorem Once.update_none {holds : ℕ × ℕ → Option (ℕ × Bool)} (h : Once holds) (x : ℕ × ℕ) :
    Once (update holds x none) := by
  have hSub : ∀ y v, update holds x none y = some v → holds y = some v := by
    intro y v hy
    rw [update_apply] at hy
    split at hy
    · cases hy
    · exact hy
  intro sp v w f b c hv hw
  exact h sp v w f b c (hSub _ _ hv) (hSub _ _ hw)

theorem Once.update_some {holds : ℕ × ℕ → Option (ℕ × Bool)} (h : Once holds) {sp vpn f : ℕ}
    {b : Bool} (hNew : ∀ w c, holds (sp, w) = some (f, c) → w = vpn) :
    Once (update holds (sp, vpn) (some (f, b))) := by
  intro sp' v w g c d hv hw
  rw [update_apply] at hv hw
  split_ifs at hv with hEq
  · obtain ⟨rfl, rfl⟩ := Prod.mk.inj hEq
    obtain ⟨rfl, rfl⟩ := Prod.mk.inj (Option.some.inj hv)
    split_ifs at hw with hEq'
    · exact (Prod.mk.inj hEq').2.symm
    · exact (hNew w d hw).symm
  · split_ifs at hw with hEq
    · obtain ⟨rfl, rfl⟩ := Prod.mk.inj hEq
      obtain ⟨rfl, rfl⟩ := Prod.mk.inj (Option.some.inj hw)
      exact hNew v c hv
    · exact h sp' v w g c d hv hw

theorem reserved_insert (base : Set ℕ) (role : Roles) (f : ℕ) :
    insert f base ∪ tableFrames role = insert f (base ∪ tableFrames role) := Set.insert_union

theorem reserved_diff {base : Set ℕ} {role : Roles} {f : ℕ} (hf : role f = none) :
    base \ {f} ∪ tableFrames role = (base ∪ tableFrames role) \ {f} := by
  ext g
  constructor
  · rintro (⟨hBase, hne⟩ | hRole)
    · exact ⟨.inl hBase, hne⟩
    · refine ⟨.inr hRole, ?_⟩
      rintro rfl
      exact hRole hf
  · rintro ⟨hBase | hRole, hne⟩
    · exact .inl ⟨hBase, hne⟩
    · exact .inr hRole

namespace Inv

variable {s s' : Vmm} {role : Roles} {base : Set ℕ} {loose : ℕ → ℕ} {sp vpn t f r : ℕ}

section

variable (h : Inv s role base loose)
include h

theorem base_taken (hf : f ∈ base) : f ∈ s.taken :=
  (h.ledger.cover f).mpr (.inl (.inl hf))

theorem base_free (hf : f ∈ base) (x : ℕ × ℕ) (b : Bool) : s.holds x ≠ some (f, b) :=
  (h.ledger.apart f (.inl hf)).1 x b

theorem not_base_of_not_taken (hf : f ∉ s.taken) : f ∉ base :=
  fun hBase => hf (h.base_taken hBase)

theorem role_of_not_taken (hf : f ∉ s.taken) : role f = none := by
  by_contra hne
  exact hf ((h.ledger.cover f).mpr (.inl (.inr hne)))

theorem zero_ne (hf : f ∉ s.taken) : f ≠ 0 := by
  rintro rfl
  exact hf (h.base_taken h.zero)

theorem card_sharers_le (f : ℕ) : (sharers userKeys s.holds f).card ≤ maxAddrspaces := by
  rw [← card_range maxAddrspaces]
  apply card_le_card_of_injOn Prod.fst
  · intro x hx
    exact mem_coe.mpr (mem_range.mpr (mem_userKeys.mp (mem_filter.mp (mem_coe.mp hx)).1).1)
  · rintro ⟨sp, v⟩ hv ⟨sp', w⟩ hw hEq
    obtain rfl : sp = sp' := hEq
    have hv' := h.ledger.mem_sharers.mp hv
    have hw' := h.ledger.mem_sharers.mp hw
    rw [h.once sp v w f _ _ hv' hw']

theorem refs_le (hRefs : s.refs f = some r) : r ≤ maxAddrspaces + loose f := by
  have hCount := h.ledger.count f
  rw [hRefs, Option.getD_some] at hCount
  have := h.card_sharers_le f
  omega

end

end Inv

end Vmm

end Gnos
