import Mathlib

/-! Ownership of resources that keys hold.  A key holds a resource alone or shares it; a table
counts the references to the shared ones, and `loose` those that no key stands for.  `Ledger` says
that the books are in order, and every operation on a table of owners is a sequence of edits that
keep it. -/

namespace Gnos.ProofKit

open Function Finset

variable {κ φ : Type*} [DecidableEq φ]

/-- The keys that share a resource.  A holding is a resource and whether it is shared. -/
def sharers (keys : Finset κ) (holds : κ → Option (φ × Bool)) (f : φ) : Finset κ :=
  keys.filter fun x => holds x = some (f, true)

structure Ledger (keys : Finset κ) (holds : κ → Option (φ × Bool)) (refs : φ → Option ℕ)
    (taken reserved : Set φ) (loose : φ → ℕ) : Prop where
  dom : ∀ x, holds x ≠ none → x ∈ keys
  cover : ∀ f, f ∈ taken ↔ f ∈ reserved ∨ (∃ x b, holds x = some (f, b)) ∨ 0 < loose f
  apart : ∀ f ∈ reserved, (∀ x b, holds x ≠ some (f, b)) ∧ loose f = 0
  count : ∀ f, (refs f).getD 0 = (sharers keys holds f).card + loose f
  pos : ∀ f, refs f ≠ some 0
  alone : ∀ x f, holds x = some (f, false) → loose f = 0 ∧ ∀ y b, holds y = some (f, b) → y = x

/-- The books of one resource. -/
structure Entry (keys : Finset κ) (holds : κ → Option (φ × Bool)) (refs : Option ℕ)
    (taken reserved : Prop) (loose : ℕ) (f : φ) : Prop where
  cover : taken ↔ reserved ∨ (∃ x b, holds x = some (f, b)) ∨ 0 < loose
  apart : reserved → (∀ x b, holds x ≠ some (f, b)) ∧ loose = 0
  count : refs.getD 0 = (sharers keys holds f).card + loose
  pos : refs ≠ some 0
  alone : ∀ x, holds x = some (f, false) → loose = 0 ∧ ∀ y b, holds y = some (f, b) → y = x

theorem Entry.congr {keys : Finset κ} {holds holds' : κ → Option (φ × Bool)} {refs : Option ℕ}
    {taken reserved : Prop} {loose : ℕ} {f : φ} (h : Entry keys holds refs taken reserved loose f)
    (hSame : ∀ y b, holds' y = some (f, b) ↔ holds y = some (f, b)) :
    Entry keys holds' refs taken reserved loose f := by
  have hSharers : sharers keys holds' f = sharers keys holds f := filter_congr fun y _ =>
    hSame y true
  refine ⟨?_, ?_, by rw [hSharers]; exact h.count, h.pos, ?_⟩
  · simpa only [hSame] using h.cover
  · simpa only [ne_eq, hSame] using h.apart
  · simpa only [hSame] using h.alone

namespace Ledger

variable {keys : Finset κ} {holds : κ → Option (φ × Bool)} {refs : φ → Option ℕ} {loose' : φ → ℕ}
  {taken reserved : Set φ} {loose : φ → ℕ} {x : κ} {f : φ} {r : ℕ}

section

variable (h : Ledger keys holds refs taken reserved loose)
include h

theorem mem_sharers : x ∈ sharers keys holds f ↔ holds x = some (f, true) := by
  rw [sharers, mem_filter]
  refine ⟨And.right, fun hx => ⟨h.dom x ?_, hx⟩⟩
  rw [hx]
  exact Option.some_ne_none _

theorem refs_eq_none (hShared : ∀ x, holds x ≠ some (f, true)) (hLoose : loose f = 0) :
    refs f = none := by
  have hEmpty : sharers keys holds f = ∅ := by
    rw [eq_empty_iff_forall_notMem]
    intro x hx
    exact hShared x (h.mem_sharers.mp hx)
  have hCount := h.count f
  rw [hEmpty, card_empty, hLoose] at hCount
  cases hRefs : refs f with
  | none => rfl
  | some r =>
    rw [hRefs] at hCount
    have hZero : r = 0 := hCount
    rw [hZero] at hRefs
    exact absurd hRefs (h.pos f)

theorem refs_of_reserved (hf : f ∈ reserved) : refs f = none :=
  h.refs_eq_none (fun x => (h.apart f hf).1 x true) (h.apart f hf).2

theorem refs_of_alone (hx : holds x = some (f, false)) : refs f = none := by
  refine h.refs_eq_none (fun y hy => ?_) (h.alone x f hx).1
  rw [(h.alone x f hx).2 y true hy, hx] at hy
  cases hy

theorem shared_of_refs (hRefs : refs f = some r) {b : Bool} (hx : holds x = some (f, b)) : b := by
  cases b with
  | true => rfl
  | false =>
    rw [h.refs_of_alone hx] at hRefs
    cases hRefs

theorem not_reserved_of_holds {b : Bool} (hx : holds x = some (f, b)) : f ∉ reserved :=
  fun hf => (h.apart f hf).1 x b hx

end

section

variable (h : Ledger keys holds refs taken reserved loose)
include h

theorem entry (f : φ) : Entry keys holds (refs f) (f ∈ taken) (f ∈ reserved) (loose f) f :=
  ⟨h.cover f, h.apart f, h.count f, h.pos f, fun x => h.alone x f⟩

/-- An edit that concerns one resource. -/
theorem change {holds' : κ → Option (φ × Bool)} {refs' : φ → Option ℕ} {taken' reserved' : Set φ}
    (f : φ) (hDom : ∀ y, holds' y ≠ none → y ∈ keys)
    (hHolds : ∀ g ≠ f, ∀ y b, holds' y = some (g, b) ↔ holds y = some (g, b))
    (hRest : ∀ g ≠ f, refs' g = refs g ∧ (g ∈ taken' ↔ g ∈ taken) ∧ (g ∈ reserved' ↔ g ∈ reserved) ∧
      loose' g = loose g)
    (hf : Entry keys holds' (refs' f) (f ∈ taken') (f ∈ reserved') (loose' f) f) :
    Ledger keys holds' refs' taken' reserved' loose' := by
  have hAll : ∀ g, Entry keys holds' (refs' g) (g ∈ taken') (g ∈ reserved')
      (loose' g) g := fun g => by
    rcases eq_or_ne g f with rfl | hne
    · exact hf
    · obtain ⟨hRefs, hTaken, hRes, hLoose⟩ := hRest g hne
      rw [hRefs, hTaken, hRes, hLoose]
      exact (h.entry g).congr (hHolds g hne)
  exact ⟨hDom, fun g => (hAll g).cover, fun g => (hAll g).apart, fun g => (hAll g).count,
    fun g => (hAll g).pos, fun x g => (hAll g).alone x⟩

theorem take (hf : f ∉ taken) :
    Ledger keys holds refs (insert f taken) (insert f reserved) loose := by
  rw [h.cover f, not_or, not_or, not_exists] at hf
  obtain ⟨-, hHolds, hLoose⟩ := hf
  refine h.change f h.dom (fun _ _ _ _ => Iff.rfl)
    (fun g hne => ⟨rfl, by simp [hne], by simp [hne], rfl⟩) ?_
  exact { h.entry f with
    cover := by simp
    apart := fun _ => ⟨fun x b hx => hHolds x ⟨b, hx⟩, by omega⟩ }

theorem give (hf : f ∈ reserved) : Ledger keys holds refs (taken \ {f}) (reserved \ {f}) loose := by
  obtain ⟨hHolds, hLoose⟩ := h.apart f hf
  refine h.change f h.dom (fun _ _ _ _ => Iff.rfl)
    (fun g hne => ⟨rfl, by simp [hne], by simp [hne], rfl⟩) ?_
  exact { h.entry f with
    cover := by simp [hHolds, hLoose]
    apart := by simp }

theorem untrack (hRefs : refs f = some 1) (hLoose : loose f = 1) :
    Ledger keys holds (update refs f none) taken (insert f reserved) (update loose f 0) := by
  have hCount := h.count f
  rw [hRefs, Option.getD_some, hLoose] at hCount
  have hEmpty : sharers keys holds f = ∅ := card_eq_zero.mp (by omega)
  have hNone : ∀ x b, holds x ≠ some (f, b) := by
    intro x b hx
    obtain rfl := h.shared_of_refs hRefs hx
    have hMem := h.mem_sharers.mpr hx
    rw [hEmpty] at hMem
    cases hMem
  refine h.change f h.dom (fun _ _ _ _ => Iff.rfl)
    (fun g hne => ⟨update_of_ne hne _ _, Iff.rfl, by simp [hne], update_of_ne hne _ _⟩) ?_
  rw [update_self, update_self]
  exact ⟨by simp [(h.cover f).mpr (.inr (.inr (by omega)))],
    fun _ => ⟨hNone, rfl⟩, by rw [hEmpty]; rfl, by simp, fun x hx => absurd hx (hNone x false)⟩

theorem decr (hRefs : refs f = some (r + 1)) (hr : 0 < r) (hLoose : 0 < loose f) :
    Ledger keys holds (update refs f (some r)) taken reserved (update loose f (loose f - 1)) := by
  have hCount := h.count f
  rw [hRefs, Option.getD_some] at hCount
  refine h.change f h.dom (fun _ _ _ _ => Iff.rfl)
    (fun g hne => ⟨update_of_ne hne _ _, Iff.rfl, Iff.rfl, update_of_ne hne _ _⟩) ?_
  rw [update_self, update_self]
  refine ⟨iff_of_true ((h.cover f).mpr (.inr (.inr hLoose))) ?_, fun hf => ?_, ?_, by simp; omega,
    fun x hx => ?_⟩
  · by_cases hMore : 1 < loose f
    · exact .inr (.inr (by omega))
    · obtain ⟨x, hx⟩ := card_pos.mp (show 0 < (sharers keys holds f).card by omega)
      exact .inr (.inl ⟨x, true, h.mem_sharers.mp hx⟩)
  · rw [(h.apart f hf).2] at hLoose
    omega
  · rw [Option.getD_some]
    omega
  · cases h.shared_of_refs hRefs hx

end

section Holdings

variable [DecidableEq κ] {v : Option (φ × Bool)}

theorem sharers_update (hx : x ∈ keys) (v : Option (φ × Bool)) (g : φ) :
    sharers keys (update holds x v) g =
      if v = some (g, true) then insert x (sharers keys holds g)
      else (sharers keys holds g).erase x := by
  ext y
  by_cases hyx : y = x
  · subst hyx
    by_cases hv : v = some (g, true) <;> simp [sharers, hv, hx]
  · by_cases hv : v = some (g, true) <;> simp [sharers, hv, hyx]

theorem card_sharers_same (hx : x ∈ keys) (hOld : ∀ g, holds x ≠ some (g, true))
    (hNew : ∀ g, v ≠ some (g, true)) (g : φ) :
    (sharers keys (update holds x v) g).card = (sharers keys holds g).card := by
  rw [sharers_update hx, if_neg (hNew g), erase_eq_of_notMem]
  simp [sharers, hOld g]

section

variable (h : Ledger keys holds refs taken reserved loose)
include h

theorem changeKey {reserved' : Set φ} (hKey : x ∈ keys)
    (hOld : ∀ c, holds x = some c → c.1 = f) (hNew : ∀ c, v = some c → c.1 = f)
    (hRest : ∀ g ≠ f, (g ∈ reserved' ↔ g ∈ reserved) ∧ loose' g = loose g)
    (hf : Entry keys (update holds x v) (refs f) (f ∈ taken) (f ∈ reserved') (loose' f) f) :
    Ledger keys (update holds x v) refs taken reserved' loose' := by
  refine h.change f (fun y hy => ?_) (fun g hne y b => ?_)
    (fun g hne => ⟨rfl, Iff.rfl, hRest g hne⟩) hf
  · rcases eq_or_ne y x with rfl | hyx
    · exact hKey
    · rw [update_of_ne hyx] at hy
      exact h.dom y hy
  · rcases eq_or_ne y x with rfl | hyx
    · rw [update_self]
      exact iff_of_false (fun hv => hne (hNew _ hv)) fun ho => hne (hOld _ ho)
    · rw [update_of_ne hyx]

theorem clearAlone (hx : holds x = some (f, false)) :
    Ledger keys (update holds x none) refs taken (insert f reserved) loose := by
  obtain ⟨hLoose, hOnly⟩ := h.alone x f hx
  have hKey : x ∈ keys := h.dom x (by simp [hx])
  have hGone : ∀ y b, update holds x none y ≠ some (f, b) := by
    intro y b hy
    rcases eq_or_ne y x with rfl | hne
    · simp at hy
    · rw [update_of_ne hne] at hy
      exact hne (hOnly y b hy)
  refine h.changeKey hKey (by simp [hx]) (by simp) (fun g hne => ⟨by simp [hne], rfl⟩) ⟨?_,
    fun _ => ⟨hGone, hLoose⟩, ?_, h.pos f, fun y hy => absurd hy (hGone y false)⟩
  · exact iff_of_true ((h.cover f).mpr (.inr (.inl ⟨x, false, hx⟩))) (.inl (Set.mem_insert f _))
  · rw [card_sharers_same hKey (by simp [hx]) (by simp)]
    exact h.count f

theorem clearShared (hx : holds x = some (f, true)) :
    Ledger keys (update holds x none) refs taken reserved
      (update loose f (loose f + 1)) := by
  have hKey : x ∈ keys := h.dom x (by simp [hx])
  refine h.changeKey hKey (by simp [hx]) (by simp) (fun g hne => ⟨Iff.rfl, update_of_ne hne _ _⟩) ?_
  rw [update_self]
  refine ⟨?_, fun hf => absurd hx ((h.apart f hf).1 x true), ?_, h.pos f, fun y hy => ?_⟩
  · exact iff_of_true ((h.cover f).mpr (.inr (.inl ⟨x, true, hx⟩))) (.inr (.inr (Nat.succ_pos _)))
  · have hCount := h.count f
    have hCard := card_erase_add_one (h.mem_sharers.mpr hx)
    rw [sharers_update hKey, if_neg (by simp)]
    omega
  · rcases eq_or_ne y x with rfl | hne
    · simp at hy
    · rw [update_of_ne hne] at hy
      exact absurd ((h.alone y f hy).2 x true hx).symm hne

theorem fillAlone (hKey : x ∈ keys) (hNone : holds x = none) (hf : f ∈ reserved) :
    Ledger keys (update holds x (some (f, false))) refs taken (reserved \ {f}) loose := by
  obtain ⟨hHolds, hLoose⟩ := h.apart f hf
  have hOnly : ∀ y b, update holds x (some (f, false)) y = some (f, b) → y = x := by
    intro y b hy
    by_contra hne
    rw [update_of_ne hne] at hy
    exact hHolds y b hy
  refine h.changeKey hKey (by simp [hNone]) (by simp) (fun g hne => ⟨by simp [hne], rfl⟩)
    ⟨?_, by simp, ?_,
    h.pos f, fun y hy => ⟨hLoose, fun z b hz => (hOnly z b hz).trans (hOnly y false hy).symm⟩⟩
  · exact iff_of_true ((h.cover f).mpr (.inl hf)) (.inr (.inl ⟨x, false, update_self x _ _⟩))
  · rw [card_sharers_same hKey (by simp [hNone]) (by simp)]
    exact h.count f

end

end Holdings

end Ledger

end Gnos.ProofKit
