import Mathlib

/-! Trees that are kept as a table of parents.  From every node in use the parents lead to the root,
so that the list of a node's ancestors is found in as many steps as the table has places. -/

namespace Gnos.ProofKit

open List

/-- `g` is `c` or one of the nodes above it. -/
def Under (parent : ℕ → Option ℕ) (g c : ℕ) : Prop :=
  Relation.ReflTransGen (fun x y => parent x = some y) c g

/-- The first `n` nodes on the way up from a node, itself included. -/
def chain (parent : ℕ → Option ℕ) : ℕ → ℕ → List ℕ
  | 0, _ => []
  | n + 1, c =>
    c :: match parent c with
      | none => []
      | some p => chain parent n p

structure Rooted (n : ℕ) (live : ℕ → Prop) (parent : ℕ → Option ℕ) (root : ℕ) : Prop where
  bound : ∀ c, live c → c < n
  root : live root ∧ parent root = none
  up : ∀ c p, live c → parent c = some p → live p
  depth : ∃ d : ℕ → ℕ, ∀ c p, live c → parent c = some p → d p < d c

variable {parent : ℕ → Option ℕ} {c g p : ℕ}

theorem under_of_root (h : parent c = none) : Under parent g c ↔ g = c := by
  constructor
  · intro hUnder
    rcases Relation.ReflTransGen.cases_head hUnder with hEq | ⟨y, hStep, -⟩
    · exact hEq.symm
    · rw [h] at hStep
      cases hStep
  · rintro rfl
    exact .refl

theorem under_of_parent (h : parent c = some p) : Under parent g c ↔ g = c ∨ Under parent g p := by
  constructor
  · intro hUnder
    rcases Relation.ReflTransGen.cases_head hUnder with hEq | ⟨y, hStep, hRest⟩
    · exact .inl hEq.symm
    · rw [h] at hStep
      rw [Option.some.inj hStep]
      exact .inr hRest
  · rintro (rfl | hUnder)
    · exact .refl
    · exact .head h hUnder

namespace Rooted

variable {n root : ℕ} {live : ℕ → Prop}

theorem exists_path (h : Rooted n live parent root) {d : ℕ → ℕ}
    (hDepth : ∀ c p, live c → parent c = some p → d p < d c) (hc : live c) :
    ∃ l : List ℕ, (∀ m, l.length ≤ m → chain parent m c = l) ∧
      (∀ x ∈ l, live x ∧ d x ≤ d c) ∧ l.Nodup ∧ ∀ g, g ∈ l ↔ Under parent g c := by
  induction hk : d c using Nat.strong_induction_on generalizing c with
  | _ k ih =>
    cases hParent : parent c with
    | none =>
      refine ⟨[c], ?_, ?_, nodup_singleton c, ?_⟩
      · intro m hm
        obtain ⟨m, rfl⟩ := Nat.exists_eq_add_of_le' hm
        simp only [length_singleton, chain, hParent]
      · intro x hx
        rw [mem_singleton.mp hx]
        exact ⟨hc, hk.le⟩
      · intro g
        rw [under_of_root hParent, mem_singleton]
    | some p =>
      have hLess := hDepth c p hc hParent
      obtain ⟨l, hChain, hLive, hNodup, hMem⟩ := ih (d p) (by omega) (h.up c p hc hParent) rfl
      refine ⟨c :: l, ?_, ?_, ?_, ?_⟩
      · intro m hm
        obtain ⟨m, rfl⟩ := Nat.exists_eq_add_of_le' (Nat.le_trans (Nat.succ_pos _) hm)
        rw [length_cons] at hm
        simp only [chain, hParent, hChain m (by omega)]
      · intro x hx
        rcases mem_cons.mp hx with rfl | hx
        · exact ⟨hc, hk.le⟩
        · have := hLive x hx
          exact ⟨this.1, by omega⟩
      · refine nodup_cons.mpr ⟨fun hIn => ?_, hNodup⟩
        have := (hLive c hIn).2
        omega
      · intro g
        rw [under_of_parent hParent, mem_cons, hMem]

theorem mem_chain (h : Rooted n live parent root) (hc : live c) :
    g ∈ chain parent n c ↔ Under parent g c := by
  obtain ⟨d, hDepth⟩ := h.depth
  obtain ⟨l, hChain, hLive, hNodup, hMem⟩ := h.exists_path hDepth hc
  have hSub : l ⊆ range n := fun x hx => mem_range.mpr (h.bound x (hLive x hx).1)
  have hLength : l.length ≤ n := by
    have := hNodup.length_le_of_subset hSub
    rwa [length_range] at this
  rw [hChain n hLength, hMem]

end Rooted

end Gnos.ProofKit
