import Mathlib

/-! Radix trees that live in a heap of nodes.  A key picks one child on every level, most
significant digit first.  A `Forest` gives each node at most one role: the tree it belongs to, its
level and the digits that lead to it.  The roots are on level `top`, the lowest nodes on level 1,
and only the first `width l` children of a node on level `l` count. -/

namespace Gnos.ProofKit

open Function Option

/-- The place of a node: its tree, its level, and the digits that lead to it. -/
structure Role (ρ : Type*) where
  tree : ρ
  level : ℕ
  pre : ℕ

variable {ρ : Type*}

structure Forest (b top : ℕ) (width : ℕ → ℕ) (root : ρ → Option ℕ) (child : ℕ → ℕ → Option ℕ)
    (role : ℕ → Option (Role ρ)) : Prop where
  base : 0 < top
  wide : ∀ l, width l ≤ b
  roots : ∀ r t, root r = some t → role t = some ⟨r, top, 0⟩
  down : ∀ t r l p i c, role t = some ⟨r, l + 1, p⟩ → 0 < l → i < width (l + 1) →
    child t i = some c → role c = some ⟨r, l, p * b + i⟩
  up : ∀ c r l q, role c = some ⟨r, l, q⟩ → (l = top ∧ q = 0 ∧ root r = some c) ∨
    0 < l ∧ l < top ∧ ∃ t p i, role t = some ⟨r, l + 1, p⟩ ∧ i < width (l + 1) ∧
      q = p * b + i ∧ child t i = some c

/-- The node on level 1 that `key` leads to from a node `n` levels above. -/
def descend (b : ℕ) (child : ℕ → ℕ → Option ℕ) (key : ℕ) : ℕ → ℕ → Option ℕ
  | 0, t => some t
  | n + 1, t => (child t (key / b ^ (n + 1) % b)).bind (descend b child key n)

theorem digits_unique {b p q i j : ℕ} (hi : i < b) (hj : j < b) (h : p * b + i = q * b + j) :
    p = q ∧ i = j := by
  have hb : 0 < b := Nat.lt_of_le_of_lt (Nat.zero_le i) hi
  have hDiv := congrArg (· / b) h
  have hMod := congrArg (· % b) h
  simp only [Nat.mul_comm _ b, Nat.mul_add_div hb, Nat.mul_add_mod, Nat.div_eq_of_lt hi,
    Nat.div_eq_of_lt hj, Nat.mod_eq_of_lt hi, Nat.mod_eq_of_lt hj, Nat.add_zero] at hDiv hMod
  exact ⟨hDiv, hMod⟩

namespace Forest

variable {b top : ℕ} {width : ℕ → ℕ} {root : ρ → Option ℕ} {child child' : ℕ → ℕ → Option ℕ}
  {role : ℕ → Option (Role ρ)} {t c n i l p : ℕ} {r : ρ}

section

variable (h : Forest b top width root child role) {q : ℕ}
include h

theorem level_le (hc : role c = some ⟨r, l, q⟩) : l ≤ top := by
  rcases h.up c r l q hc with ⟨rfl, -, -⟩ | ⟨-, hLt, -⟩
  · exact Nat.le_refl _
  · exact Nat.le_of_lt hLt

theorem unique {q c' : ℕ} (hc : role c = some ⟨r, l, q⟩) (hc' : role c' = some ⟨r, l, q⟩) :
    c = c' := by
  -- Downwards from the roots: equal roles have equal parents and equal digits.
  obtain ⟨d, hd⟩ := Nat.exists_eq_add_of_le (h.level_le hc)
  induction d generalizing l q c c' with
  | zero =>
    rcases h.up c r l q hc with ⟨-, -, hRoot⟩ | ⟨-, hLt, -⟩
    · rcases h.up c' r l q hc' with ⟨-, -, hRoot'⟩ | ⟨-, hLt, -⟩
      · exact some.inj (hRoot.symm.trans hRoot')
      · omega
    · omega
  | succ d ih =>
    rcases h.up c r l q hc with ⟨hTop, -, -⟩ | ⟨-, -, t, p, i, ht, hi, hq, hChild⟩
    · omega
    · rcases h.up c' r l q hc' with ⟨hTop, -, -⟩ | ⟨-, -, t', p', i', ht', hi', hq', hChild'⟩
      · omega
      · obtain ⟨rfl, rfl⟩ := digits_unique (Nat.lt_of_lt_of_le hi (h.wide _))
          (Nat.lt_of_lt_of_le hi' (h.wide _)) (hq.symm.trans hq')
        obtain rfl := ih ht ht' (by omega)
        exact some.inj (hChild.symm.trans hChild')

theorem parent (hc : role c = some ⟨r, l, q⟩) (hl : l < top) :
    ∃ t, role t = some ⟨r, l + 1, q / b⟩ ∧ q % b < width (l + 1) ∧ child t (q % b) = some c := by
  rcases h.up c r l q hc with ⟨hTop, -, -⟩ | ⟨-, -, t, p, i, ht, hi, rfl, hChild⟩
  · omega
  · have hib := Nat.lt_of_lt_of_le hi (h.wide (l + 1))
    have hEq : p * b + i = (p * b + i) / b * b + (p * b + i) % b := (Nat.div_add_mod' _ _).symm
    obtain ⟨hp, hi'⟩ := digits_unique hib (Nat.mod_lt _ (by omega)) hEq
    rw [← hp, ← hi']
    exact ⟨t, ht, hi, hChild⟩

theorem ancestor (hc : role c = some ⟨r, l, q⟩) (d : ℕ) (hd : l + d ≤ top) :
    ∃ t, role t = some ⟨r, l + d, q / b ^ d⟩ := by
  induction d with
  | zero => exact ⟨c, by rwa [Nat.pow_zero, Nat.div_one]⟩
  | succ d ih =>
    obtain ⟨t, ht⟩ := ih (by omega)
    obtain ⟨t', ht', -, -⟩ := h.parent ht (by omega)
    exact ⟨t', by rwa [Nat.div_div_eq_div_mul, ← Nat.pow_succ] at ht'⟩

theorem descend_eq {key : ℕ} (ht : role t = some ⟨r, n + 1, key / b ^ (n + 1)⟩)
    (hKey : ∀ m < n, key / b ^ (m + 1) % b < width (m + 2)) :
    descend b child key n t = some c ↔ role c = some ⟨r, 1, key / b⟩ := by
  induction n generalizing t with
  | zero =>
    rw [descend]
    rw [Nat.zero_add, Nat.pow_one] at ht
    constructor
    · intro hEq
      rw [← some.inj hEq]
      exact ht
    · intro hc
      rw [h.unique hc ht]
  | succ n ih =>
    have hDigit := hKey n (Nat.lt_succ_self n)
    have hPre : key / b ^ (n + 2) * b + key / b ^ (n + 1) % b = key / b ^ (n + 1) := by
      rw [Nat.pow_succ, ← Nat.div_div_eq_div_mul]
      exact Nat.div_add_mod' _ _
    rw [descend]
    cases hChild : child t (key / b ^ (n + 1) % b) with
    | some t' =>
      have ht' := h.down t r (n + 1) _ _ t' ht (Nat.succ_pos n) hDigit hChild
      rw [hPre] at ht'
      exact ih ht' fun m hm => hKey m (Nat.lt_succ_of_lt hm)
    | none =>
      simp only [bind_none, reduceCtorEq, false_iff]
      intro hc
      obtain ⟨a, ha⟩ := h.ancestor hc n (by have := h.level_le ht; omega)
      rw [Nat.div_div_eq_div_mul, Nat.mul_comm, ← Nat.pow_succ, Nat.add_comm 1 n] at ha
      obtain ⟨t', ht', -, hChild'⟩ := h.parent ha (by have := h.level_le ht; omega)
      rw [Nat.div_div_eq_div_mul, ← Nat.pow_succ] at ht'
      rw [h.unique ht' ht, hChild] at hChild'
      cases hChild'

end

/-- The children that count: those of nodes above level 1. -/
def Inner (width : ℕ → ℕ) (role : ℕ → Option (Role ρ)) (t i : ℕ) : Prop :=
  ∃ r l p, role t = some ⟨r, l + 1, p⟩ ∧ 0 < l ∧ i < width (l + 1)

theorem congr (h : Forest b top width root child role)
    (hEq : ∀ t i, Inner width role t i → child' t i = child t i) :
    Forest b top width root child' role := by
  refine ⟨h.base, h.wide, h.roots, ?_, ?_⟩
  · intro t r l p i c ht hl hi hc
    rw [hEq t i ⟨r, l, p, ht, hl, hi⟩] at hc
    exact h.down t r l p i c ht hl hi hc
  · intro c r l q hc
    rcases h.up c r l q hc with hRoot | ⟨hPos, hLt, t, p, i, ht, hi, hq, hChild⟩
    · exact .inl hRoot
    · refine .inr ⟨hPos, hLt, t, p, i, ht, hi, hq, ?_⟩
      rw [hEq t i ⟨r, l, p, ht, hPos, hi⟩]
      exact hChild

theorem link (h : Forest b top width root child role) (ht : role t = some ⟨r, l + 1, p⟩)
    (hl : 0 < l) (hi : i < width (l + 1)) (hNone : child t i = none) (hn : role n = none)
    (hChild : child' t i = some n) (hEmpty : ∀ j, child' n j = none)
    (hEq : ∀ u j, u ≠ n → ¬(u = t ∧ j = i) → child' u j = child u j) :
    Forest b top width root child' (update role n (some ⟨r, l, p * b + i⟩)) := by
  have htn : t ≠ n := by
    rintro rfl
    rw [ht] at hn
    cases hn
  refine ⟨h.base, h.wide, ?_, ?_, ?_⟩
  · intro r' t' ht'
    have hRole := h.roots r' t' ht'
    rw [update_of_ne]
    · exact hRole
    · rintro rfl
      rw [hRole] at hn
      cases hn
  · intro u r' l' p' j c hu hl' hj hc
    rcases eq_or_ne u n with rfl | hun
    · rw [hEmpty] at hc
      cases hc
    · rw [update_of_ne hun] at hu
      by_cases hti : u = t ∧ j = i
      · obtain ⟨rfl, rfl⟩ := hti
        rw [hu, some.injEq, Role.mk.injEq, Nat.add_right_cancel_iff] at ht
        obtain ⟨rfl, rfl, rfl⟩ := ht
        rw [hChild] at hc
        rw [← some.inj hc, update_self]
      · rw [hEq u j hun hti] at hc
        have hRole := h.down u r' l' p' j c hu hl' hj hc
        rw [update_of_ne]
        · exact hRole
        · rintro rfl
          rw [hRole] at hn
          cases hn
  · intro c r' l' q hc
    rcases eq_or_ne c n with rfl | hcn
    · rw [update_self, some.injEq, Role.mk.injEq] at hc
      obtain ⟨rfl, rfl, rfl⟩ := hc
      have hTop := h.level_le ht
      refine .inr ⟨hl, by omega, t, p, i, ?_, hi, rfl, hChild⟩
      rwa [update_of_ne htn]
    · rw [update_of_ne hcn] at hc
      rcases h.up c r' l' q hc with hRoot | ⟨hPos, hLt, u, p', j, hu, hj, hq, hc'⟩
      · exact .inl hRoot
      · have hun : u ≠ n := by
          rintro rfl
          rw [hu] at hn
          cases hn
        refine .inr ⟨hPos, hLt, u, p', j, by rwa [update_of_ne hun], hj, hq, ?_⟩
        rw [hEq u j hun]
        · exact hc'
        · rintro ⟨rfl, rfl⟩
          rw [hNone] at hc'
          cases hc'

end Forest

end Gnos.ProofKit
