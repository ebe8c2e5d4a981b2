import Mathlib

/-! A map given by patches: each patch covers some points and puts its tag on them.  While no two
patches of a list meet, their order does not matter, so edits are described up to permutation. -/

namespace Gnos.ProofKit

open List

variable {β τ : Type*}

/-- Some patch of the list puts tag `t` on `x`. -/
def Shows (covers : β → ℕ → Prop) (tag : β → τ) (l : List β) (x : ℕ) (t : τ) : Prop :=
  ∃ r ∈ l, covers r x ∧ tag r = t

def Apart (covers : β → ℕ → Prop) (l : List β) : Prop :=
  l.Pairwise fun r q => ∀ x, covers r x → ¬covers q x

section Patches

variable {covers : β → ℕ → Prop} {tag : β → τ} {l l' old rest : List β} {r : β} {x : ℕ}
  {t t' : τ}

theorem Shows.perm (h : Shows covers tag l x t) (hPerm : l.Perm l') : Shows covers tag l' x t := by
  obtain ⟨r, hr, hShows⟩ := h
  exact ⟨r, hPerm.mem_iff.mp hr, hShows⟩

section

variable (h : Apart covers l)
include h

theorem Apart.perm (hPerm : l.Perm l') : Apart covers l' :=
  (hPerm.pairwise_iff fun hApart x hq hr => hApart x hr hq).mp h

theorem Apart.unique {q : β} (hr : r ∈ l) (hq : q ∈ l) (hrx : covers r x) (hqx : covers q x) :
    r = q := by
  by_contra hne
  have : Std.Symm fun r q => ∀ x, covers r x →
      ¬covers q x := ⟨fun _ _ hApart x hq hr => hApart x hr hq⟩
  exact h.forall hr hq hne x hrx hqx

theorem Apart.add (hNew : ∀ q ∈ l, ∀ x, covers q x → ¬covers r x) : Apart covers (l ++ [r]) := by
  refine pairwise_append.mpr ⟨h, pairwise_singleton _ r, ?_⟩
  intro q hq p hp
  rw [mem_singleton.mp hp]
  exact hNew q hq

theorem Apart.flatMap {f : β → List β} (hEach : ∀ r ∈ l, Apart covers (f r))
    (hIn : ∀ r ∈ l, ∀ p ∈ f r, ∀ x, covers p x → covers r x) : Apart covers (l.flatMap f) := by
  refine pairwise_flatMap.mpr ⟨hEach, ?_⟩
  refine List.Pairwise.imp_of_mem ?_ h
  intro r q hr hq hApart p hp p' hp' x hpx hpx'
  exact hApart x (hIn r hr p hp x hpx) (hIn q hq p' hp' x hpx')

end

theorem Apart.not_covers (h : Apart covers (r :: rest)) {q : β} (hq : q ∈ rest) (hr : covers r x) :
    ¬covers q x :=
  (pairwise_cons.mp h).1 q hq x hr

theorem shows_append : Shows covers tag (l ++ l') x t ↔ Shows covers tag l x t ∨
    Shows covers tag l' x t := by
  unfold Shows
  simp only [mem_append, or_and_right, exists_or]

theorem Apart.replace (h : Apart covers (old ++ rest)) (new : List β) (hNew : Apart covers new)
    (hIn : ∀ r ∈ new, ∀ x, covers r x → ∃ q ∈ old, covers q x) : Apart covers (new ++ rest) := by
  obtain ⟨-, hRest, hBetween⟩ := pairwise_append.mp h
  refine pairwise_append.mpr ⟨hNew, hRest, ?_⟩
  intro r hr p hp x hrx
  obtain ⟨q, hq, hqx⟩ := hIn r hr x hrx
  exact hBetween q hq p hp x hqx

end Patches

section Positions

variable {l : List β} {i j : ℕ}

theorem swapRemove_perm (hj : j < l.length) (d : β) :
    ((l.set j (l.getD (l.length - 1) d)).dropLast).Perm (l.eraseIdx j) := by
  rcases eq_nil_or_concat l with rfl | ⟨front, a, rfl⟩
  · cases hj
  · have hLast : (front.concat a).getD ((front.concat a).length - 1) d = a := by simp
    rw [hLast, concat_eq_append]
    rw [length_concat] at hj
    rcases Nat.lt_succ_iff_lt_or_eq.mp hj with hLt | rfl
    · rw [set_append_left _ _ hLt, dropLast_concat, eraseIdx_append_of_lt_length hLt]
      exact (set_perm_cons_eraseIdx hLt a).trans (perm_append_singleton a _).symm
    · rw [set_append_right _ _ (Nat.le_refl _), eraseIdx_append_of_length_le (Nat.le_refl _)]
      simp

theorem absorb_perm (hi : i < l.length) (hj : j < l.length) (hne : i ≠ j) (g : β) :
    ∃ rest, l.Perm (l[i] :: l[j] :: rest) ∧ ((l.set i g).eraseIdx j).Perm (g :: rest) := by
  have hMem : l[j] ∈ l.eraseIdx i := mem_eraseIdx_iff_getElem.mpr ⟨j, hj, hne.symm, rfl⟩
  obtain ⟨before, after, hSplit⟩ := append_of_mem hMem
  have hOthers : (l.eraseIdx i).Perm (l[j] :: (before ++ after)) := by
    rw [hSplit]
    exact perm_middle
  have hjSet : j < (l.set i g).length := by rwa [length_set]
  have hAt : (l.set i g)[j] = l[j] := getElem_set_of_ne hne g hjSet
  refine ⟨before ++ after, ?_, ?_⟩
  · exact (getElem_cons_eraseIdx_perm hi).symm.trans (hOthers.cons l[i])
  · have hSet : (l[j] :: (l.set i g).eraseIdx j).Perm (g :: l[j] :: (before ++ after)) := by
      rw [← hAt]
      exact (getElem_cons_eraseIdx_perm hjSet).trans
        ((set_perm_cons_eraseIdx hi g).trans (by rw [hAt]; exact hOthers.cons g))
    exact (hSet.trans (List.Perm.swap l[j] g _)).cons_inv

end Positions

end Gnos.ProofKit
