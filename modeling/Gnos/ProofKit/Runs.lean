import Mathlib

/-! Runs of a state machine: from an initial state, each step an operation that its guard allows. -/

namespace Gnos.ProofKit

variable {σ α : Type*} {init : σ → Prop} {guard guard' : σ → α → Prop} {exec : σ → α → σ}

/-- The states that runs reach. -/
inductive Reaches (init : σ → Prop) (guard : σ → α → Prop) (exec : σ → α → σ) : σ → Prop
  | start {s} : init s → Reaches init guard exec s
  | step {s a} : Reaches init guard exec s → guard s a → Reaches init guard exec (exec s a)

/-- What holds at the start and is kept by every step holds in every state reached. -/
theorem Reaches.invariant {I : σ → Prop} (hInit : ∀ s, init s → I s)
    (hStep : ∀ s a, I s → guard s a → I (exec s a)) {s : σ} (h : Reaches init guard exec s) :
    I s := by
  induction h with
  | start h => exact hInit _ h
  | step _ hGuard ih => exact hStep _ _ ih hGuard

/-- Every operation of the list is allowed where the run has come to. -/
def Along (guard : σ → α → Prop) (exec : σ → α → σ) : σ → List α → Prop
  | _, [] => True
  | s, a :: as => guard s a ∧ Along guard exec (exec s a) as

instance Along.instDecidable [∀ s a, Decidable (guard s a)] :
    ∀ (s : σ) (as : List α), Decidable (Along guard exec s as)
  | _, [] => inferInstanceAs (Decidable True)
  | s, a :: as =>
    have := Along.instDecidable (exec s a) as
    inferInstanceAs (Decidable (guard s a ∧ Along guard exec (exec s a) as))

/-- A property of steps holds along a run exactly as far as the guard does, if the two agree
wherever guarded steps lead. -/
theorem along_iff {I : σ → Prop} {P : σ → α → Prop} (hIff : ∀ s a, I s → (P s a ↔ guard s a))
    (hStep : ∀ s a, I s → guard s a → I (exec s a)) {s : σ} (h : I s) (as : List α) :
    Along P exec s as ↔ Along guard exec s as := by
  induction as generalizing s with
  | nil => exact Iff.rfl
  | cons a as ih =>
    constructor
    · rintro ⟨hP, hRest⟩
      have hGuard := (hIff s a h).mp hP
      exact ⟨hGuard, (ih (hStep s a h hGuard)).mp hRest⟩
    · rintro ⟨hGuard, hRest⟩
      exact ⟨(hIff s a h).mpr hGuard, (ih (hStep s a h hGuard)).mpr hRest⟩

/-- If the steps with the property change nothing, it holds along a run when it holds of each step
at the start. -/
theorem along_of_fixed {P : σ → α → Prop} {s : σ} (hFix : ∀ a, P s a → exec s a = s) (as : List α) :
    (Along P exec s as ↔ ∀ a ∈ as, P s a) ∧ (Along P exec s as → as.foldl exec s = s) := by
  induction as with
  | nil => exact ⟨⟨fun _ a ha => (by cases ha), fun _ => trivial⟩, fun _ => rfl⟩
  | cons a as ih =>
    obtain ⟨hRest, hLast⟩ := ih
    refine ⟨?_, ?_⟩
    · rw [List.forall_mem_cons, ← hRest]
      refine and_congr_right fun hP => ?_
      rw [hFix a hP]
    · rintro ⟨hP, hAlong⟩
      rw [hFix a hP] at hAlong
      rw [List.foldl_cons, hFix a hP]
      exact hLast hAlong

theorem Along.of_append {s : σ} {as bs : List α} (h : Along guard exec s (as ++ bs)) :
    Along guard exec s as := by
  induction as generalizing s with
  | nil => trivial
  | cons a as ih => exact ⟨h.1, ih h.2⟩

theorem Reaches.foldl {s : σ} (h : Reaches init guard exec s) (as : List α)
    (hAlong : Along guard exec s as) : Reaches init guard exec (as.foldl exec s) := by
  induction as generalizing s with
  | nil => exact h
  | cons a as ih => exact ih (h.step hAlong.1) hAlong.2

end Gnos.ProofKit
