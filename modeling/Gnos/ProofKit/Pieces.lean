import Mathlib

/-! Pieces of a sequence that come in any order, some more than once.  `Holds` says what a buffer
has after some pieces were written into it; `rounds` counts how often a stream completes a set. -/

namespace Gnos.ProofKit

open List

variable {α : Type*}

structure Piece (α : Type*) where
  offset : ℕ
  cells : List α

namespace Piece

def stop (p : Piece α) : ℕ := p.offset + p.cells.length

def Covers (p : Piece α) (i : ℕ) : Prop := p.offset ≤ i ∧ i < p.stop

instance (p : Piece α) (i : ℕ) : Decidable (p.Covers i) := inferInstanceAs (Decidable (_ ∧ _))

def cell? (p : Piece α) (i : ℕ) : Option α := p.cells[i - p.offset]?

def paste (p : Piece α) (buf : ℕ → Option α) : ℕ → Option α := fun i =>
  if p.Covers i then p.cell? i else buf i

variable {p : Piece α} {ps : List (Piece α)} {buf : ℕ → Option α} {i n : ℕ}

theorem Covers.exists_cell (h : p.Covers i) : ∃ a, p.cell? i = some a := by
  have hLt : i - p.offset < p.cells.length := by
    obtain ⟨hLe, hStop⟩ := h
    unfold stop at hStop
    omega
  exact ⟨_, getElem?_eq_getElem hLt⟩

/-- The buffer has a cell wherever one of the pieces has one, and what it has is from a piece. -/
structure Holds (buf : ℕ → Option α) (ps : List (Piece α)) : Prop where
  isSome : ∀ p ∈ ps, ∀ i, p.Covers i → (buf i).isSome
  sound : ∀ i a, buf i = some a → ∃ p ∈ ps, p.Covers i ∧ p.cell? i = some a

theorem Holds.empty : Holds (fun _ => none : ℕ → Option α) [] where
  isSome := by simp
  sound := by simp

theorem Holds.paste (h : Holds buf ps) (p : Piece α) : Holds (p.paste buf) (p :: ps) where
  isSome q hq i hCovers := by
    unfold Piece.paste
    split
    next hp =>
      obtain ⟨a, ha⟩ := hp.exists_cell
      simp [ha]
    next hp =>
      rcases mem_cons.mp hq with rfl | hq
      · exact absurd hCovers hp
      · exact h.isSome q hq i hCovers
  sound i a ha := by
    unfold Piece.paste at ha
    split at ha
    next hp => exact ⟨p, mem_cons_self, hp, ha⟩
    next hp =>
      obtain ⟨q, hq, hCovers⟩ := h.sound i a ha
      exact ⟨q, mem_cons_of_mem _ hq, hCovers⟩

theorem Holds.truncate (h : Holds buf ps) (hn : ∀ p ∈ ps, p.stop ≤ n) :
    Holds (fun i => if i < n then buf i else none) ps where
  isSome p hp i hCovers := by
    have hLt : i < n := lt_of_lt_of_le hCovers.2 (hn p hp)
    rw [if_pos hLt]
    exact h.isSome p hp i hCovers
  sound i a ha := by
    split at ha
    · exact h.sound i a ha
    · exact absurd ha (by simp)

theorem Holds.eq_of_slices {l : List α} (h : Holds buf ps)
    (hSlice : ∀ p ∈ ps, ∀ i, p.Covers i → p.cell? i = l[i]?)
    (hi : ∃ p ∈ ps, p.Covers i) : buf i = l[i]? := by
  obtain ⟨p, hp, hCovers⟩ := hi
  obtain ⟨a, ha⟩ := Option.isSome_iff_exists.mp (h.isSome p hp i hCovers)
  obtain ⟨q, hq, hCovers', hCell⟩ := h.sound i a ha
  rw [ha, ← hCell]
  exact hSlice q hq i hCovers'

theorem le_sum_of_covered (h : ∀ i < n, ∃ p ∈ ps, p.Covers i) :
    n ≤ (ps.map (·.cells.length)).sum := by
  classical
  -- the positions that a list of pieces covers are at most its cells
  have hCard : ∀ ps : List (Piece α), ((Finset.range n).filter fun i => ∃ p ∈ ps, p.Covers i).card ≤
      (ps.map (·.cells.length)).sum := by
    intro ps
    induction ps with
    | nil => simp
    | cons p ps ih =>
      have hSub : ((Finset.range n).filter fun i => ∃ q ∈ p :: ps, q.Covers i) ⊆
          Finset.Ico p.offset p.stop ∪ (Finset.range n).filter fun i => ∃ q ∈ ps, q.Covers i := by
        intro i hi
        obtain ⟨hLt, q, hq, hCovers⟩ := Finset.mem_filter.mp hi
        rcases mem_cons.mp hq with rfl | hq
        · exact Finset.mem_union_left _ (Finset.mem_Ico.mpr hCovers)
        · exact Finset.mem_union_right _ (Finset.mem_filter.mpr ⟨hLt, q, hq, hCovers⟩)
      calc ((Finset.range n).filter fun i => ∃ q ∈ p :: ps, q.Covers i).card
          ≤ (Finset.Ico p.offset p.stop).card +
              ((Finset.range n).filter fun i => ∃ q ∈ ps, q.Covers i).card :=
            (Finset.card_le_card hSub).trans (Finset.card_union_le _ _)
        _ ≤ p.cells.length + (ps.map (·.cells.length)).sum := by
            rw [Nat.card_Ico, show p.stop - p.offset = p.cells.length by unfold stop; omega]
            exact Nat.add_le_add_left ih _
        _ = ((p :: ps).map (·.cells.length)).sum := by simp
  have hAll : ((Finset.range n).filter fun i => ∃ p ∈ ps, p.Covers i) = Finset.range n :=
    Finset.filter_true_of_mem fun i hi => h i (Finset.mem_range.mp hi)
  have := hCard ps
  rwa [hAll, Finset.card_range] at this

end Piece

section Rounds

variable [DecidableEq α] {need : List α} {got stream : List α}

/-- How often the stream completes `need`, when `got` has come already and a completion starts
anew. -/
def rounds (need : List α) : (got stream : List α) → ℕ
  | _, [] => 0
  | got, a :: stream =>
    if need ⊆ a :: got then rounds need [] stream + 1 else rounds need (a :: got) stream

theorem rounds_pos_iff (h : ¬ need ⊆ got) :
    0 < rounds need got stream ↔ need ⊆ got ++ stream := by
  induction stream generalizing got with
  | nil => simpa [rounds] using h
  | cons a stream ih =>
    unfold rounds
    split
    next hDone =>
      refine iff_of_true (Nat.succ_pos _) fun x hx => ?_
      have := hDone hx
      simp only [mem_cons, mem_append] at this ⊢
      tauto
    next hOpen =>
      rw [ih hOpen]
      constructor <;> intro hSub x hx <;> have := hSub hx <;>
        simp only [mem_cons, mem_append, cons_append] at this ⊢ <;> tauto

/-- There are two rounds exactly if the stream has two parts, one after the other, that complete the
set. -/
theorem one_lt_rounds_iff (hNeed : need ≠ []) (h : ¬ need ⊆ got) :
    1 < rounds need got stream ↔
      ∃ front back, stream = front ++ back ∧ need ⊆ got ++ front ∧ need ⊆ back := by
  induction stream generalizing got with
  | nil =>
    refine iff_of_false (by simp [rounds]) ?_
    rintro ⟨front, back, hEq, -, hBack⟩
    obtain ⟨-, rfl⟩ := append_eq_nil_iff.mp hEq.symm
    exact hNeed (subset_nil.mp hBack)
  | cons a stream ih =>
    have hNil : ¬ need ⊆ [] := fun hSub => hNeed (subset_nil.mp hSub)
    unfold rounds
    split
    next hDone =>
      -- the first round ends here, so the second one is any completion of the rest
      rw [Nat.lt_add_left_iff_pos, rounds_pos_iff hNil, nil_append]
      constructor
      · intro hSub
        exact ⟨[a], stream, rfl, (perm_append_singleton a got).subset_congr_right.mpr hDone, hSub⟩
      · rintro ⟨front, back, hEq, hFront, hBack⟩ x hx
        cases front with
        | nil => exact absurd (fun y hy => by simpa using hFront hy) h
        | cons b front =>
          obtain ⟨-, rfl⟩ := cons_eq_cons.mp hEq
          exact mem_append_right _ (hBack hx)
    next hOpen =>
      rw [ih hOpen]
      constructor
      · rintro ⟨front, back, rfl, hFront, hBack⟩
        exact ⟨a :: front, back, rfl, perm_middle.subset_congr_right.mpr hFront, hBack⟩
      · rintro ⟨front, back, hEq, hFront, hBack⟩
        cases front with
        | nil => exact absurd (fun y hy => by simpa using hFront hy) h
        | cons b front =>
          obtain ⟨rfl, rfl⟩ := cons_eq_cons.mp hEq
          exact ⟨front, back, rfl, perm_middle.subset_congr_right.mp hFront, hBack⟩

theorem rounds_eq_one_iff (hNeed : need ≠ []) {stream : List α} (hAll : need ⊆ stream) :
    rounds need [] stream = 1 ↔
      ¬ ∃ front back, stream = front ++ back ∧ need ⊆ front ∧ need ⊆ back := by
  have hNil : ¬ need ⊆ [] := fun hSub => hNeed (subset_nil.mp hSub)
  have hPos : 0 < rounds need [] stream := (rounds_pos_iff hNil).mpr (by simpa using hAll)
  rw [show rounds need [] stream = 1 ↔ ¬ 1 < rounds need [] stream by omega,
    one_lt_rounds_iff hNeed hNil]
  simp only [nil_append]

end Rounds

end Gnos.ProofKit
