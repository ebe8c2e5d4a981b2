import Mathlib

/-! Ranges of addresses cut into consecutive pieces.  `Tiles k lo ts hi` says that the pieces of
`ts` follow each other without a gap from `lo` to `hi` and that none is shorter than `k`. -/

namespace Gnos.ProofKit

structure Tile (α : Type*) where
  start : ℕ
  size : ℕ
  tag : α
  deriving DecidableEq

variable {α : Type*}

def Tile.stop (t : Tile α) : ℕ := t.start + t.size

def Tiles (k : ℕ) : ℕ → List (Tile α) → ℕ → Prop
  | lo, [], hi => lo = hi
  | lo, t :: ts, hi => t.start = lo ∧ k ≤ t.size ∧ Tiles k t.stop ts hi

variable {k lo hi : ℕ} {a b ts : List (Tile α)} {t u : Tile α}

theorem tiles_append : Tiles k lo (a ++ b) hi ↔ ∃ mid, Tiles k lo a mid ∧ Tiles k mid b hi := by
  induction a generalizing lo with
  | nil =>
    constructor
    · intro h
      exact ⟨lo, rfl, h⟩
    · rintro ⟨mid, rfl, h⟩
      exact h
  | cons t a ih =>
    constructor
    · rintro ⟨hStart, hSize, hRest⟩
      obtain ⟨mid, ha, hb⟩ := ih.mp hRest
      exact ⟨mid, ⟨hStart, hSize, ha⟩, hb⟩
    · rintro ⟨mid, ⟨hStart, hSize, ha⟩, hb⟩
      exact ⟨hStart, hSize, ih.mpr ⟨mid, ha, hb⟩⟩

theorem tiles_middle : Tiles k lo (a ++ t :: b) hi ↔
      Tiles k lo a t.start ∧ k ≤ t.size ∧ Tiles k t.stop b hi := by
  rw [tiles_append]
  constructor
  · rintro ⟨mid, ha, rfl, hSize, hb⟩
    exact ⟨ha, hSize, hb⟩
  · rintro ⟨ha, hSize, hb⟩
    exact ⟨t.start, ha, rfl, hSize, hb⟩

section

variable (h : Tiles k lo ts hi)
include h

theorem Tiles.le : lo ≤ hi := by
  induction ts generalizing lo with
  | nil => exact Nat.le_of_eq h
  | cons t ts ih =>
    obtain ⟨rfl, -, hRest⟩ := h
    have := ih hRest
    rw [Tile.stop] at this
    omega

theorem Tiles.length_mul_le : lo + ts.length * k ≤ hi := by
  induction ts generalizing lo with
  | nil => simpa using Nat.le_of_eq h
  | cons t ts ih =>
    obtain ⟨rfl, hSize, hRest⟩ := h
    have := ih hRest
    rw [Tile.stop] at this
    rw [List.length_cons, Nat.succ_mul]
    omega

theorem Tiles.mem (ht : t ∈ ts) : lo ≤ t.start ∧ k ≤ t.size ∧ t.stop ≤ hi := by
  obtain ⟨a, b, rfl⟩ := List.mem_iff_append.mp ht
  obtain ⟨ha, hSize, hb⟩ := tiles_middle.mp h
  exact ⟨ha.le, hSize, hb.le⟩

theorem Tiles.apart (ht : t ∈ ts) (hu : u ∈ ts) (hne : t ≠ u) :
    t.stop ≤ u.start ∨ u.stop ≤ t.start := by
  obtain ⟨a, b, rfl⟩ := List.mem_iff_append.mp ht
  obtain ⟨ha, -, hb⟩ := tiles_middle.mp h
  rcases List.mem_append.mp hu with hu | hu
  · exact .inr (ha.mem hu).2.2
  · rcases List.mem_cons.mp hu with hEq | hu
    · exact absurd hEq.symm hne
    · exact .inl (hb.mem hu).1

theorem Tiles.eq_of_start (hk : 0 < k) (ht : t ∈ ts) (hu : u ∈ ts) (hStart : t.start = u.start) :
    t = u := by
  by_contra hne
  have htSize := (h.mem ht).2.1
  have huSize := (h.mem hu).2.1
  rcases h.apart ht hu hne with hStop | hStop <;> rw [Tile.stop] at hStop <;> omega

end

theorem Tiles.start_ne (h : Tiles k lo (a ++ t :: b) hi) (hk : 0 < k) (hu : u ∈ a ++ b) :
    u.start ≠ t.start := by
  obtain ⟨ha, hSize, hb⟩ := tiles_middle.mp h
  rcases List.mem_append.mp hu with hu | hu
  · have hMem := ha.mem hu
    rw [Tile.stop] at hMem
    omega
  · have hMem := hb.mem hu
    rw [Tile.stop] at hMem
    omega

end Gnos.ProofKit
