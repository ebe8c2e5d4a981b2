import Mathlib

/-! Ring buffers: an array of `cap` places, the indices of the next place to write and to read, and
the number of places in between. -/

namespace Gnos.ProofKit

open List Nat Function

/-- `head` is where the next element goes, `tail` where the next one comes from. -/
structure RingBuf (α : Type*) where
  buf : ℕ → α
  head : ℕ
  tail : ℕ
  count : ℕ

namespace RingBuf

variable {α : Type*} {cap : ℕ} {r : RingBuf α}

def push (cap : ℕ) (r : RingBuf α) (x : α) : RingBuf α where
  buf := update r.buf r.head x
  head := (r.head + 1) % cap
  tail := r.tail
  count := r.count + 1

def pushAll (cap : ℕ) (r : RingBuf α) (xs : List α) : RingBuf α := xs.foldl (push cap) r

def pop (cap : ℕ) (r : RingBuf α) : α × RingBuf α :=
  (r.buf r.tail, { r with tail := (r.tail + 1) % cap, count := r.count - 1 })

/-- The first `n` elements, and the ring without them. -/
def popN (cap : ℕ) : ℕ → RingBuf α → List α × RingBuf α
  | 0, r => ([], r)
  | n + 1, r => ((r.pop cap).1 :: (popN cap n (r.pop cap).2).1, (popN cap n (r.pop cap).2).2)

def contents (cap : ℕ) (r : RingBuf α) : List α :=
  (List.range r.count).map fun i => r.buf ((r.tail + i) % cap)

/-- The indices fit together. -/
structure Fits (cap : ℕ) (r : RingBuf α) : Prop where
  pos : 0 < cap
  count : r.count ≤ cap
  tail : r.tail < cap
  head : r.head = (r.tail + r.count) % cap

theorem length_contents (cap : ℕ) (r : RingBuf α) : (r.contents cap).length = r.count := by
  simp [contents]

section

variable (h : r.Fits cap)
include h

theorem Fits.place_ne_head (hRoom : r.count < cap) {i : ℕ} (hi : i < r.count) :
    (r.tail + i) % cap ≠ r.head := by
  rw [h.head]
  intro hEq
  have hMod : i ≡ r.count [MOD cap] := Nat.ModEq.add_left_cancel' r.tail hEq
  rw [Nat.ModEq, mod_eq_of_lt (by omega), mod_eq_of_lt hRoom] at hMod
  omega

theorem Fits.push (hRoom : r.count < cap) (x : α) :
    (r.push cap x).Fits cap ∧ (r.push cap x).contents cap = r.contents cap ++ [x] := by
  refine ⟨⟨h.pos, hRoom, h.tail, ?_⟩, ?_⟩
  · show (r.head + 1) % cap = (r.tail + (r.count + 1)) % cap
    rw [h.head, mod_add_mod, add_assoc]
  · show (range (r.count + 1)).map _ = _
    rw [range_succ, map_append, map_singleton]
    congr 1
    · refine map_congr_left fun i hi => ?_
      exact update_of_ne (h.place_ne_head hRoom (mem_range.mp hi)) _ _
    · show [update r.buf r.head x ((r.tail + r.count) % cap)] = [x]
      rw [← h.head, update_self]

theorem Fits.pushAll {xs : List α} (hRoom : r.count + xs.length ≤ cap) :
    (r.pushAll cap xs).Fits cap ∧ (r.pushAll cap xs).contents cap = r.contents cap ++ xs := by
  induction xs generalizing r with
  | nil => exact ⟨h, (append_nil _).symm⟩
  | cons x xs ih =>
    rw [length_cons] at hRoom
    obtain ⟨hPush, hContents⟩ := h.push (by omega) x
    have hNext : (r.push cap x).count + xs.length ≤ cap := by
      show r.count + 1 + xs.length ≤ cap
      omega
    obtain ⟨hAll, hEnd⟩ := ih hPush hNext
    refine ⟨hAll, hEnd.trans ?_⟩
    rw [hContents, append_assoc, singleton_append]

theorem Fits.pop (hSome : 0 < r.count) :
    (r.pop cap).2.Fits cap ∧ r.contents cap = (r.pop cap).1 :: (r.pop cap).2.contents cap := by
  refine ⟨⟨h.pos, le_trans (sub_le _ _) h.count, mod_lt _ h.pos, ?_⟩, ?_⟩
  · show r.head = ((r.tail + 1) % cap + (r.count - 1)) % cap
    rw [h.head, Nat.mod_add_mod, Nat.add_assoc, Nat.add_sub_cancel' hSome]
  · obtain ⟨n, hn⟩ : ∃ n, r.count = n + 1 := ⟨r.count - 1, by omega⟩
    unfold contents
    rw [hn, range_succ_eq_map, map_cons, map_map]
    show r.buf ((r.tail + 0) % cap) :: _ = r.buf r.tail :: (range (r.count - 1)).map _
    rw [Nat.add_zero, Nat.mod_eq_of_lt h.tail, hn, Nat.add_sub_cancel]
    refine congrArg _ (map_congr_left fun i _ => ?_)
    show r.buf ((r.tail + (i + 1)) % cap) = r.buf (((r.tail + 1) % cap + i) % cap)
    rw [mod_add_mod, add_assoc, add_comm 1 i]

theorem Fits.popN {n : ℕ} (hn : n ≤ r.count) :
    (r.popN cap n).2.Fits cap ∧ (r.popN cap n).1.length = n ∧
      r.contents cap = (r.popN cap n).1 ++ (r.popN cap n).2.contents cap := by
  induction n generalizing r with
  | zero => exact ⟨h, rfl, rfl⟩
  | succ n ih =>
    obtain ⟨hPop, hContents⟩ := h.pop (by omega)
    have hNext : n ≤ (r.pop cap).2.count := by
      show n ≤ r.count - 1
      omega
    obtain ⟨hEnd, hLength, hRest⟩ := ih hPop hNext
    refine ⟨hEnd, congrArg (· + 1) hLength, ?_⟩
    rw [hContents, hRest]
    rfl

end

theorem count_pushAll (cap : ℕ) (r : RingBuf α) (xs : List α) :
    (r.pushAll cap xs).count = r.count + xs.length := by
  induction xs generalizing r with
  | nil => rfl
  | cons x xs ih =>
    show ((r.push cap x).pushAll cap xs).count = _
    rw [ih]
    show r.count + 1 + xs.length = r.count + (xs.length + 1)
    omega

end RingBuf

end Gnos.ProofKit
