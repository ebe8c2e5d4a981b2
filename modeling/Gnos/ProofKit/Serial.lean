import Mathlib

/-! Streams numbered by 32-bit words that wrap, and byte rings that are indexed by such numbers.  A
position of the stream is a natural number; `serial base n` is the word that stands for it. -/

namespace Gnos.ProofKit

open BitVec (add_comm ofNat toNat toNat_add toNat_ofNat)

/-- The number of the `n`-th element of a stream that starts at `base`. -/
def serial (base : BitVec 32) (n : ℕ) : BitVec 32 := base + ofNat 32 n

def seqLt (a b : BitVec 32) : Bool := (a - b).toInt < 0

def seqLeq (a b : BitVec 32) : Bool := (a - b).toInt ≤ 0

section Serial

variable {base : BitVec 32} {m n : ℕ}

@[simp] theorem serial_zero : serial base 0 = base := by
  exact BitVec.add_zero base

theorem serial_add_ofNat (base : BitVec 32) (n m : ℕ) :
    serial base n + ofNat 32 m = serial base (n + m) := by
  unfold serial
  rw [BitVec.add_assoc, BitVec.ofNat_add]

theorem serial_add_one (base : BitVec 32) (n : ℕ) : serial base n + 1 = serial base (n + 1) :=
  serial_add_ofNat base n 1

theorem serial_sub (h : m ≤ n) : serial base n - serial base m = ofNat 32 (n - m) := by
  have hSplit : serial base n = serial base m + ofNat 32 (n - m) := by
    rw [serial_add_ofNat, Nat.add_sub_cancel' h]
  rw [hSplit, add_comm, BitVec.add_sub_cancel]

theorem toNat_serial_sub (h : m ≤ n) (hLt : n - m < 2 ^ 32) :
    (serial base n - serial base m).toNat = n - m := by
  rw [serial_sub h, toNat_ofNat, Nat.mod_eq_of_lt hLt]

theorem serial_inj (hm : m < 2 ^ 32) (hn : n < 2 ^ 32) : serial base m = serial base n ↔ m = n := by
  refine ⟨fun h => ?_, fun h => by rw [h]⟩
  have hNat := congrArg toNat h
  simp only [serial, toNat_add, toNat_ofNat] at hNat
  omega

section

variable (hm : m < 2 ^ 31) (hn : n < 2 ^ 31)
include hm hn

theorem toInt_serial_sub : (serial base m - serial base n).toInt = (m : ℤ) - n := by
  rcases Nat.le_total n m with hLe | hLe
  · rw [BitVec.toInt_eq_toNat_cond, toNat_serial_sub hLe (by omega)]
    omega
  · have hNeg : serial base m - serial base n = -(serial base n - serial base m) := by
      rw [BitVec.neg_sub, add_comm, BitVec.sub_eq_add_neg]
    rw [hNeg, BitVec.toInt_eq_toNat_cond, BitVec.toNat_neg, toNat_serial_sub hLe (by omega)]
    omega

theorem seqLt_serial : seqLt (serial base m) (serial base n) = decide (m < n) := by
  unfold seqLt
  rw [toInt_serial_sub hm hn]
  exact decide_eq_decide.mpr (by omega)

theorem seqLeq_serial : seqLeq (serial base m) (serial base n) = decide (m ≤ n) := by
  unfold seqLeq
  rw [toInt_serial_sub hm hn]
  exact decide_eq_decide.mpr (by omega)

end

end Serial

section Ring

variable {α : Type*} {k : ℕ} {base : BitVec 32} {w : List α} {ring : ℕ → α} {lo hi : ℕ}

/-- The slot of a number in a ring of `2^k` elements. -/
def slot (k : ℕ) (seq : BitVec 32) : ℕ := (seq &&& ofNat 32 (2 ^ k - 1)).toNat

/-- Writes elements into the ring from `seq` on. -/
def ringWrite (k : ℕ) (ring : ℕ → α) (seq : BitVec 32) : List α → ℕ → α
  | [] => ring
  | a :: as => ringWrite k (Function.update ring (slot k seq) a) (seq + 1) as

/-- Reads `n` elements from `seq` on. -/
def ringRead (k : ℕ) (ring : ℕ → α) (seq : BitVec 32) (n : ℕ) : List α :=
  (List.range n).map fun i => ring (slot k (seq + ofNat 32 i))

/-- The ring has the elements of the stream from `lo` to `hi`. -/
def Window (k : ℕ) (base : BitVec 32) (w : List α) (ring : ℕ → α) (lo hi : ℕ) : Prop :=
  ∀ i, lo ≤ i → i < hi → w[i]? = some (ring (slot k (serial base i)))

section
variable (hk : k ≤ 32)
include hk

theorem slot_eq (seq : BitVec 32) : slot k seq = seq.toNat % 2 ^ k := by
  have hPow : 2 ^ k ≤ 2 ^ 32 := Nat.pow_le_pow_right (by decide) hk
  unfold slot
  rw [BitVec.toNat_and, toNat_ofNat, Nat.mod_eq_of_lt (by omega), Nat.and_two_pow_sub_one_eq_mod]

theorem slot_serial (base : BitVec 32) (i : ℕ) :
    slot k (serial base i) = (base.toNat + i) % 2 ^ k := by
  rw [slot_eq hk, serial, toNat_add, toNat_ofNat, Nat.add_mod_mod,
    Nat.mod_mod_of_dvd _ (pow_dvd_pow 2 hk)]

theorem slot_ne {i j : ℕ} (hLt : i < j) (hFit : j < i + 2 ^ k) :
    slot k (serial base i) ≠ slot k (serial base j) := by
  rw [slot_serial hk, slot_serial hk]
  intro hEq
  -- positions closer than the size of the ring have different slots
  have hDvd : 2 ^ k ∣ base.toNat + j - (base.toNat + i) := (Nat.modEq_iff_dvd' (by omega)).mp hEq
  have := Nat.le_of_dvd (by omega) hDvd
  omega

theorem ringWrite_of_lt (as : List α) {i n : ℕ} (hLt : i < n) (hFit : n + as.length ≤ i + 2 ^ k) :
    ringWrite k ring (serial base n) as (slot k (serial base i)) =
    ring (slot k (serial base i)) := by
  induction as generalizing ring n with
  | nil => rfl
  | cons a as ih =>
    rw [List.length_cons] at hFit
    rw [ringWrite, serial_add_one, ih (by omega) (by omega),
      Function.update_of_ne (slot_ne hk hLt (by omega))]

theorem ringWrite_getElem? (as : List α) {n j : ℕ} (hj : j < as.length) (hFit : as.length ≤ 2 ^ k) :
    as[j]? = some (ringWrite k ring (serial base n) as (slot k (serial base (n + j)))) := by
  induction as generalizing ring n j with
  | nil => exact absurd hj (by simp)
  | cons a as ih =>
    rw [List.length_cons] at hj hFit
    rw [ringWrite, serial_add_one]
    cases j with
    | zero =>
      rw [ringWrite_of_lt hk as (by omega) (by omega), Nat.add_zero, Function.update_self]
      rfl
    | succ j =>
      rw [List.getElem?_cons_succ, ih (by omega) (by omega), show n + 1 + j = n + (j + 1) by omega]

end

section

variable (h : Window k base w ring lo hi)
include h

theorem Window.mono {lo' hi' : ℕ} (hLo : lo ≤ lo') (hHi : hi' ≤ hi) :
    Window k base w ring lo' hi' := fun i hi1 hi2 => h i (by omega) (by omega)

theorem Window.append (as : List α) : Window k base (w ++ as) ring lo hi := fun i hi1 hi2 => by
  have hCell := h i hi1 hi2
  obtain ⟨hLt, -⟩ := List.getElem?_eq_some_iff.mp hCell
  rw [List.getElem?_append_left hLt, hCell]

theorem Window.read {n m : ℕ} (hLo : lo ≤ n) (hHi : n + m ≤ hi) :
    ringRead k ring (serial base n) m = (w.drop n).take m := by
  refine List.ext_getElem? fun j => ?_
  by_cases hj : j < m
  · rw [ringRead, List.getElem?_map, List.getElem?_range hj, Option.map_some, serial_add_ofNat,
      ← h (n + j) (by omega) (by omega), List.getElem?_take_of_lt hj, List.getElem?_drop]
  · rw [List.getElem?_eq_none (by simp [ringRead]; omega), List.getElem?_eq_none (by simp; omega)]

end

theorem Window.write (hk : k ≤ 32) (h : Window k base w ring lo hi) {as : List α}
    (hSlice : ∀ j < as.length, w[hi + j]? = as[j]?) (hLo : lo ≤ hi)
    (hFit : hi + as.length ≤ lo + 2 ^ k) :
    Window k base w (ringWrite k ring (serial base hi) as) lo (hi + as.length) :=
  fun i hi1 hi2 => by
  by_cases hOld : i < hi
  · rw [ringWrite_of_lt hk as hOld (by omega)]
    exact h i hi1 hOld
  · obtain ⟨j, rfl⟩ := Nat.exists_eq_add_of_le (Nat.le_of_not_lt hOld)
    rw [hSlice j (by omega)]
    exact ringWrite_getElem? hk as (by omega) (by omega)

end Ring

end Gnos.ProofKit
