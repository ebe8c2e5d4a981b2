import Mathlib

/-! Byte-addressed memory: single bytes, little-endian words of 32 and 64 bits, and block
operations. Every operation is a function on the whole memory. -/

namespace Gnos.ProofKit

/-- A memory gives a byte for every address. -/
abbrev Mem := ℕ → BitVec 8

namespace Mem

/-- The 64-bit word at `a`, least significant byte first. -/
def read64 (m : Mem) (a : ℕ) : BitVec 64 :=
  m (a + 7) ++ m (a + 6) ++ m (a + 5) ++ m (a + 4) ++ m (a + 3) ++ m (a + 2) ++ m (a + 1) ++ m a

def read32 (m : Mem) (a : ℕ) : BitVec 32 := m (a + 3) ++ m (a + 2) ++ m (a + 1) ++ m a

/-- Stores the 64-bit word `v` at `a`, least significant byte first. -/
def write64 (m : Mem) (a : ℕ) (v : BitVec 64) : Mem := fun b =>
  if a ≤ b ∧ b < a + 8 then v.extractLsb' (8 * (b - a)) 8 else m b

def write32 (m : Mem) (a : ℕ) (v : BitVec 32) : Mem := fun b =>
  if a ≤ b ∧ b < a + 4 then v.extractLsb' (8 * (b - a)) 8 else m b

/-- `memset`: the `n` bytes from `a` on become `v`. -/
def fill (m : Mem) (a n : ℕ) (v : BitVec 8) : Mem := fun b =>
  if a ≤ b ∧ b < a + n then v else m b

/-- `memcpy`: the `n` bytes from `dst` on become the bytes from `src` on. -/
def copy (m : Mem) (dst src n : ℕ) : Mem := fun b =>
  if dst ≤ b ∧ b < dst + n then m (src + (b - dst)) else m b

def store (m : Mem) (a : ℕ) (bs : List (BitVec 8)) : Mem := fun b =>
  if a ≤ b then (bs[b - a]?).getD (m b) else m b

/-- Stores a record at `a`: each field is an offset and the 64-bit word that goes there. -/
def writeFields (m : Mem) (a : ℕ) (fs : List (ℕ × BitVec 64)) : Mem :=
  fs.foldl (fun m f => m.write64 (a + f.1) f.2) m

def load (m : Mem) (a n : ℕ) : List (BitVec 8) := (List.range n).map fun i => m (a + i)

variable {m m' : Mem} {a b n : ℕ} {v : BitVec 64} {fs : List (ℕ × BitVec 64)}

theorem read64_congr (h : ∀ c, a ≤ c → c < a + 8 → m' c = m c) : m'.read64 a = m.read64 a := by
  unfold read64
  rw [h (a + 7) (by omega) (by omega), h (a + 6) (by omega) (by omega),
    h (a + 5) (by omega) (by omega), h (a + 4) (by omega) (by omega),
    h (a + 3) (by omega) (by omega), h (a + 2) (by omega) (by omega),
    h (a + 1) (by omega) (by omega), h a (by omega) (by omega)]

theorem read32_congr (h : ∀ c, a ≤ c → c < a + 4 → m' c = m c) : m'.read32 a = m.read32 a := by
  unfold read32
  rw [h (a + 3) (by omega) (by omega), h (a + 2) (by omega) (by omega),
    h (a + 1) (by omega) (by omega), h a (by omega) (by omega)]

theorem write64_of_outside (h : b < a ∨ a + 8 ≤ b) : m.write64 a v b = m b :=
  if_neg (by omega)

theorem write32_of_outside {v : BitVec 32} (h : b < a ∨ a + 4 ≤ b) : m.write32 a v b = m b :=
  if_neg (by omega)

theorem extract_append {w : ℕ} (v : BitVec w) {j k n : ℕ} (h : j = k + 8) :
    v.extractLsb' j n ++ v.extractLsb' k 8 = v.extractLsb' k (n + 8) :=
  BitVec.extractLsb'_append_extractLsb'_eq_extractLsb' h

@[simp] theorem read64_write64 (m : Mem) (a : ℕ) (v : BitVec 64) :
    (m.write64 a v).read64 a = v := by
  have hByte : ∀ i < 8, m.write64 a v (a + i) = v.extractLsb' (8 * i) 8 := fun i hi => by
    rw [write64, if_pos (by omega), Nat.add_sub_cancel_left]
  have hFirst : m.write64 a v a = v.extractLsb' 0 8 := hByte 0 (by omega)
  unfold read64
  rw [hByte 7 (by omega), hByte 6 (by omega), hByte 5 (by omega), hByte 4 (by omega),
    hByte 3 (by omega), hByte 2 (by omega), hByte 1 (by omega), hFirst]
  rw [extract_append v (by rfl : 8 * 7 = 8 * 6 + 8), extract_append v (by rfl : 8 * 6 = 8 * 5 + 8),
    extract_append v (by rfl : 8 * 5 = 8 * 4 + 8), extract_append v (by rfl : 8 * 4 = 8 * 3 + 8),
    extract_append v (by rfl : 8 * 3 = 8 * 2 + 8), extract_append v (by rfl : 8 * 2 = 8 * 1 + 8),
    extract_append v (by rfl : 8 * 1 = 0 + 8)]
  exact BitVec.extractLsb'_eq_self

@[simp] theorem read32_write32 (m : Mem) (a : ℕ) (v : BitVec 32) :
    (m.write32 a v).read32 a = v := by
  have hByte : ∀ i < 4, m.write32 a v (a + i) = v.extractLsb' (8 * i) 8 := fun i hi => by
    rw [write32, if_pos (by omega), Nat.add_sub_cancel_left]
  have hFirst : m.write32 a v a = v.extractLsb' 0 8 := hByte 0 (by omega)
  unfold read32
  rw [hByte 3 (by omega), hByte 2 (by omega), hByte 1 (by omega), hFirst]
  rw [extract_append v (by rfl : 8 * 3 = 8 * 2 + 8), extract_append v (by rfl : 8 * 2 = 8 * 1 + 8),
    extract_append v (by rfl : 8 * 1 = 0 + 8)]
  exact BitVec.extractLsb'_eq_self

theorem read64_write64_of_disjoint (h : b + 8 ≤ a ∨ a + 8 ≤ b) :
    (m.write64 a v).read64 b = m.read64 b :=
  read64_congr fun _ _ _ => write64_of_outside (by omega)

theorem read64_writeFields_of_outside
    (h : ∀ f ∈ fs, b + 8 ≤ a + f.1) : (m.writeFields a fs).read64 b = m.read64 b := by
  unfold writeFields
  induction fs generalizing m with
  | nil => rfl
  | cons f fs ih =>
    rw [List.foldl_cons, ih fun g hg => h g (List.mem_cons_of_mem f hg)]
    exact read64_write64_of_disjoint (.inl (h f List.mem_cons_self))

theorem read64_writeFields
    (hOrder : fs.Pairwise fun f g => f.1 + 8 ≤ g.1) {o : ℕ} (h : (o, v) ∈ fs) :
    (m.writeFields a fs).read64 (a + o) = v := by
  induction fs generalizing m with
  | nil => exact absurd h List.not_mem_nil
  | cons f fs ih =>
    obtain ⟨hFirst, hRest⟩ := List.pairwise_cons.mp hOrder
    rcases List.mem_cons.mp h with rfl | h
    · -- later fields lie above this one
      have hOut : ∀ g ∈ fs, a + o + 8 ≤ a + g.1 := fun g hg => by
        have := hFirst g hg
        omega
      exact (read64_writeFields_of_outside hOut).trans (read64_write64 m (a + o) v)
    · exact ih hRest h

theorem fill_of_outside {v : BitVec 8} (h : b < a ∨ a + n ≤ b) : m.fill a n v b = m b :=
  if_neg (by omega)

theorem copy_of_outside {src : ℕ} (h : b < a ∨ a + n ≤ b) : m.copy a src n b = m b :=
  if_neg (by omega)

theorem store_of_outside {bs : List (BitVec 8)} (h : b < a ∨ a + bs.length ≤ b) :
    m.store a bs b = m b := by
  unfold store
  split
  · rw [List.getElem?_eq_none (by omega), Option.getD_none]
  · rfl

end Mem

end Gnos.ProofKit
