import Gnos.Pmm.Model

/-! The bitmap as a set of frames: what `bit_set` and `bit_clear` do to every bit, the set of clear
bits, and the invariant that ties `g_free`, `g_total` and `g_next_hint` to it. -/

namespace Gnos.Pmm

open ProofKit Function Finset BitVec

theorem getLsbD_set (b : BitVec 8) (i : ℕ) {j : ℕ} (hj : j < 8) :
    (b ||| 1#8 <<< i).getLsbD j = (decide (j = i) || b.getLsbD j) := by
  simp only [getLsbD_or, getLsbD_shiftLeft, getLsbD_one, hj]
  rcases Nat.lt_trichotomy j i with h | rfl | h
  · simp [h, h.ne]
  · simp
  · simp [h.ne', show j - i ≠ 0 by omega]

theorem getLsbD_clear (b : BitVec 8) (i : ℕ) {j : ℕ} (hj : j < 8) :
    (b &&& ~~~(1#8 <<< i)).getLsbD j = (!decide (j = i) && b.getLsbD j) := by
  simp only [getLsbD_and, getLsbD_not, getLsbD_shiftLeft, getLsbD_one, hj]
  rcases Nat.lt_trichotomy j i with h | rfl | h
  · simp [h, h.ne]
  · simp
  · simp [h.ne', show j - i ≠ 0 by omega]

theorem frame_eq_iff (f g : ℕ) : g = f ↔ g / 8 = f / 8 ∧ g % 8 = f % 8 := by omega

section

variable (m : Pmm)

theorem bitTest_eq (f : ℕ) : m.bitTest f = (m.gBitmap (f / 8)).getLsbD (f % 8) := by
  have hOne : ∀ b : BitVec 8, (decide (b &&& 1#8 ≠ 0) : Bool) = b.getLsbD 0 := by decide +kernel
  have h := hOne (m.gBitmap (f / 8) >>> (f % 8))
  simpa [bitTest] using h

@[simp] theorem bitTest_bitSet (f g : ℕ) :
    (m.bitSet f).bitTest g = (decide (g = f) || m.bitTest g) := by
  simp only [bitTest_eq, bitSet]
  by_cases hByte : g / 8 = f / 8
  · rw [hByte, update_self, getLsbD_set _ _ (Nat.mod_lt _ (by decide))]
    simp [frame_eq_iff f g, hByte]
  · simp [frame_eq_iff f g, hByte]

@[simp] theorem bitTest_bitClear (f g : ℕ) :
    (m.bitClear f).bitTest g = (!decide (g = f) && m.bitTest g) := by
  simp only [bitTest_eq, bitClear]
  by_cases hByte : g / 8 = f / 8
  · rw [hByte, update_self, getLsbD_clear _ _ (Nat.mod_lt _ (by decide))]
    simp [frame_eq_iff f g, hByte]
  · simp [frame_eq_iff f g, hByte]

@[simp] theorem bitTest_decFree (f : ℕ) : m.decFree.bitTest f = m.bitTest f := by
  simp only [bitTest_eq, decFree]

@[simp] theorem bitTest_incFree (f : ℕ) : m.incFree.bitTest f = m.bitTest f := by
  simp only [bitTest_eq, incFree]

@[simp] theorem bitTest_hint (h f : ℕ) :
    ({ m with gNextHint := h } : Pmm).bitTest f = m.bitTest f := rfl

end

def clearBits (m : Pmm) : Finset ℕ :=
  (Finset.range (8 * m.gBitmapBytes)).filter fun f => m.bitTest f = false

theorem mem_clearBits {m : Pmm} {f : ℕ} :
    f ∈ m.clearBits ↔ f < 8 * m.gBitmapBytes ∧ m.bitTest f = false := by
  simp [clearBits]

@[simp] theorem clearBits_decFree (m : Pmm) : m.decFree.clearBits = m.clearBits := by
  ext f
  exact Iff.rfl

@[simp] theorem clearBits_incFree (m : Pmm) : m.incFree.clearBits = m.clearBits := by
  ext f
  exact Iff.rfl

theorem clearBits_bitSet (m : Pmm) (f : ℕ) : (m.bitSet f).clearBits = m.clearBits.erase f := by
  ext g
  simp only [mem_clearBits, bitTest_bitSet, mem_erase, Bool.or_eq_false_iff,
    decide_eq_false_iff_not]
  constructor
  · rintro ⟨hg, hne, hbit⟩
    exact ⟨hne, hg, hbit⟩
  · rintro ⟨hne, hg, hbit⟩
    exact ⟨hg, hne, hbit⟩

theorem clearBits_bitClear {m : Pmm} {f : ℕ} (hf : f < 8 * m.gBitmapBytes) :
    (m.bitClear f).clearBits = insert f m.clearBits := by
  ext g
  simp only [mem_clearBits, bitTest_bitClear, mem_insert, Bool.and_eq_false_iff]
  by_cases hg : g = f
  · subst hg
    simpa [bitClear] using hf
  · simp [hg, bitClear]

def IsFree (m : Pmm) (f : ℕ) : Prop := f < m.gTotal ∧ m.bitTest f = false

/-- `g_free` counts the clear bits, the bits past the last frame are set, and the hint is a frame or
the end. -/
structure Inv (m : Pmm) : Prop where
  count : m.gFree = m.clearBits.card
  bytes : m.gBitmapBytes = (m.gTotal + 7) / 8
  total : m.gTotal ≤ physLimit / pageSize
  tail : ∀ f, m.gTotal ≤ f → f < 8 * m.gBitmapBytes → m.bitTest f
  hint : m.gNextHint ≤ m.gTotal

namespace Inv

variable {m : Pmm}

section

variable (h : m.Inv)
include h

theorem mem_clearBits_iff {f : ℕ} : f ∈ m.clearBits ↔ m.IsFree f := by
  have hBytes := h.bytes
  constructor
  · intro hf
    obtain ⟨hLt, hBit⟩ := mem_clearBits.mp hf
    refine ⟨?_, hBit⟩
    by_contra hTotal
    rw [h.tail f (by omega) hLt] at hBit
    cases hBit
  · rintro ⟨hLt, hBit⟩
    exact mem_clearBits.mpr ⟨by omega, hBit⟩

theorem card_le : m.clearBits.card ≤ m.gTotal := by
  have hSub : m.clearBits ⊆ range m.gTotal :=
    fun f hf => mem_range.mpr (h.mem_clearBits_iff.mp hf).1
  simpa using card_le_card hSub

theorem gFree_lt : m.gFree < 2 ^ 64 := by
  have hCard := h.card_le
  have hTotal := h.total
  rw [h.count]
  norm_num [physLimit, pageSize] at hTotal
  omega

theorem bitSet_decFree {f : ℕ} (hf : m.IsFree f) : (m.bitSet f).decFree.Inv := by
  have hMem := h.mem_clearBits_iff.mpr hf
  have hPos : 0 < m.clearBits.card := card_pos.mpr ⟨f, hMem⟩
  have hLt := h.gFree_lt
  refine ⟨?_, h.bytes, h.total, fun g hTotal hg => ?_, h.hint⟩
  · have hCount := h.count
    rw [clearBits_decFree, clearBits_bitSet, card_erase_of_mem hMem, ← h.count]
    simp only [decFree, bitSet]
    exact sub64_of_le (by omega) hLt
  · simp [h.tail g hTotal hg]

theorem bitClear_incFree {f : ℕ} (hf : f < m.gTotal) (hBit : m.bitTest f) :
    (m.bitClear f).incFree.Inv := by
  have hBytes := h.bytes
  have hRange : f < 8 * m.gBitmapBytes := by omega
  have hMem : f ∉ m.clearBits := fun hMem => by simp [(mem_clearBits.mp hMem).2] at hBit
  have hTail : ∀ g, m.gTotal ≤ g → g < 8 * m.gBitmapBytes → (m.bitClear f).bitTest g := by
    intro g hTotal hg
    have hne : g ≠ f := by omega
    simp [hne, h.tail g hTotal hg]
  have hSub : (m.bitClear f).clearBits ⊆ range m.gTotal := by
    intro g hg
    obtain ⟨hLt, hFalse⟩ := mem_clearBits.mp hg
    by_contra hOut
    rw [hTail g (by simpa using hOut) hLt] at hFalse
    cases hFalse
  have hCard : (m.bitClear f).clearBits.card = m.gFree + 1 := by
    rw [clearBits_bitClear hRange, card_insert_of_notMem hMem, h.count]
  have hBound : m.gFree + 1 ≤ m.gTotal := by
    rw [← hCard]
    simpa using card_le_card hSub
  have hTotal := h.total
  norm_num [physLimit, pageSize] at hTotal
  refine ⟨?_, h.bytes, h.total, fun g hg hLt => ?_, h.hint⟩
  · rw [clearBits_incFree, hCard]
    simp only [incFree, bitClear]
    exact add64_of_lt (by omega)
  · exact hTail g hg hLt

theorem withHint {n : ℕ} (hn : n ≤ m.gTotal) : ({ m with gNextHint := n } : Pmm).Inv :=
  ⟨h.count, h.bytes, h.total, h.tail, hn⟩

theorem gFree_eq_zero (hNone : ∀ f, ¬m.IsFree f) : m.gFree = 0 := by
  rw [h.count, card_eq_zero, eq_empty_iff_forall_notMem]
  exact fun f hf => hNone f (h.mem_clearBits_iff.mp hf)

end

end Inv

end Gnos.Pmm
