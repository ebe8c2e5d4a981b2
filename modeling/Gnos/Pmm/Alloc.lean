import Gnos.Pmm.Bitmap

/-! What each operation does to the free frames: `alloc` takes one whenever there is one, `free`
gives one back, and `allocContiguous` takes the lowest run of the length asked for. -/

namespace Gnos.Pmm

open ProofKit List Nat

variable {m : Pmm} {start stop f n : ℕ}

theorem scan_eq_some (h : m.scan start stop = some f) : f < stop ∧ m.bitTest f = false := by
  have hBit := find?_some h
  have hMem := mem_of_find?_eq_some h
  rw [mem_range'_1] at hMem
  exact ⟨by omega, by simpa using hBit⟩

theorem scan_eq_none (h : m.scan start stop = none) :
    ∀ f, start ≤ f → f < stop → m.bitTest f := by
  intro f hStart hStop
  have hAll := find?_eq_none.mp h f (mem_range'_1.mpr ⟨hStart, by omega⟩)
  simpa using hAll

@[simp] theorem bitTest_take (m : Pmm) (f g : ℕ) :
    (m.take f).bitTest g = (decide (g = f) || m.bitTest g) := by
  simp only [take, bitTest_hint, bitTest_decFree, bitTest_bitSet]

@[simp] theorem gTotal_take (m : Pmm) (f : ℕ) : (m.take f).gTotal = m.gTotal := by
  simp only [take, decFree, bitSet]

theorem frame_mul_div (f : ℕ) : f * pageSize / pageSize = f :=
  Nat.mul_div_cancel f (by decide)

@[simp] theorem gTotal_free (m : Pmm) (phys : ℕ) : (m.free phys).gTotal = m.gTotal := by
  unfold free
  simp only
  split
  · rfl
  · split <;> rfl

theorem bitTest_free {phys : ℕ} (g : ℕ) (hg : g < m.gTotal) :
    (m.free phys).bitTest g = (!decide (g = phys / pageSize) && m.bitTest g) := by
  unfold free
  simp only
  split
  · rename_i hStop
    by_cases hEq : g = phys / pageSize
    · subst hEq
      rcases hStop with hTotal | hBit
      · omega
      · simpa using hBit
    · simp [hEq]
  · split <;> simp

section

variable (h : m.Inv)
include h

theorem alloc_spec : (∃ f, m.IsFree f ∧ m.alloc = (f * pageSize, m.take f)) ∨
      (m.alloc = (0, m) ∧ ∀ f, ¬m.IsFree f) := by
  unfold alloc
  cases hFirst : m.scan m.gNextHint m.gTotal with
  | some f =>
    exact .inl ⟨f, scan_eq_some hFirst, rfl⟩
  | none =>
    cases hSecond : m.scan 0 m.gNextHint with
    | some f =>
      obtain ⟨hStop, hBit⟩ := scan_eq_some hSecond
      exact .inl ⟨f, ⟨lt_of_lt_of_le hStop h.hint, hBit⟩, rfl⟩
    | none =>
      refine .inr ⟨rfl, fun f ⟨hLt, hBit⟩ => ?_⟩
      have hSet : m.bitTest f := by
        by_cases hHint : f < m.gNextHint
        · exact scan_eq_none hSecond f (zero_le f) hHint
        · exact scan_eq_none hFirst f (by omega) hLt
      rw [hSet] at hBit
      cases hBit

theorem Inv.take (hf : m.IsFree f) : (m.take f).Inv :=
  (h.bitSet_decFree hf).withHint hf.1

theorem Inv.gFree_take (hf : m.IsFree f) : m.gFree = (m.take f).gFree + 1 := by
  have hMem := h.mem_clearBits_iff.mpr hf
  have hPos : 0 < m.gFree := by
    rw [h.count]
    exact Finset.card_pos.mpr ⟨f, hMem⟩
  have hDec : (m.take f).gFree = sub64 m.gFree 1 := rfl
  rw [hDec, sub64_of_le hPos h.gFree_lt]
  omega

theorem Inv.free (phys : ℕ) : (m.free phys).Inv := by
  unfold Pmm.free
  simp only
  split
  · exact h
  · rename_i hStop
    rw [not_or, not_le, not_not] at hStop
    have hInv := h.bitClear_incFree hStop.1 hStop.2
    split
    · exact hInv.withHint (le_of_lt hStop.1)
    · exact hInv

end

theorem isFree_free {g : ℕ} (hf : f < m.gTotal) :
    (m.free (f * pageSize)).IsFree g ↔ m.IsFree g ∨ g = f := by
  simp only [IsFree, gTotal_free]
  constructor
  · rintro ⟨hLt, hBit⟩
    rw [bitTest_free g hLt, frame_mul_div, Bool.and_eq_false_iff] at hBit
    rcases hBit with hEq | hBit
    · exact .inr (by simpa using hEq)
    · exact .inl ⟨hLt, hBit⟩
  · rintro (⟨hLt, hBit⟩ | rfl)
    · exact ⟨hLt, by rw [bitTest_free g hLt, hBit, Bool.and_false]⟩
    · exact ⟨hf, by rw [bitTest_free g hf, frame_mul_div]; simp⟩

/-- The `n` frames from `f` on are free. -/
def FreeRun (m : Pmm) (f n : ℕ) : Prop := ∀ i < n, m.IsFree (f + i)

/-- The inner loop stops at the first frame that is not free. -/
theorem freeRun_spec (m : Pmm) (f n : ℕ) : m.freeRun f n ≤ n ∧
    (∀ i < m.freeRun f n, m.bitTest (f + i) = false) ∧
      (m.freeRun f n ≠ n → m.bitTest (f + m.freeRun f n)) := by
  induction n generalizing f with
  | zero => simp [freeRun]
  | succ n ih =>
    obtain ⟨hLe, hClear, hStop⟩ := ih (f + 1)
    rw [freeRun]
    split_ifs with hBit
    · exact ⟨zero_le _, nofun, fun _ => hBit⟩
    · refine ⟨succ_le_succ hLe, fun i hi => ?_, fun hne => ?_⟩
      · cases i with
        | zero => simpa using hBit
        | succ i =>
          rw [show f + (i + 1) = f + 1 + i by omega]
          exact hClear i (by omega)
      · rw [show f + (m.freeRun (f + 1) n + 1) = f + 1 + m.freeRun (f + 1) n by omega]
        exact hStop (by omega)

/-- The skip of `k + 1` frames jumps over no run: it would contain the occupied frame `f + k`. -/
theorem no_run_skipped {g : ℕ} (h : m.freeRun f n ≠ n) (hLow : f ≤ g)
    (hHigh : g < f + (m.freeRun f n + 1)) : ¬m.FreeRun g n := by
  intro hRun
  obtain ⟨hle, -, hStop⟩ := freeRun_spec m f n
  replace hStop := hStop h
  have hFree := hRun (f + m.freeRun f n - g) (by omega)
  rw [show g + (f + m.freeRun f n - g) = f + m.freeRun f n by omega] at hFree
  rw [hFree.2] at hStop
  cases hStop

/-- The outer loop finds the lowest run from `f` on, when its fuel covers the frames left. -/
theorem contiguousScan_spec (hTotal : m.gTotal ≤ physLimit / pageSize) (hn : 0 < n)
    (hWord : n < 2 ^ 64) (fuel f : ℕ) (hFuel : m.gTotal < fuel + f) (hSmall : f ≤ 2 ^ 41)
    (hBig : f = 0 ∨ n ≤ m.gTotal) : match m.contiguousScan n fuel f with
    | some g => f ≤ g ∧ m.FreeRun g n ∧ ∀ g', f ≤ g' → g' < g → ¬m.FreeRun g' n
    | none => ∀ g, f ≤ g → ¬m.FreeRun g n := by
  have hPhys : m.gTotal ≤ 2 ^ 40 := by
    norm_num [physLimit, pageSize] at hTotal
    omega
  induction fuel generalizing f with
  | zero =>
    intro g hg hRun
    have := (hRun 0 hn).1
    omega
  | succ fuel ih =>
    rw [contiguousScan]
    have hSum : add64 f n = f + n := by
      refine add64_of_lt ?_
      rcases hBig with rfl | hBig <;> omega
    rw [hSum]
    by_cases hFits : f + n ≤ m.gTotal
    · rw [ite_cond_eq_true _ _ (eq_true hFits)]
      by_cases hRun : m.freeRun f n = n
      · rw [ite_cond_eq_true _ _ (eq_true hRun)]
        refine ⟨le_refl f, fun i hi => ⟨by omega, ?_⟩, fun g' hLow hHigh => by omega⟩
        exact (freeRun_spec m f n).2.1 i (by omega)
      · rw [ite_cond_eq_false _ _ (eq_false hRun)]
        have hle := (freeRun_spec m f n).1
        have hNext := ih (f + (m.freeRun f n + 1)) (by omega) (by omega) (.inr (by omega))
        have hSkip : ∀ g, f ≤ g → g < f + (m.freeRun f n + 1) → ¬m.FreeRun g n :=
          fun g => no_run_skipped hRun
        cases hScan : m.contiguousScan n fuel (f + (m.freeRun f n + 1)) with
        | some g =>
          rw [hScan] at hNext
          refine ⟨by have := hNext.1; omega, hNext.2.1, fun g' hLow hHigh => ?_⟩
          by_cases hg' : g' < f + (m.freeRun f n + 1)
          · exact hSkip g' hLow hg'
          · exact hNext.2.2 g' (by omega) hHigh
        | none =>
          rw [hScan] at hNext
          intro g hLow
          by_cases hg : g < f + (m.freeRun f n + 1)
          · exact hSkip g hLow hg
          · exact hNext g (by omega)
    · rw [ite_cond_eq_false _ _ (eq_false hFits)]
      intro g hLow hRun
      have := (hRun (n - 1) (by omega)).1
      omega

theorem foldl_take (n f : ℕ) (h : m.Inv) (hRun : m.FreeRun f n) :
    let m' := (range' f n).foldl (fun m g => (m.bitSet g).decFree) m
    m'.Inv ∧ m'.gTotal = m.gTotal ∧
    ∀ g, m'.bitTest g = (decide (f ≤ g ∧ g < f + n) || m.bitTest g) := by
  induction n generalizing f m with
  | zero =>
    refine ⟨h, rfl, fun g => ?_⟩
    simp
  | succ n ih =>
    rw [range'_succ, foldl_cons]
    have hFirst : m.IsFree f := hRun 0 (by omega)
    have hRest : (m.bitSet f).decFree.FreeRun (f + 1) n := by
      intro i hi
      obtain ⟨hLt, hBit⟩ := hRun (i + 1) (by omega)
      rw [show f + (i + 1) = f + 1 + i by omega] at hLt hBit
      refine ⟨hLt, ?_⟩
      rw [bitTest_decFree, bitTest_bitSet, hBit, Bool.or_false]
      exact decide_eq_false (by omega)
    obtain ⟨hInv, hTotal, hBits⟩ := ih (f + 1) (h.bitSet_decFree hFirst) hRest
    refine ⟨hInv, hTotal, fun g => ?_⟩
    rw [hBits, bitTest_decFree, bitTest_bitSet, ← Bool.or_assoc, ← Bool.decide_or]
    congr 2
    apply propext
    omega

theorem Inv.takeRun (h : m.Inv) (hn : 0 < n) (hRun : m.FreeRun f n) : (m.takeRun f n).Inv := by
  obtain ⟨hInv, hTotal, -⟩ := foldl_take n f h hRun
  have hLast := (hRun (n - 1) (by omega)).1
  exact hInv.withHint (by rw [hTotal]; omega)

theorem bitTest_takeRun (h : m.Inv) (hRun : m.FreeRun f n) (g : ℕ) :
    (m.takeRun f n).bitTest g = (decide (f ≤ g ∧ g < f + n) || m.bitTest g) := by
  exact (foldl_take n f h hRun).2.2 g

theorem gTotal_takeRun (h : m.Inv) (hRun : m.FreeRun f n) : (m.takeRun f n).gTotal = m.gTotal :=
  (foldl_take n f h hRun).2.1

/-- `allocContiguous` takes the lowest run of `n` free frames when there is one, and otherwise
returns 0 and changes nothing. -/
theorem allocContiguous_spec (h : m.Inv) (hn : 0 < n) (hWord : n < 2 ^ 64) :
    (∃ f, m.FreeRun f n ∧ (∀ g < f, ¬m.FreeRun g n) ∧
      m.allocContiguous n = (f * pageSize, m.takeRun f n)) ∨
    (m.allocContiguous n = (0, m) ∧ ∀ f, ¬m.FreeRun f n) := by
  have hScan := contiguousScan_spec h.total hn hWord (m.gTotal + 1) 0 (by omega) (by omega)
    (.inl rfl)
  rw [allocContiguous, ite_cond_eq_false _ _ (eq_false hn.ne')]
  cases hFound : m.contiguousScan n (m.gTotal + 1) 0 with
  | some f =>
    rw [hFound] at hScan
    exact .inl ⟨f, hScan.2.1, fun g hg => hScan.2.2 g (zero_le g) hg, rfl⟩
  | none =>
    rw [hFound] at hScan
    exact .inr ⟨rfl, fun f => hScan f (zero_le f)⟩

end Gnos.Pmm
