import Gnos.Slab.Lists

/-! Where the objects of a slab lie.  `Header.Sound` is what the rest of the allocator needs of a
slab: its objects are apart, behind the header, inside the run, and the mask leads from each to the
header. -/

namespace Gnos.Slab

open ProofKit List Nat Option

/-- The bytes of an object that anybody uses: those the caller asked for, and the link. -/
def Geometry.extent (g : Geometry) : ℕ := max g.objSize 8

/-- What the geometry owes a slab whose run starts at `base`. -/
structure Header.Sound (g : Geometry) (base : ℕ) (t : Header) : Prop where
  aligned : base % g.slabSize = 0
  /-- The objects lie in the run, after the header. -/
  inside : ∀ i < g.objsPerSlab, base + hdrSize ≤ g.obj base t.colour i ∧
    g.obj base t.colour i + g.extent ≤ base + g.slabSize
  apart : ∀ i j, i < j → j < g.objsPerSlab →
    g.obj base t.colour i + g.extent ≤ g.obj base t.colour j ∨
      g.obj base t.colour j + g.extent ≤ g.obj base t.colour i
  /-- The objects lie in the block that `kmalloc` gave. -/
  block : ∀ i < g.objsPerSlab, t.raw ≤ g.obj base t.colour i ∧
    g.obj base t.colour i + g.extent ≤ t.raw + 2 * g.slabSize
  masks : ∀ i < g.objsPerSlab, g.obj base t.colour i &&& not64 (g.slabSize - 1) = base

/-- The slabs that `slab_grow` builds from the blocks in turn, as it leaves them. -/
def Kmem.builds : List ℕ → Kmem → List (ℕ × Header)
  | [], _ => []
  | raw :: raws, s => ((s.slabGrow raw).1, (s.slabGrow raw).2.slab (s.slabGrow raw).1) ::
      builds raws (s.slabGrow raw).2

/-- A block that `kmalloc` can give for a slab. -/
def Geometry.Block (g : Geometry) (raw : ℕ) : Prop := raw ≠ 0 ∧ raw + 2 * g.slabSize < 2 ^ 64

instance (g : Geometry) (raw : ℕ) : Decidable (g.Block raw) :=
  inferInstanceAs (Decidable (_ ∧ _))

/-- Every slab that `slab_grow` ever builds for the cache is sound. -/
def Cache.Sound (c : Cache) : Prop :=
  ∀ raws, (∀ raw ∈ raws, c.Block raw) → ∀ x ∈ Kmem.builds raws { cache := c },
    x.2.Sound c.toGeometry x.1

theorem alignUp_two_pow {v k : ℕ} (hk : k < 64) (hv : v + 2 ^ k < 2 ^ 64) :
    alignUp v (2 ^ k) = (v + 2 ^ k - 1) / 2 ^ k * 2 ^ k := by
  have hPos := Nat.two_pow_pos k
  rw [alignUp, add64_of_lt hv, sub64_of_le (by omega) hv, land_not64_two_pow (by omega) hk.le]

theorem roundUp_bounds {v a : ℕ} (ha : 0 < a) :
    v ≤ (v + a - 1) / a * a ∧ (v + a - 1) / a * a < v + a := by
  have hMod := mod_lt (v + a - 1) ha
  have hDiv := div_add_mod (v + a - 1) a
  rw [mul_comm] at hDiv
  omega

theorem minAlign_eq (align : ℕ) :
    (if (if align ≠ 0 then align else alignMin) < alignMin then alignMin
      else if align ≠ 0 then align else alignMin) = max align 16 := by
  unfold alignMin
  split <;> split <;> omega

theorem wanted_eq (align flags : ℕ) : (if flags &&& hwcacheAlign ≠ 0 then
      if colourAlign < max align 16 then max align 16 else colourAlign else max align 16) =
    max (max align 16) (if flags % 2 = 1 then 64 else 0) := by
  rw [hwcacheAlign, and_one_is_mod]
  unfold colourAlign
  by_cases hBit : flags % 2 = 1
  · rw [if_pos (by omega), if_pos hBit]
    split <;> omega
  · rw [if_neg (by omega), if_neg hBit]
    omega

theorem isPow2_iff {n : ℕ} (hn : n ≠ 0) : isPow2 n ↔ 2 ^ n.log2 = n := by
  rw [isPow2, Bool.and_eq_true, decide_eq_true_eq, decide_eq_true_eq,
    Nat.and_sub_one_eq_zero_iff_isPowerOfTwo hn]
  constructor
  · rintro ⟨-, k, rfl⟩
    rw [log2_two_pow]
  · exact fun h => ⟨hn, n.log2, h.symm⟩

theorem effectiveAlign_wanted (align flags : ℕ) : effectiveAlign align flags =
      let wanted := max (max align 16) (if flags % 2 = 1 then 64 else 0)
      if 2 ^ wanted.log2 = wanted then wanted else 16 := by
  unfold effectiveAlign
  dsimp only
  rw [minAlign_eq, wanted_eq]
  exact if_congr (isPow2_iff (by omega)) rfl rfl

theorem effectiveAlign_eq {align flags : ℕ} (hAlign : align < 2 ^ 32) :
    ∃ k < 32, effectiveAlign align flags = 2 ^ k := by
  rw [effectiveAlign_wanted]
  have hBit : (if flags % 2 = 1 then 64 else 0) ≤ 64 := by split <;> omega
  dsimp only
  generalize (if flags % 2 = 1 then 64 else 0) = bit at hBit ⊢
  split_ifs with hPow
  · refine ⟨_, ?_, hPow.symm⟩
    exact (Nat.pow_lt_pow_iff_right (a := 2) (by decide)).mp (by rw [hPow]; omega)
  · exact ⟨4, by decide, rfl⟩

theorem stride_eq {size align flags : ℕ} (hSize : size ≤ 65536) (hAlign : align < 2 ^ 32) :
    stride size align flags = (max size 16 + effectiveAlign align flags - 1) /
      effectiveAlign align flags * effectiveAlign align flags := by
  obtain ⟨k, hk, hEq⟩ := effectiveAlign_eq hAlign
  have hNeed : (if size < objMin then objMin else size) = max size 16 := by
    unfold objMin
    split <;> omega
  have hPow : 2 ^ k ≤ 2 ^ 31 := Nat.pow_le_pow_right (by decide) (by omega)
  have hLt : (max size 16 + 2 ^ k - 1) / 2 ^ k * 2 ^ k < 2 ^ 32 := by
    have := (roundUp_bounds (v := max size 16) (Nat.two_pow_pos k)).2
    omega
  rw [stride, hNeed, hEq, alignUp_two_pow (by omega) (by omega), mod_eq_of_lt hLt]

theorem stride_bounds {size align : ℕ} (flags : ℕ) (hSize : size ≤ 65536)
    (hAlign : align < 2 ^ 32) :
    max size 16 ≤ stride size align flags ∧ stride size align flags < 2 ^ 32 := by
  refine ⟨?_, mod_lt _ (by decide)⟩
  rw [stride_eq hSize hAlign]
  obtain ⟨k, -, hEq⟩ := effectiveAlign_eq hAlign
  exact (roundUp_bounds (by rw [hEq]; exact Nat.two_pow_pos k)).1

def runSize? (b : ℕ) : Option ℕ := [4096, 8192, 16384, 32768, 65536].find? (b + 56 ≤ ·)

theorem growPages_eq (b : ℕ) : growPages b maxSlabOrder 1 * pageSize = (runSize? b).getD 65536 := by
  unfold maxSlabOrder pageSize runSize?
  simp only [growPages, pageSize, hdrSize, maxSlabOrder, find?]
  rcases lt_or_ge 4096 (b + 56) with h0 | h0
  · rcases lt_or_ge 8192 (b + 56) with h1 | h1
    · rcases lt_or_ge 16384 (b + 56) with h2 | h2
      · rcases lt_or_ge 32768 (b + 56) with h3 | h3
        · by_cases h4 : b + 56 ≤ 65536 <;> simp [h0, h1, h2, h3, not_le.mpr, h4]
        · simp [h0, h1, h2, h3, not_le.mpr, not_lt.mpr]
      · simp [h0, h1, h2, not_le.mpr, not_lt.mpr]
    · simp [h0, h1, not_le.mpr, not_lt.mpr]
  · simp [h0, not_lt.mpr]

theorem runSize_eq {b S : ℕ} (h : runSize? b = some S) :
    b + 56 ≤ S ∧ S ≤ 2 ^ 16 ∧ ∃ k, 12 ≤ k ∧ k ≤ 16 ∧ S = 2 ^ k := by
  have hFits := find?_some h
  have hMem := mem_of_find?_eq_some h
  refine ⟨by simpa using hFits, ?_⟩
  simp only [mem_cons, not_mem_nil, or_false] at hMem
  refine ⟨by omega, ?_⟩
  rcases hMem with rfl | rfl | rfl | rfl | rfl
  · exact ⟨12, by decide, by decide, rfl⟩
  · exact ⟨13, by decide, by decide, rfl⟩
  · exact ⟨14, by decide, by decide, rfl⟩
  · exact ⟨15, by decide, by decide, rfl⟩
  · exact ⟨16, by decide, by decide, rfl⟩

theorem runSize_none {b : ℕ} (h : runSize? b = none) : 65536 < b + 56 := by
  have hLast := find?_eq_none.mp h 65536 (by simp)
  simp only [decide_eq_true_eq] at hLast
  omega

structure Geometry.Fits (g : Geometry) (size b S : ℕ) : Prop where
  objSize : g.objSize = size
  bufSize : g.bufSize = b
  slabSize : g.slabSize = S
  objsPerSlab : g.objsPerSlab = (S - 56) / b
  colourMax : g.colourMax = max 1 (min 16 ((S - 56) % b / 64))
  colourOff : g.colourOff = 64

theorem colours_eq (waste : ℕ) : colours waste = max 1 (min 16 (waste / 64)) := by
  unfold colours colourAlign colourLimit
  dsimp only
  split
  · omega
  · split <;> omega

variable {size align flags : ℕ}

theorem geometry_fits {S : ℕ} (hb : 0 < stride size align flags)
    (hS : runSize? (stride size align flags) = some S) :
    (geometry size align flags).Fits size (stride size align flags) S := by
  set b := stride size align flags with hStride
  obtain ⟨hRoom, hMost, -⟩ := runSize_eq hS
  have hRun : growPages b maxSlabOrder 1 * pageSize = S := by
    rw [growPages_eq, hS, getD_some]
  have hPos : (S - 56) / b ≠ 0 := (Nat.div_pos (by omega) hb).ne'
  have hLe : (S - 56) / b ≤ S - 56 := div_le_self _ _
  have hObjs : (S - 56) / b % 2 ^ 32 = (S - 56) / b := mod_eq_of_lt (by omega)
  have hWaste : sub64 (S - 56) ((S - 56) / b * b) = (S - 56) % b := by
    have := div_add_mod (S - 56) b
    rw [mul_comm] at this
    rw [sub64_of_le (by omega) (by omega)]
    omega
  refine ⟨rfl, rfl, hRun, ?_, ?_, rfl⟩ <;> unfold geometry hdrSize <;> dsimp only <;>
    rw [← hStride, hRun, hObjs, if_pos hPos]
  rw [hWaste, colours_eq]

theorem geometry_tight (hS : runSize? (stride size align flags) = none) :
    (geometry size align flags).bufSize = stride size align flags ∧
      (geometry size align flags).slabSize = 65536 ∧
      (geometry size align flags).objsPerSlab = 1 := by
  have hTight := runSize_none hS
  have hRun : growPages (stride size align flags) maxSlabOrder 1 * pageSize = 65536 := by
    rw [growPages_eq, hS, getD_none]
  have hNone : (65536 - hdrSize) / stride size align flags % 2 ^ 32 = 0 := by
    rw [div_eq_of_lt (by unfold hdrSize; omega), zero_mod]
  refine ⟨rfl, hRun, ?_⟩
  unfold geometry
  dsimp only
  rw [hRun, hNone, if_neg (by simp)]

theorem Geometry.obj_eq {g : Geometry} {base colour i : ℕ}
    (hObjs : g.objsPerSlab * g.bufSize ≤ base + g.slabSize) (hRun : base + g.slabSize < 2 ^ 64)
    (hObjs' : g.objsPerSlab * g.bufSize < 2 ^ 32) (hi : i ≤ g.objsPerSlab)
    (hColour : colour * g.colourOff < 2 ^ 32)
    (hEnd : base + g.slabSize - g.objsPerSlab * g.bufSize + colour * g.colourOff + i * g.bufSize <
      2 ^ 64) :
    g.obj base colour i = base + g.slabSize - g.objsPerSlab * g.bufSize + colour * g.colourOff +
      i * g.bufSize := by
  have hi' : i * g.bufSize ≤ g.objsPerSlab * g.bufSize := mul_le_mul_right _ hi
  rw [obj, objs, add64_of_lt hRun, mul32_of_lt hObjs', mul32_of_lt hColour,
    mul32_of_lt (by omega), sub64_of_le hObjs (by omega)]
  have hStart : add64 (base + g.slabSize - g.objsPerSlab * g.bufSize) (colour * g.colourOff) =
      base + g.slabSize - g.objsPerSlab * g.bufSize + colour * g.colourOff :=
    add64_of_lt (by omega)
  rw [hStart, add64_of_lt hEnd]

section Fits

variable {g : Geometry} {b S base colour i : ℕ}

theorem Geometry.Fits.obj_eq (hg : g.Fits size b S) (hS : runSize? b = some S)
    (hRun : base + S + 64 * colour < 2 ^ 64 + b) (hRun' : base + S < 2 ^ 64)
    (hColour : colour < 16) (hi : i < g.objsPerSlab) :
    g.obj base colour i = base + (S - g.objsPerSlab * b) + 64 * colour + i * b ∧
      g.objsPerSlab * b + 56 ≤ S ∧ (i + 1) * b ≤ g.objsPerSlab * b := by
  obtain ⟨hRoom, hMost, -⟩ := runSize_eq hS
  have hAll : g.objsPerSlab * b ≤ S - 56 := by
    rw [hg.objsPerSlab]
    exact div_mul_le_self _ _
  have hLast : (i + 1) * b ≤ g.objsPerSlab * b := mul_le_mul_right _ hi
  have hNext : (i + 1) * b = i * b + b := succ_mul i b
  have hEq := @Geometry.obj_eq g base colour i
    (by rw [hg.bufSize, hg.slabSize]; omega) (by rw [hg.slabSize]; omega)
    (by rw [hg.bufSize]; omega) hi.le (by rw [hg.colourOff]; omega)
    (by rw [hg.bufSize, hg.slabSize, hg.colourOff]; omega)
  rw [hEq, hg.bufSize, hg.slabSize, hg.colourOff]
  refine ⟨?_, by omega, hLast⟩
  omega

theorem Geometry.Fits.sound (hg : g.Fits size b S) (hS : runSize? b = some S)
    (hSize : max size 8 ≤ b)
    {t : Header} (hBlock : g.Block t.raw) (hBase : base = alignUp t.raw S) (hColour : t.colour < 16)
    (hLast : 64 * t.colour ≤ b - max size 8) : t.Sound g base := by
  obtain ⟨hRoom, hMost, k, hk0, hk, rfl⟩ := runSize_eq hS
  obtain ⟨-, hBlock⟩ := hBlock
  rw [hg.slabSize] at hBlock
  have hPos := Nat.two_pow_pos k
  obtain ⟨hLow, hHigh⟩ := roundUp_bounds (v := t.raw) hPos
  rw [alignUp_two_pow (by omega) (by omega)] at hBase
  have hExtent : g.extent = max size 8 := by rw [extent, hg.objSize]
  have hObj := fun i (hi : i < g.objsPerSlab) =>
    hg.obj_eq hS (show base + 2 ^ k + 64 * t.colour < 2 ^ 64 + b by omega) (by omega) hColour hi
  have hStep : ∀ i, (i + 1) * b = i * b + b := fun i => succ_mul i b
  have hInside : ∀ i < g.objsPerSlab, base + hdrSize ≤ g.obj base t.colour i ∧
      g.obj base t.colour i + g.extent ≤ base + 2 ^ k := by
    intro i hi
    obtain ⟨hEq, hAll, hLe⟩ := hObj i hi
    rw [hStep] at hLe
    unfold hdrSize
    omega
  have hAligned : base % 2 ^ k = 0 := by
    rw [hBase]
    exact mul_mod_left _ _
  refine ⟨by rw [hg.slabSize, hAligned], ?_, ?_, ?_, ?_⟩
  · intro i hi
    rw [hg.slabSize]
    exact hInside i hi
  · intro i j hij hj
    left
    have hMul : (i + 1) * b ≤ j * b := mul_le_mul_right _ hij
    rw [hStep] at hMul
    rw [(hObj i (by omega)).1, (hObj j hj).1, hExtent]
    omega
  · intro i hi
    obtain ⟨hStart, hStop⟩ := hInside i hi
    rw [hg.slabSize]
    omega
  · intro i hi
    obtain ⟨hStart, hStop⟩ := hInside i hi
    rw [hg.slabSize]
    exact land_not64_of_aligned (by omega) hAligned (by omega) (by omega) (by omega)

theorem Geometry.Fits.not_sound (hg : g.Fits size b S) (hb : 0 < b) (hS : runSize? b = some S)
    {t : Header} (hBase : base < 2 ^ 63) (hColour : t.colour < 16)
    (hLast : b < 64 * t.colour + max size 8) : ¬ t.Sound g base := by
  intro hSound
  obtain ⟨hRoom, hMost, -⟩ := runSize_eq hS
  have hPos : 0 < g.objsPerSlab := by
    rw [hg.objsPerSlab]
    exact Nat.div_pos (by omega) hb
  obtain ⟨hEq, hAll, hLe⟩ := hg.obj_eq (i := g.objsPerSlab - 1) hS
    (show base + S + 64 * t.colour < 2 ^ 64 + b by omega) (by omega) hColour (by omega)
  have hStop := (hSound.inside (g.objsPerSlab - 1) (by omega)).2
  have hMul : (g.objsPerSlab - 1) * b + b = g.objsPerSlab * b := by
    rw [← Nat.succ_mul, Nat.succ_eq_add_one, Nat.sub_add_cancel hPos]
  rw [hEq, hg.slabSize, extent, hg.objSize] at hStop
  omega

end Fits

theorem not_sound_of_tight (hSize : size ≤ 65536) (hAlign : align < 2 ^ 32)
    (hS : runSize? (stride size align flags) = none) {t : Header} {base : ℕ}
    (hBase : 2 ^ 40 ≤ base) (hBase' : base < 2 ^ 63) (hColour : t.colour = 0) :
    ¬ t.Sound (geometry size align flags) base := by
  intro hSound
  obtain ⟨hBuf, hSlab, hObjs⟩ := geometry_tight hS
  have hTight := runSize_none hS
  have hStride := (stride_bounds flags hSize hAlign).2
  have hStart := (hSound.inside 0 (by rw [hObjs]; decide)).1
  have hEq := @Geometry.obj_eq (geometry size align flags) base 0 0
    (by rw [hBuf, hSlab, hObjs]; omega) (by rw [hSlab]; omega) (by rw [hBuf, hObjs]; omega)
    (by omega) (by omega) (by rw [hBuf, hSlab, hObjs]; omega)
  rw [hColour, hEq, hBuf, hSlab, hObjs] at hStart
  unfold hdrSize at hStart
  omega

namespace Kmem

variable (s : Kmem) (raw : ℕ)

theorem base_slabGrow : (s.slabGrow raw).1 = alignUp raw s.cache.slabSize := rfl

theorem header_carve : ((s.carve raw).slab (alignUp raw s.cache.slabSize)).raw = raw ∧
    ((s.carve raw).slab (alignUp raw s.cache.slabSize)).colour = s.cache.colourNext := by
  unfold carve
  dsimp only
  rw [Function.update_self]
  exact ⟨rfl, rfl⟩

theorem header_slabGrow : ((s.slabGrow raw).2.slab (s.slabGrow raw).1).raw = raw ∧
    ((s.slabGrow raw).2.slab (s.slabGrow raw).1).colour = s.cache.colourNext := by
  obtain ⟨hRaw, hColour⟩ := header_carve s raw
  have hFrame := (linkFrame_slabListAdd (s.carve raw) .slabsPartial
    (alignUp raw s.cache.slabSize)).header (alignUp raw s.cache.slabSize)
  exact ⟨hFrame.1.trans hRaw, hFrame.2.2.2.2.trans hColour⟩

theorem cache_slabGrow : (s.slabGrow raw).2.cache.toGeometry = s.cache.toGeometry ∧
    (s.slabGrow raw).2.cache.colourNext = add32 s.cache.colourNext 1 % s.cache.colourMax :=
  ⟨(linkFrame_slabListAdd _ _ _).geometry, (linkFrame_slabListAdd _ _ _).colourNext⟩

variable {s} {g : Geometry}

theorem builds_mem (hg : s.cache.toGeometry = g) (hColour : s.cache.colourNext < g.colourMax)
    {raws : List ℕ} {x : ℕ × Header} (hx : x ∈ builds raws s) :
    x.2.raw ∈ raws ∧ x.1 = alignUp x.2.raw g.slabSize ∧ x.2.colour < g.colourMax := by
  induction raws generalizing s with
  | nil => simp [builds] at hx
  | cons raw raws ih =>
    obtain ⟨hRaw, hCol⟩ := header_slabGrow s raw
    obtain ⟨hGeom, hNext⟩ := cache_slabGrow s raw
    rw [builds, mem_cons] at hx
    rcases hx with rfl | hx
    · rw [hRaw, hCol, base_slabGrow, hg]
      exact ⟨mem_cons_self, rfl, hColour⟩
    · have hLt : (s.slabGrow raw).2.cache.colourNext < g.colourMax := by
        rw [hNext, hg]
        exact mod_lt _ (by omega)
      obtain ⟨hMem, hRest⟩ := ih (hGeom.trans hg) hLt hx
      exact ⟨mem_cons_of_mem _ hMem, hRest⟩

/-- The block that comes last gets the colour of its turn. -/
theorem builds_colour (hg : s.cache.toGeometry = g) (hMax : g.colourMax ≤ 16) {k : ℕ}
    (hk : s.cache.colourNext = k) (raws : List ℕ) (raw : ℕ) (hn : k + raws.length < g.colourMax) :
    ∃ x ∈ builds (raws ++ [raw]) s, x.1 = alignUp raw g.slabSize ∧
    x.2.colour = k + raws.length := by
  induction raws generalizing s k with
  | nil =>
    obtain ⟨hRaw, hCol⟩ := header_slabGrow s raw
    refine ⟨_, mem_cons_self, ?_, ?_⟩
    · rw [base_slabGrow, hg]
    · rw [hCol, hk]
      rfl
  | cons first raws ih =>
    obtain ⟨hGeom, hNext⟩ := cache_slabGrow s first
    rw [length_cons] at hn ⊢
    rw [hk, hg, add32_of_lt (by omega), mod_eq_of_lt (by omega)] at hNext
    obtain ⟨x, hx, hBase, hCol⟩ := ih (hGeom.trans hg) hNext (by omega)
    refine ⟨x, ?_, hBase, by omega⟩
    exact mem_cons_of_mem _ hx

end Kmem

/-- An object fits in a run with the header, and so does the last object when the last colour moves
it.  Here `a` is the alignment, `b` the stride, `S` the run. -/
def LastColourFits (size align flags : ℕ) : Prop :=
  let wanted := max (max align 16) (if flags % 2 = 1 then 64 else 0)
  let a := if 2 ^ wanted.log2 = wanted then wanted else 16
  let b := (max size 16 + a - 1) / a * a
  ∃ S ∈ runSize? b, 64 * (min 16 ((S - 56) % b / 64) - 1) ≤ b - max size 8

theorem eq_fresh_of_create {named mem : Bool} {c : Cache}
    (hCreate : kmemCacheCreate named mem size align flags = some c) :
    size ≤ 65536 ∧ c = .fresh (geometry size align flags) := by
  unfold kmemCacheCreate at hCreate
  split at hCreate
  · exact absurd hCreate (by simp)
  · rename_i hAccepted
    split at hCreate
    · exact absurd hCreate (by simp)
    · refine ⟨?_, (some.inj hCreate).symm⟩
      simp at hAccepted
      omega

/-- Blocks that lie far apart. -/
def blockAt (i : ℕ) : ℕ := 2 ^ 40 + i * 2 ^ 20

theorem alignUp_bounds {k i : ℕ} (hk : k ≤ 16) (hi : i ≤ 16) :
    2 ^ 40 ≤ alignUp (blockAt i) (2 ^ k) ∧ alignUp (blockAt i) (2 ^ k) < 2 ^ 41 := by
  have hPow : 2 ^ k ≤ 2 ^ 16 := Nat.pow_le_pow_right (by decide) hk
  obtain ⟨hLow, hHigh⟩ := roundUp_bounds (v := blockAt i) (Nat.two_pow_pos k)
  unfold blockAt at *
  rw [alignUp_two_pow (by omega) (by omega)]
  omega

section

variable (hSize : size ≤ 65536) (hAlign : align < 2 ^ 32)
include hSize hAlign

theorem lastColourFits_iff : LastColourFits size align flags ↔
    ∃ S ∈ runSize? (stride size align flags),
      64 * (min 16 ((S - 56) % stride size align flags / 64) - 1) ≤
      stride size align flags - max size 8 := by
  rw [LastColourFits, stride_eq hSize hAlign, effectiveAlign_wanted]

theorem sound_of_lastColourFits (h : LastColourFits size align flags) :
    (Cache.fresh (geometry size align flags)).Sound := by
  obtain ⟨S, hS, hLast⟩ := (lastColourFits_iff hSize hAlign).mp h
  obtain ⟨hNeed, -⟩ := stride_bounds flags hSize hAlign
  have hFits := geometry_fits (by omega) hS
  have hMax := hFits.colourMax
  intro raws hBlocks x hx
  obtain ⟨hRaw, hBase, hColour⟩ :=
    Kmem.builds_mem (s := { cache := .fresh (geometry size align flags) })
    (g := geometry size align flags) rfl (by simp only [Cache.fresh]; omega) hx
  rw [hFits.slabSize] at hBase
  exact hFits.sound hS (by omega) (hBlocks _ hRaw) hBase (by omega) (by omega)

theorem exists_run_of_sound (hSound : (Cache.fresh (geometry size align flags)).Sound) :
    ∃ S, runSize? (stride size align flags) = some S := by
  rw [← isSome_iff_exists, isSome_iff_ne_none]
  intro hS
  obtain ⟨-, hSlab, -⟩ := geometry_tight hS
  obtain ⟨hLow, hHigh⟩ := alignUp_bounds (i := 0) le_rfl (by decide)
  have hBlock : ∀ raw ∈ [blockAt 0], (geometry size align flags).Block raw := by
    simp [Geometry.Block, hSlab, blockAt]
  have hBase := Kmem.base_slabGrow { cache := .fresh (geometry size align flags) } (blockAt 0)
  rw [show (Cache.fresh (geometry size align flags)).slabSize = 2 ^ 16 from hSlab] at hBase
  refine not_sound_of_tight hSize hAlign hS ?_ ?_ ?_ (hSound _ hBlock _ mem_cons_self)
  · exact hBase ▸ hLow
  · exact hBase ▸ lt_trans hHigh (by decide)
  · exact (Kmem.header_slabGrow { cache := .fresh (geometry size align flags) } (blockAt 0)).2

end

/-- Every slab of a cache is sound exactly when the last colour leaves the last object inside. -/
theorem cache_sound_iff (named mem : Bool) (size align flags : ℕ) (hAlign : align < 2 ^ 32)
    (c : Cache) (hCreate : kmemCacheCreate named mem size align flags = some c) :
    c.Sound ↔ LastColourFits size align flags := by
  obtain ⟨hSize, rfl⟩ := eq_fresh_of_create hCreate
  refine ⟨fun hSound => ?_, sound_of_lastColourFits hSize hAlign⟩
  obtain ⟨S, hS⟩ := exists_run_of_sound hSize hAlign hSound
  obtain ⟨hNeed, -⟩ := stride_bounds flags hSize hAlign
  have hFits := geometry_fits (by omega) hS
  obtain ⟨-, hMost, k, -, hk, hPow⟩ := runSize_eq hS
  have hMax := hFits.colourMax
  refine (lastColourFits_iff hSize hAlign).mpr ⟨S, hS, ?_⟩
  by_contra hOut
  -- the slab with the last colour shows the contrary, on as many blocks as there are colours
  obtain ⟨n, hn⟩ : ∃ n, n = (geometry size align flags).colourMax - 1 := ⟨_, rfl⟩
  obtain ⟨hLow, hHigh⟩ := alignUp_bounds (i := n) hk (by omega)
  obtain ⟨x, hx, hBase, hColour⟩ := Kmem.builds_colour
    (s := { cache := .fresh (geometry size align flags) })
    (g := geometry size align flags) rfl (by omega) (k := 0) rfl
    ((List.range n).map blockAt) (blockAt n) (by rw [length_map, length_range]; omega)
  rw [length_map, length_range] at hColour
  have hBlock : ∀ raw ∈ (List.range n).map blockAt ++ [blockAt n],
      (geometry size align flags).Block raw := by
    intro raw hRaw
    obtain ⟨i, hi, rfl⟩ : ∃ i ≤ n, blockAt i = raw := by
      rcases mem_append.mp hRaw with hRaw | hRaw
      · obtain ⟨i, hi, rfl⟩ := mem_map.mp hRaw
        exact ⟨i, (mem_range.mp hi).le, rfl⟩
      · exact ⟨n, le_rfl, (mem_singleton.mp hRaw).symm⟩
    unfold Geometry.Block blockAt
    rw [hFits.slabSize]
    omega
  refine hFits.not_sound (by omega) hS ?_ (by omega) (by omega) (hSound _ hBlock x hx)
  rw [hBase, hFits.slabSize, hPow]
  omega

/-- Objects of 1024 bytes: three in a page, and the second of the fifteen colours is too much. -/
theorem cache_unsound_1024 : ∃ c, kmemCacheCreate true true 1024 0 0 = some c ∧ ¬ c.Sound := by
  refine ⟨_, rfl, fun hSound => ?_⟩
  have hSlab := hSound [blockAt 0, blockAt 1] (by decide +kernel) _
    (mem_cons_of_mem _ mem_cons_self)
  have hLast := (hSlab.inside 2 (by decide +kernel)).2
  revert hLast
  decide +kernel

theorem cache_sound_96 : ∃ c, kmemCacheCreate true true 96 0 0 = some c ∧
    (c.Sound ↔ LastColourFits 96 0 0) ∧ LastColourFits 96 0 0 := by
  refine ⟨_, rfl, cache_sound_iff true true 96 0 0 (by decide) _ rfl, ?_⟩
  exact ⟨4096, by decide +kernel, by decide +kernel⟩

end Gnos.Slab
