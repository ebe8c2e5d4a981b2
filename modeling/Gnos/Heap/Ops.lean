import Gnos.Heap.Invariant

/-! What `kmalloc` and `kfree` do to the blocks.  Both open one block, change its extent and its
place on the free list step by step, and close it again; `Open` is the invariant in between. -/

namespace Gnos.Heap

open ProofKit List Tile Nat

variable {h h' : Heap} {a c : List Block} {b t : Block} {fl : List ℕ} {x y v : ℕ}

def sealed (h : Heap) (b : Block) : Heap :=
  (h.put (b.start + 8) b.tag.toNat).put (b.stop - footSize) b.size

theorem put_comm {x y v w : ℕ} (hxy : x + 8 ≤ y ∨ y + 8 ≤ x) :
    (h.put x v).put y w = (h.put y w).put x v := by
  unfold put Mem.write64
  congr 1
  funext z
  dsimp only
  split
  · rw [if_neg (by omega)]
  · rfl

theorem setFooter_eq (hSize : h.sizeOf b.start = b.size) :
    h.setFooter b.start = h.put (b.stop - footSize) b.size := by
  rw [setFooter, footerOf, hSize, stop]

theorem sealed_local (hMin : minBlock ≤ b.size) : Local b.start b.stop h (h.sealed b) := by
  unfold minBlock at hMin
  have hFooter : b.stop - footSize + 8 = b.stop := by
    unfold stop footSize
    omega
  have hFlag : Local b.start b.stop h (h.put (b.start + 8) b.tag.toNat) := by
    apply Local.put (by omega)
    unfold stop
    omega
  apply hFlag.trans
  apply Local.put _ (le_of_eq hFooter)
  unfold stop footSize
  omega

theorem magicOf_put (hxy : x + 20 ≤ y ∨ y + 8 ≤ x + 16) : (h.put y v).magicOf x = h.magicOf x :=
  Mem.read32_congr fun _ _ _ => put_of_outside (by omega)

theorem sizeOf_put (hxy : x + 8 ≤ y ∨ y + 8 ≤ x) : (h.put y v).sizeOf x = h.sizeOf x := by
  rw [sizeOf, word_put_of_disjoint hxy, sizeOf]

theorem blockAt_sealed (hMin : minBlock ≤ b.size) (hMax : b.size < 2 ^ 64)
    (hSize : h.sizeOf b.start = b.size) (hMagic : h.magicOf b.start = magic) :
    BlockAt (h.sealed b) b := by
  unfold minBlock at hMin
  have hStop : b.start + 40 ≤ b.stop - footSize := by
    unfold stop footSize
    omega
  refine ⟨?_, ?_, ?_, word_put hMax⟩
  · rw [sealed, sizeOf_put (by omega), sizeOf_put (by omega), hSize]
  · rw [sealed, freeOf, word_put_of_disjoint (by omega), word_put]
    cases b.tag <;> decide
  · rw [sealed, magicOf_put (by omega), magicOf_put (by omega), hMagic]

/-- The invariant while `b` is worked on: its header has its size, but its flag and its footer are
open.  The tag of `b` says whether it is on the free list. -/
structure Open (h : Heap) (a : List Block) (b : Block) (c : List Block) (fl : List ℕ) : Prop where
  around : Around h a b c
  size : h.sizeOf b.start = b.size
  list : FreeList h fl
  free : ∀ x, x ∈ fl ↔ Listed (a ++ b :: c) x
  before : Spaced a
  after : Spaced c

theorem Inv.opened (hi : Inv h (a ++ b :: c) fl) : Open h a b c fl := by
  obtain ⟨hBefore, hAfter, -, -⟩ := spaced_middle.mp hi.spaced
  exact ⟨hi.around, (hi.blocks b (by simp)).size, hi.list, hi.free, hBefore, hAfter⟩

/-- The header of the open block gets its size. -/
theorem Around.resize (hAround : Around h a b c) (hList : FreeList h fl)
    (hFree : ∀ x, x ∈ fl ↔ Listed (a ++ b :: c) x) (hBefore : Spaced a) (hAfter : Spaced c) :
    Open (h.setSize b.start b.size) a b c fl := by
  have hLocal : Local b.start (b.start + 8) h (h.setSize b.start b.size) :=
    Local.put (le_refl _) (le_refl _)
  have hMem := hAround.tiles.mem (t := b) (by simp)
  have hHigh := hAround.region.high
  unfold limit stop at hMem
  unfold minBlock hdrSize footSize at *
  refine ⟨hAround.of_local (hLocal.mono (le_refl _) ?_) ?_, word_put (by omega), ?_, hFree, hBefore,
    hAfter⟩
  · unfold stop
    omega
  · exact (magicOf_put (.inr (by omega))).trans hAround.magic
  · apply hLocal.freeList hList
    intro x hx
    obtain ⟨u, hu, -, rfl⟩ := (hFree x).mp hx
    by_cases hEq : b = u
    · subst hEq
      omega
    · have hApart := hAround.tiles.apart (by simp) hu hEq
      have huSize := (hAround.tiles.mem hu).2.1
      unfold stop minBlock at *
      unfold hdrSize
      omega

namespace Open

theorem starts (ho : Open h a b c fl) : ∀ x ∈ fl, ∃ t ∈ a ++ b :: c, t.start = x := by
  intro x hx
  obtain ⟨t, ht, -, hStart⟩ := (ho.free x).mp hx
  exact ⟨t, ht, hStart⟩

section

variable (ho : Open h a b c fl) (ht : t ∈ a ++ b :: c)
include ho ht

theorem fits : 0x10000 ≤ t.start ∧ t.stop + (hdrSize + footSize) ≤ h.gBase + h.gSize ∧
    t.stop < 2 ^ 64 := by
  have hMem := ho.around.tiles.mem ht
  have hLow := ho.around.region.low
  have hHigh := ho.around.region.high
  unfold limit at hMem
  unfold hdrSize footSize minBlock at *
  omega

theorem size_lt : t.size < 2 ^ 64 := by
  have := (ho.fits ht).2.2
  unfold stop at this
  omega

theorem links_outside (hTag : t.tag = false) :
    ∀ x ∈ fl, t.stop ≤ x + 24 ∨ x + hdrSize ≤ t.start := by
  intro x hx
  obtain ⟨u, hu, huTag, rfl⟩ := (ho.free x).mp hx
  have hne : t ≠ u := by
    rintro rfl
    rw [hTag] at huTag
    cases huTag
  have hSize := (ho.around.tiles.mem hu).2.1
  have := ho.around.tiles.apart ht hu hne
  unfold stop at *
  unfold minBlock at hSize
  unfold hdrSize
  omega

theorem unlinked (hTag : t.tag) : ∃ fl', Around (h.freeUnlink t.start) a b c ∧
      (∀ u ∈ a ++ b :: c, (h.freeUnlink t.start).sizeOf u.start = h.sizeOf u.start) ∧
      FreeList (h.freeUnlink t.start) fl' ∧ ∀ x, x ∈ fl' ↔ x ∈ fl ∧ x ≠ t.start := by
  have hMem : t.start ∈ fl := (ho.free t.start).mpr ⟨t, ht, hTag, rfl⟩
  have hFrame := ho.list.unlink_frame hMem
  obtain ⟨l, r, rfl⟩ := mem_iff_append.mp hMem
  refine ⟨l ++ r, ho.around.of_linkFrame hFrame ho.starts, ?_, ho.list.unlink, ?_⟩
  · intro u hu
    rw [sizeOf, Mem.read64_congr, sizeOf]
    intro x hLo hHi
    apply hFrame.mem
    intro y hy
    obtain ⟨v, hv, rfl⟩ := ho.starts y hy
    exact tagByte_outside ho.around.tiles (le_refl _) hu hv (.inl (by omega))
  · intro x
    have hNodup := nodup_cons.mp (nodup_middle.mp ho.list.nodup)
    constructor
    · intro hx
      refine ⟨?_, fun hEq => hNodup.1 (hEq ▸ hx)⟩
      rcases mem_append.mp hx with hx | hx <;> simp [hx]
    · rintro ⟨hx, hne⟩
      rcases mem_append.mp hx with hx | hx
      · simp [hx]
      · rcases mem_cons.mp hx with hx | hx
        · exact absurd hx hne
        · simp [hx]

end

theorem unlink (ho : Open h a b c fl) (hTag : b.tag) :
    ∃ fl', Open (h.freeUnlink b.start) a ⟨b.start, b.size, false⟩ c fl' := by
  obtain ⟨fl', hAround, hSize, hList, hfl⟩ := ho.unlinked (t := b) (by simp) hTag
  refine ⟨fl', hAround.retag false, (hSize b (by simp)).trans ho.size, hList, ?_, ho.before,
    ho.after⟩
  intro x
  rw [hfl, ho.free, listed_erase ho.around.tiles (by decide), listed_used rfl]

theorem absorbAfter (ho : Open h a b (t :: c) fl) (hb : b.tag = false) (ht : t.tag) :
    ∃ fl', Open ((h.freeUnlink t.start).setSize b.start (b.size + t.size)) a
      ⟨b.start, b.size + t.size, false⟩ c fl' := by
  obtain ⟨fl', hAround, -, hList, hfl⟩ := ho.unlinked (t := t) (by simp) ht
  refine ⟨fl', (hAround.join false).resize hList (fun x => ?_) ho.before
    (spaced_middle.mp (show Spaced ([] ++ t :: c) from ho.after)).2.1⟩
  have hTiles : Tiles minBlock h.gBase ((a ++ [b]) ++ t :: c) h.limit := by
    simpa using ho.around.tiles
  have hErase := listed_erase (x := x) hTiles (by decide)
  rw [append_assoc, append_assoc] at hErase
  rw [hfl, ho.free]
  exact hErase.trans ((listed_used hb).trans (listed_used rfl).symm)

theorem absorbBefore {s : Block} (ho : Open h (a ++ [s]) b c fl) (hb : b.tag = false) (hs : s.tag) :
    ∃ fl', Open ((h.freeUnlink s.start).setSize s.start (s.size + b.size)) a
      ⟨s.start, s.size + b.size, false⟩ c fl' := by
  have hTiles : Tiles minBlock h.gBase (a ++ s :: b :: c) h.limit := by
    simpa using ho.around.tiles
  obtain ⟨fl', hAround, -, hList, hfl⟩ := ho.unlinked (t := s) (by simp) hs
  refine ⟨fl', (hAround.joinBefore false).resize hList (fun x => ?_) (spaced_middle.mp ho.before).1
    ho.after⟩
  rw [hfl, ho.free, append_assoc]
  exact (listed_erase hTiles (by decide)).trans ((listed_used hb).trans (listed_used rfl).symm)

section

variable (ho : Open h a b c fl) (hb : b.tag = false)
include ho hb

theorem tagged (g : Bool) : Around (h.sealed ⟨b.start, b.size, g⟩) a ⟨b.start, b.size, g⟩ c ∧
      BlockAt (h.sealed ⟨b.start, b.size, g⟩) ⟨b.start, b.size, g⟩ ∧
      FreeList (h.sealed ⟨b.start, b.size, g⟩) fl := by
  have hMin := (ho.around.tiles.mem (t := b) (by simp)).2.1
  have hMax := ho.size_lt (t := b) (by simp)
  have hOut := ho.links_outside (t := b) (by simp) hb
  have hBlock := blockAt_sealed (b := ⟨b.start, b.size, g⟩) hMin hMax ho.size ho.around.magic
  have hLocal := sealed_local (h := h) (b := ⟨b.start, b.size, g⟩) hMin
  exact ⟨(ho.around.retag g).of_local hLocal hBlock.magic, hBlock, hLocal.freeList ho.list hOut⟩

theorem closeUsed : Inv ((h.setFree b.start 0).setFooter b.start) (a ++ b :: c) fl := by
  have hSize : (h.setFree b.start 0).sizeOf b.start = b.size := by
    rw [setFree, sizeOf_put (.inl (le_refl _)), ho.size]
  have hEq : (h.setFree b.start 0).setFooter b.start = h.sealed ⟨b.start, b.size, false⟩ := by
    rw [setFooter_eq hSize]
    rfl
  have hTag : b = ⟨b.start, b.size, false⟩ := by
    rw [← hb]
  obtain ⟨hAround, hBlock, hList⟩ := ho.tagged hb false
  rw [hEq, hTag]
  apply hAround.inv hBlock hList
  · rw [← hTag]
    exact ho.free
  · apply spaced_middle.mpr
    refine ⟨ho.before, ho.after, ?_, ?_⟩ <;> simp

theorem closeFree (hBefore : ∀ s ∈ a.getLast?, s.tag = false)
    (hAfter : ∀ t ∈ c.head?, t.tag = false) :
    Inv ((h.setFooter b.start).freeLink b.start) (a ++ ⟨b.start, b.size, true⟩ :: c)
    (b.start :: fl) := by
  have hMin := (ho.around.tiles.mem (t := b) (by simp)).2.1
  have hFits := ho.fits (t := b) (by simp)
  obtain ⟨hAround, hBlock, hList⟩ := ho.tagged hb true
  have hStop : b.start + 16 ≤ b.stop - footSize := by
    unfold stop footSize
    unfold minBlock at hMin
    omega
  have hFooter : Local (b.stop - footSize) b.stop h (h.setFooter b.start) := by
    rw [setFooter_eq ho.size]
    apply Local.put (le_refl _)
    unfold footSize at hStop ⊢
    omega
  -- The list before the block joins it, and the memory once its tags are written.
  have hListFooter : FreeList (h.setFooter b.start) fl := by
    apply hFooter.freeList ho.list
    intro x hx
    have := ho.links_outside (t := b) (by simp) hb x hx
    omega
  have hFlag : (h.setFooter b.start).setFree b.start 1 = h.sealed ⟨b.start, b.size, true⟩ := by
    rw [setFooter_eq ho.size]
    exact put_comm (.inr (by omega))
  have hFrame := hListFooter.link_frame (x := b.start)
  rw [hFlag] at hFrame
  have hNew : b.start ∉ fl := by
    intro hx
    obtain ⟨u, hu, huTag, huStart⟩ := (ho.free b.start).mp hx
    rw [ho.around.tiles.eq_of_start (by decide) hu (by simp) huStart, hb] at huTag
    cases huTag
  have hLinked : FreeList ((h.setFooter b.start).freeLink b.start) (b.start :: fl) := by
    apply hListFooter.link hNew
    · omega
    · intro y hy
      obtain ⟨u, hu, -, rfl⟩ := (ho.free y).mp hy
      have hne : b ≠ u := by
        rintro rfl
        exact hNew hy
      have huSize := (ho.around.tiles.mem hu).2.1
      have hApart := ho.around.tiles.apart (by simp) hu hne
      unfold stop at hApart
      unfold minBlock at huSize hMin
      unfold Apart hdrSize
      omega
  have hStarts : ∀ x ∈ b.start :: fl, ∃ t ∈ a ++ ⟨b.start, b.size, true⟩ :: c, t.start = x := by
    intro x hx
    rcases mem_cons.mp hx with rfl | hx
    · exact ⟨⟨b.start, b.size, true⟩, by simp, rfl⟩
    · have hListed := (ho.free x).mp hx
      rw [listed_used hb] at hListed
      obtain ⟨u, hu, -, rfl⟩ := hListed
      refine ⟨u, ?_, rfl⟩
      rcases mem_append.mp hu with hu | hu <;> simp [hu]
  have hTags : ∀ x, tagByte ⟨b.start, b.size, true⟩ x →
      ((h.setFooter b.start).freeLink b.start).mem x =
        (h.sealed ⟨b.start, b.size, true⟩).mem x := by
    intro x hx
    apply hFrame.mem
    intro y hy
    obtain ⟨u, hu, rfl⟩ := hStarts y hy
    exact tagByte_outside hAround.tiles (le_refl _) (by simp) hu hx
  apply (hAround.of_linkFrame hFrame hStarts).inv (hBlock.congr hMin hTags) hLinked
  · intro x
    rw [mem_cons, ho.free, listed_used hb, listed_middle]
    simp [eq_comm]
  · apply spaced_middle.mpr
    refine ⟨ho.before, ho.after, ?_, ?_⟩
    · intro s hs
      simp [hBefore s hs]
    · intro t ht
      simp [hAfter t ht]

end

end Open

end Gnos.Heap
