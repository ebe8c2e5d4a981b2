import Gnos.Heap.Ops

/-! `kmalloc` and `kfree` keep the invariant and do not panic: the blocks on the free list pass the
test for corruption, and so does a block in use that `kfree` is given. -/

namespace Gnos.Heap

open ProofKit List Tile Nat

variable {h h' : Heap} {bs a c : List Block} {b t : Block} {fl : List ℕ} {n need s : ℕ}

/-- Two lists of blocks have the same blocks in use. -/
def SameUsed (bs bs' : List Block) : Prop := ∀ u, u.tag = false → (u ∈ bs' ↔ u ∈ bs)

theorem SameUsed.symm (h : SameUsed a bs) : SameUsed bs a := fun u hu => (h u hu).symm

theorem SameUsed.of_perm (ht : t.tag) (hPerm : bs.Perm (t :: a)) : SameUsed a bs := by
  intro u hu
  rw [hPerm.mem_iff, mem_cons, or_iff_right]
  rintro rfl
  rw [ht] at hu
  cases hu

theorem word_setMagic {x y : ℕ} (hxy : x + 8 ≤ y + 16 ∨ y + 20 ≤ x) :
    (h.setMagic y).mem.read64 x = h.mem.read64 x :=
  Mem.read64_congr fun _ _ _ => Mem.write32_of_outside (by omega)

theorem format_eq (hn : n < 2 ^ 64) :
    h.format s n = (((((h.setSize s n).setFree s 1).setMagic s).setPrev s 0).setNext s 0).put
      (s + n - footSize) n := by
  have hSize :
      (((((h.setSize s n).setFree s 1).setMagic s).setPrev s 0).setNext s 0).sizeOf s = n := by
    rw [setNext, sizeOf_put (by omega), setPrev, sizeOf_put (by omega), sizeOf,
      word_setMagic (by omega), setFree, word_put_of_disjoint (by omega), setSize, word_put hn]
  exact setFooter_eq (b := ⟨s, n, true⟩) hSize

theorem format_local (hMin : minBlock ≤ n) (hn : n < 2 ^ 64) :
    Local s (s + n) h (h.format s n) := by
  unfold minBlock at hMin
  have hPut : ∀ (h : Heap) (k v : ℕ), k + 8 ≤ n → Local s (s + n) h (h.put (s + k) v) :=
    fun h k v hk => Local.put (le_add_right s k) (by omega)
  rw [format_eq hn]
  have hMagic : Local s (s + n) h (((h.setSize s n).setFree s 1).setMagic s) :=
    ((hPut h 0 n (by omega)).trans (hPut _ 8 1 (by omega))).trans
      (Local.setMagic (le_refl s) (by omega))
  have hLinks := (hMagic.trans (hPut _ 24 0 (by omega))).trans (hPut _ 32 0 (by omega))
  apply hLinks.trans
  unfold footSize
  exact Local.put (by omega) (by omega)

theorem blockAt_format (hMin : minBlock ≤ n) (hn : n < 2 ^ 64) :
    BlockAt (h.format s n) ⟨s, n, true⟩ := by
  unfold minBlock at hMin
  have hFooter : s + 40 ≤ s + n - footSize := by
    unfold footSize
    omega
  have hMagic : ∀ h : Heap, (h.setMagic s).magicOf s = magic := fun h => Mem.read32_write32 _ _ _
  rw [format_eq hn]
  refine ⟨?_, ?_, ?_, word_put hn⟩
  · show sizeOf _ s = n
    rw [sizeOf_put (by omega), setNext, sizeOf_put (by omega), setPrev, sizeOf_put (by omega),
      sizeOf, word_setMagic (by omega), setFree, word_put_of_disjoint (by omega), setSize,
      word_put hn]
  · show freeOf _ s = 1
    rw [freeOf, word_put_of_disjoint (by omega), setNext, word_put_of_disjoint (by omega), setPrev,
      word_put_of_disjoint (by omega), word_setMagic (by omega), setFree, word_put (by decide)]
  · show magicOf _ s = magic
    rw [magicOf_put (by omega), setNext, magicOf_put (by omega), setPrev, magicOf_put (by omega),
      hMagic]

theorem BlockAt.setFree (hb : BlockAt h b) (hMin : minBlock ≤ b.size) :
    BlockAt (h.setFree b.start b.tag.toNat) b := by
  unfold minBlock at hMin
  refine ⟨?_, word_put (by cases b.tag <;> decide), ?_, ?_⟩
  · rw [Heap.setFree, sizeOf_put (by omega), hb.size]
  · rw [Heap.setFree, magicOf_put (by omega), hb.magic]
  · rw [Heap.setFree, word_put_of_disjoint (by unfold stop footSize; omega), hb.footer]

namespace Open

section

variable (ho : Open h a b c fl) (hb : b.tag) (hc : ∀ u ∈ c.head?, u.tag = false)
include ho hb hc

theorem carveOff (hMin : minBlock ≤ need) (hRest : minBlock ≤ b.size - need)
    (ht : t = ⟨b.start + need, b.size - need, true⟩) :
    Open (((h.format t.start t.size).freeLink t.start).setSize b.start need) a
      ⟨b.start, need, true⟩ (t :: c) (t.start :: fl) := by
  have hFits := ho.fits (t := b) (by simp)
  have hStart : t.start = b.start + need := by rw [ht]
  have hSize : t.size = b.size - need := by rw [ht]
  have hTag : t = ⟨t.start, t.size, true⟩ := by rw [ht]
  rw [← hSize] at hRest
  have hStop : t.stop = b.stop := by
    unfold stop
    unfold minBlock at hRest
    omega
  have hEnd : need < b.size ∧ b.start + b.size < 2 ^ 64 := by
    unfold stop at hFits
    unfold minBlock at hRest
    omega
  have hMax : t.size < 2 ^ 64 := by omega
  have hLinks : ∀ x ∈ fl, b.stop ≤ x ∨ x + hdrSize ≤ t.start := by
    intro x hx
    obtain ⟨u, hu, -, rfl⟩ := (ho.free x).mp hx
    have huSize := (ho.around.tiles.mem hu).2.1
    unfold minBlock at hMin huSize
    unfold hdrSize
    by_cases hEq : b = u
    · subst hEq
      omega
    · have := ho.around.tiles.apart (by simp) hu hEq
      unfold stop at this ⊢
      omega
  have hFormat : Local t.start b.stop h (h.format t.start t.size) := hStop ▸ format_local hRest hMax
  have hBlock : BlockAt ((h.format t.start t.size).setFree t.start 1) t := by
    rw [hTag]
    exact (blockAt_format hRest hMax).setFree hRest
  generalize h.format t.start t.size = h1 at hFormat hBlock ⊢
  have hSetFlag : Local t.start b.stop h1 (h1.setFree t.start 1) := by
    apply Local.put (le_add_right _ 8)
    unfold stop
    unfold minBlock at hRest
    omega
  have hList : FreeList h1 fl := by
    apply hFormat.freeList ho.list
    intro x hx
    have := hLinks x hx
    omega
  -- Cut the block before the links change, then follow the links and the new size.
  have hCut : Around (h1.setFree t.start 1) a ⟨b.start, need, true⟩ (t :: c) := by
    apply Around.split _ true hMin hStart hStop hRest hBlock
    have hLocal : Local b.start b.stop h (h1.setFree t.start 1) :=
      (hFormat.trans hSetFlag).mono (by omega) (le_refl _)
    apply ho.around.of_local hLocal
    rw [magicOf, Mem.read32_congr fun x _ _ => (hFormat.trans hSetFlag).mem x (by
      unfold minBlock at hMin
      omega)]
    exact ho.around.magic
  have hNew : t.start ∉ fl := by
    intro hx
    have := hLinks _ hx
    unfold stop at hStop this
    unfold hdrSize at this
    omega
  have hLinked : FreeList (h1.freeLink t.start) (t.start :: fl) := by
    apply hList.link hNew
    · omega
    · intro y hy
      have := hLinks y hy
      unfold stop at hStop this
      unfold minBlock at hRest
      unfold Apart hdrSize at *
      omega
  have hStarts : ∀ x ∈ t.start :: fl, ∃ u ∈ a ++ ⟨b.start, need, true⟩ :: t :: c, u.start = x := by
    intro x hx
    rcases mem_cons.mp hx with rfl | hx
    · exact ⟨t, by simp, rfl⟩
    · obtain ⟨u, hu, huStart⟩ := ho.starts x hx
      rcases mem_append.mp hu with hu | hu
      · exact ⟨u, by simp [hu], huStart⟩
      · rcases mem_cons.mp hu with rfl | hu
        · exact ⟨⟨u.start, need, true⟩, by simp, huStart⟩
        · exact ⟨u, by simp [hu], huStart⟩
  have hAround := hCut.of_linkFrame hList.link_frame hStarts
  refine hAround.resize hLinked (fun x => ?_) ho.before ?_
  · have hMove : Listed (a ++ ⟨b.start, need, true⟩ :: t :: c) x ↔
        (t.start = x) ∨ Listed (a ++ b :: c) x := by
      have hSwap : Listed (a ++ t :: c) x ↔ t.start = x ∨ Listed (a ++ c) x := by
        rw [listed_middle, hTag]
        simp
      rw [listed_middle, listed_middle (b := b), hb, hSwap]
      tauto
    rw [hMove, mem_cons, ho.free, eq_comm]
  · apply (spaced_middle (a := [])).mpr
    refine ⟨IsChain.nil, ho.after, by simp, ?_⟩
    intro u hu
    simp [hc u hu]

theorem carve (hMin : minBlock ≤ need) (hNeed : need ≤ b.size) :
    ∃ n c' fl', need ≤ n ∧ Open (h.carve b.start need) a ⟨b.start, n, true⟩ c' fl' ∧
    SameUsed c c' := by
  unfold Heap.carve
  rw [ho.size]
  split_ifs with hRest
  · have hOpen := ho.carveOff (t := ⟨b.start + need, b.size - need, true⟩) hb hc hMin hRest rfl
    exact ⟨need, ⟨b.start + need, b.size - need, true⟩ :: c, (b.start + need) :: fl,
      le_refl _, hOpen, .of_perm rfl (.refl _)⟩
  · refine ⟨b.size, c, fl, hNeed, ?_, fun _ _ => Iff.rfl⟩
    rw [← hb]
    exact ho

end

end Open

theorem Inv.take (hi : Inv h (a ++ b :: c) fl) (hb : b.tag) (hMin : minBlock ≤ need)
    (hNeed : need ≤ b.size) :
    ∃ n c' fl', need ≤ n ∧ Inv (h.take b.start need) (a ++ ⟨b.start, n, false⟩ :: c') fl' ∧
      SameUsed c c' := by
  have hAfter : ∀ u ∈ c.head?, u.tag = false := by
    intro u hu
    have := (spaced_middle.mp hi.spaced).2.2.2 u hu
    simpa [hb] using this
  obtain ⟨n, c', fl', hn, hOpen, hUsed⟩ := hi.opened.carve hb hAfter hMin hNeed
  obtain ⟨fl'', hUnlinked⟩ := hOpen.unlink rfl
  exact ⟨n, c', fl'', hn, hUnlinked.closeUsed rfl, hUsed⟩

namespace Open

theorem mergeAfter (ho : Open h a b c fl) (hb : b.tag = false) :
    ∃ n c' fl', Open (h.mergeAfter b.start) a ⟨b.start, n, false⟩ c' fl' ∧ SameUsed c c' ∧
      ∀ u ∈ c'.head?, u.tag = false := by
  have hFits := ho.fits (t := b) (by simp)
  have hKeep : Open h a ⟨b.start, b.size, false⟩ c fl := by
    rw [← hb]
    exact ho
  have hRange : ¬(h.gBase + h.gSize ≤ b.stop ∨ h.gBase + h.gSize < b.stop + hdrSize) := by
    unfold hdrSize footSize at *
    omega
  have hEq : h.mergeAfter b.start =
      if h.freeOf b.stop ≠ 0 then (h.freeUnlink b.stop).setSize b.start
        ((h.freeUnlink b.stop).sizeOf b.start + (h.freeUnlink b.stop).sizeOf b.stop)
      else h := by
    rw [Heap.mergeAfter, blockAfter, ho.size]
    exact if_neg hRange
  rw [hEq]
  cases c with
  | nil =>
    -- The block is the last one: the flag read is the size of the sentinel.
    have hStop : b.stop = h.limit := (tiles_middle.mp ho.around.tiles).2.2
    have hZero : h.freeOf b.stop = 0 := by
      have hSentinel := ho.around.region.sentinel
      have hAddr : h.limit + 8 = h.gBase + h.gSize - hdrSize := by
        unfold limit hdrSize footSize at *
        omega
      rw [hStop, freeOf, hAddr]
      exact hSentinel
    rw [if_neg (not_not.mpr hZero)]
    exact ⟨b.size, [], fl, hKeep, fun _ _ => Iff.rfl, by simp⟩
  | cons t c =>
    have hStart : t.start = b.stop := (tiles_middle.mp ho.around.tiles).2.2.1
    have hBlock := ho.around.rest t (by simp)
    rw [← hStart, hBlock.free]
    cases hTag : t.tag with
    | false =>
      refine ⟨b.size, t :: c, fl, hKeep, fun _ _ => Iff.rfl, ?_⟩
      intro u hu
      obtain rfl : t = u := by simpa using hu
      exact hTag
    | true =>
      obtain ⟨fl', hOpen⟩ := ho.absorbAfter hb hTag
      obtain ⟨-, -, hSize, -, -⟩ := ho.unlinked (t := t) (by simp) hTag
      rw [if_pos (by decide), hSize b (by simp), hSize t (by simp), ho.size, hBlock.size]
      refine ⟨b.size + t.size, c, fl', hOpen, (SameUsed.of_perm hTag (.refl _)).symm, ?_⟩
      · intro u hu
        have := (spaced_middle.mp (show Spaced ([] ++ t :: c) from ho.after)).2.2.2 u hu
        simpa [hTag] using this

theorem mergeBefore (ho : Open h a b c fl) (hb : b.tag = false) :
    ∃ a' b' fl', (h.mergeBefore b.start).1 = b'.start ∧ b'.tag = false ∧
      Open (h.mergeBefore b.start).2 a' b' c fl' ∧ SameUsed a a' ∧
      ∀ u ∈ a'.getLast?, u.tag = false := by
  rcases eq_nil_or_concat a with rfl | ⟨a, s, rfl⟩
  · have hStart : h.gBase = b.start := (tiles_middle.mp ho.around.tiles).1
    have hEq : h.mergeBefore b.start = (b.start, h) := by
      rw [mergeBefore, if_neg (by omega)]
    rw [hEq]
    exact ⟨[], b, fl, rfl, hb, ho, fun _ _ => Iff.rfl, by simp⟩
  · rw [concat_eq_append] at ho ⊢
    have hTiles : Tiles minBlock h.gBase (a ++ s :: b :: c) h.limit := by
      simpa using ho.around.tiles
    have hStart : b.start = s.stop := (tiles_middle.mp hTiles).2.2.1
    have hBase := hTiles.mem (t := s) (by simp)
    have hBlock := ho.around.rest s (by simp)
    have hBefore : b.start - s.size = s.start := by
      rw [hStart]
      unfold stop
      omega
    have hEq : h.mergeBefore b.start =
        if h.freeOf s.start ≠ 0 then (s.start, (h.freeUnlink s.start).setSize s.start
          ((h.freeUnlink s.start).sizeOf s.start + (h.freeUnlink s.start).sizeOf b.start))
        else (b.start, h) := by
      have hGt : h.gBase < b.start := by
        rw [hStart]
        unfold stop
        unfold minBlock at hBase
        omega
      have hFooter : (h.mem.read64 (b.start - footSize)).toNat = s.size := by
        rw [hStart]
        exact hBlock.footer
      rw [mergeBefore, if_pos hGt, hFooter]
      dsimp only
      rw [hBefore]
      by_cases hFree : h.freeOf s.start ≠ 0
      · rw [if_pos ⟨hBase.1, hFree⟩, if_pos hFree]
      · rw [if_neg (fun hAnd => hFree hAnd.2), if_neg hFree]
    rw [hEq, hBlock.free]
    cases hTag : s.tag with
    | false =>
      refine ⟨a ++ [s], b, fl, rfl, hb, ho, fun _ _ => Iff.rfl, ?_⟩
      intro u hu
      obtain rfl : s = u := by simpa using hu
      exact hTag
    | true =>
      obtain ⟨fl', hOpen⟩ := ho.absorbBefore hb hTag
      obtain ⟨-, -, hSize, -, -⟩ := ho.unlinked (t := s) (by simp) hTag
      rw [if_pos (by decide), hSize b (by simp), hSize s (by simp), ho.size, hBlock.size]
      refine ⟨a, ⟨s.start, s.size + b.size, false⟩, fl', rfl, rfl, hOpen, ?_, ?_⟩
      · exact (SameUsed.of_perm hTag (perm_append_singleton s a)).symm
      · intro u hu
        have := (spaced_middle.mp ho.before).2.2.1 u hu
        simpa [hTag] using this

end Open

theorem Inv.release (hi : Inv h (a ++ b :: c) fl) (hb : b.tag = false) :
    ∃ a' b' c' fl', Inv (h.release b.start) (a' ++ b' :: c') fl' ∧ b'.tag ∧
      SameUsed a a' ∧ SameUsed c c' := by
  obtain ⟨n, c', fl1, hAfter, hUsedAfter, hHead⟩ := hi.opened.mergeAfter hb
  obtain ⟨a', b', fl2, hStart, hTag, hBefore, hUsedBefore, hLast⟩ := hAfter.mergeBefore rfl
  refine ⟨a', ⟨b'.start, b'.size, true⟩, c', b'.start :: fl2, ?_, rfl, hUsedBefore, hUsedAfter⟩
  show Inv ((((h.mergeAfter b.start).mergeBefore b.start).2.setFooter
    ((h.mergeAfter b.start).mergeBefore b.start).1).freeLink
      ((h.mergeAfter b.start).mergeBefore b.start).1) _ _
  rw [hStart]
  exact hBefore.closeFree hTag hLast hHead

theorem minBlock_le_needOf (size : ℕ) : minBlock ≤ needOf size := le_max_right _ _

theorem le_needOf (size : ℕ) : size + (hdrSize + footSize) ≤ needOf size := by
  have hUp : ∀ v, v ≤ alignUp v alignment := by
    unfold alignUp alignment
    omega
  have hSize : size ≤ if size = 0 then 1 else size := by
    split <;> omega
  have hLe := le_trans (hUp _) (le_max_left
    (alignUp ((if size = 0 then 1 else size) + hdrSize + footSize) alignment) minBlock)
  unfold needOf
  omega

section

variable (hi : Inv h bs fl)
include hi

theorem Inv.not_corrupt (ht : t ∈ bs) : h.corrupt t.start = false := by
  have hBlock := hi.blocks t ht
  have hMem := hi.tiles.mem ht
  have hStop : t.start + t.size ≤ h.gBase + h.gSize := by
    unfold stop limit at hMem
    omega
  simp [corrupt, hBlock.magic, hBlock.size, hMem.2.1, hStop]

/-- The search meets no corrupt block: it finds a block of the list that is large enough, or none
is. -/
theorem Inv.search (need : ℕ) {l : List ℕ} {fuel x : ℕ} (hl : Linked h.nexts l)
    (hSub : ∀ y ∈ l, y ∈ fl) (hHead : ptr x = l.head?) (hFuel : l.length < fuel) :
    (∃ y ∈ l, need ≤ h.sizeOf y ∧ h.search need fuel x = some (some y)) ∨
      (∀ y ∈ l, h.sizeOf y < need) ∧ h.search need fuel x = some none := by
  induction l generalizing fuel x with
  | nil =>
    cases fuel with
    | zero => simp at hFuel
    | succ fuel =>
      have hZero : x = 0 := by
        by_contra hne
        rw [ptr_of_ne hne] at hHead
        cases hHead
      exact .inr ⟨by simp, if_pos hZero⟩
  | cons y l ih =>
    cases fuel with
    | zero => simp at hFuel
    | succ fuel =>
      obtain ⟨rfl, hne⟩ := ptr_eq_some hHead
      obtain ⟨t, ht, -, hStart⟩ := (hi.free x).mp (hSub x (by simp))
      have hOk : ¬h.corrupt x := by
        rw [← hStart, hi.not_corrupt ht]
        decide
      have hStep : h.search need (fuel + 1) x =
          if h.sizeOf x < need then h.search need fuel (h.nextOf x) else some (some x) := by
        rw [Heap.search, if_neg hne, if_neg hOk]
      rw [hStep]
      by_cases hSmall : h.sizeOf x < need
      · rw [if_pos hSmall]
        have hRest := ih hl.tail (fun z hz => hSub z (mem_cons_of_mem x hz)) hl.head
          (lt_of_succ_lt_succ hFuel)
        rcases hRest with ⟨z, hz, hLarge, hFound⟩ | ⟨hAll, hNone⟩
        · exact .inl ⟨z, mem_cons_of_mem x hz, hLarge, hFound⟩
        · refine .inr ⟨?_, hNone⟩
          intro z hz
          rcases mem_cons.mp hz with rfl | hz
          · exact hSmall
          · exact hAll z hz
      · rw [if_neg hSmall]
        exact .inl ⟨x, by simp, Nat.le_of_not_lt hSmall, rfl⟩

theorem Inv.length_lt : fl.length < h.gSize + 1 := by
  have hSub : fl ⊆ bs.map start := by
    intro x hx
    obtain ⟨t, ht, -, rfl⟩ := (hi.free x).mp hx
    exact mem_map_of_mem ht
  have hLe : fl.length ≤ bs.length := by
    simpa using (subperm_of_subset hi.list.nodup hSub).length_le
  have hTiles := hi.tiles.length_mul_le
  have hMul : bs.length ≤ bs.length * minBlock := Nat.le_mul_of_pos_right _ (by decide)
  unfold limit at hTiles
  omega

/-- `kmalloc` either finds no block, and changes nothing, or takes one in use that was not. -/
theorem Inv.kmalloc (size : ℕ) : h.kmalloc size = some (0, h) ∨
      ∃ a b c n c' fl' h', bs = a ++ b :: c ∧ b.tag ∧
        size + (hdrSize + footSize) ≤ n ∧ SameUsed c c' ∧
        Inv h' (a ++ ⟨b.start, n, false⟩ :: c') fl' ∧
        h.kmalloc size = some (b.start + hdrSize, h') := by
  have hBase : h.gBase ≠ 0 := by
    have := hi.region.low
    omega
  rw [Heap.kmalloc, if_neg hBase]
  rcases hi.search (needOf size) hi.list.links.linked (fun _ hy => hy) hi.list.head
    hi.length_lt with ⟨y, hy, hLarge, hFound⟩ | ⟨-, hNone⟩
  · obtain ⟨b, hb, hTag, rfl⟩ := (hi.free y).mp hy
    obtain ⟨a, c, rfl⟩ := mem_iff_append.mp hb
    rw [(hi.blocks b hb).size] at hLarge
    obtain ⟨n, c', fl', hn, hInv, hUsed⟩ := hi.take hTag (minBlock_le_needOf size) hLarge
    right
    refine ⟨a, b, c, n, c', fl', _, rfl, hTag, (le_needOf size).trans hn, hUsed, hInv, ?_⟩
    rw [hFound]
  · left
    rw [hNone]

end

theorem Inv.kfree (hi : Inv h (a ++ b :: c) fl) (hb : b.tag = false) :
    ∃ a' b' c' fl' h', h.kfree (b.start + hdrSize) = some h' ∧
      Inv h' (a' ++ b' :: c') fl' ∧ b'.tag ∧ SameUsed a a' ∧ SameUsed c c' := by
  obtain ⟨a', b', c', fl', hInv, hTag, hBefore, hAfter⟩ := hi.release hb
  have hLow := hi.region.low
  have hStart := (hi.tiles.mem (t := b) (by simp)).1
  have hFree : h.freeOf b.start = 0 := by
    rw [(hi.blocks b (by simp)).free, hb]
    rfl
  refine ⟨a', b', c', fl', h.release b.start, ?_, hInv, hTag, hBefore, hAfter⟩
  rw [Heap.kfree, if_neg (by unfold hdrSize; omega), if_neg (by unfold hdrSize; omega)]
  simp [hi.not_corrupt (t := b) (by simp), hFree]

end Gnos.Heap
