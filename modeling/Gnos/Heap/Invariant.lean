import Gnos.Heap.FreeList
import Gnos.ProofKit.Tiling

/-! The invariant of the heap.  Blocks tile the region up to the sentinel, the tags of every block
agree with it, no two free blocks touch, and the free list holds the free blocks.  `Around` is what
is left of it while one block is being worked on. -/

namespace Gnos.Heap

open ProofKit List Tile

/-- A block of the region; its tag says whether it is free. -/
abbrev Block := Tile Bool

variable {t : Block} {x : ℕ}

structure Local (lo hi : ℕ) (h h' : Heap) : Prop where
  mem : ∀ a, a < lo ∨ hi ≤ a → h'.mem a = h.mem a
  gBase : h'.gBase = h.gBase
  gSize : h'.gSize = h.gSize
  gFreeHead : h'.gFreeHead = h.gFreeHead

namespace Local

variable {lo hi a v : ℕ} {h h' h'' : Heap}

theorem trans (hf : Local lo hi h h') (hf' : Local lo hi h' h'') : Local lo hi h h'' := by
  refine ⟨?_, hf'.gBase.trans hf.gBase, hf'.gSize.trans hf.gSize, hf'.gFreeHead.trans hf.gFreeHead⟩
  intro a ha
  rw [hf'.mem a ha, hf.mem a ha]

theorem mono {lo' hi' : ℕ} (hf : Local lo hi h h') (hLo : lo' ≤ lo) (hHi : hi ≤ hi') :
    Local lo' hi' h h' :=
  ⟨fun a _ => hf.mem a (by omega), hf.gBase, hf.gSize, hf.gFreeHead⟩

theorem put (hLo : lo ≤ a) (hHi : a + 8 ≤ hi) : Local lo hi h (h.put a v) :=
  ⟨fun _ _ => put_of_outside (by omega), rfl, rfl, rfl⟩

theorem setMagic (hLo : lo ≤ a) (hHi : a + 20 ≤ hi) : Local lo hi h (h.setMagic a) :=
  ⟨fun _ _ => Mem.write32_of_outside (by omega), rfl, rfl, rfl⟩

theorem freeList {fl : List ℕ} (hf : Local lo hi h h') (hl : FreeList h fl)
    (hOut : ∀ x ∈ fl, hi ≤ x + 24 ∨ x + hdrSize ≤ lo) : FreeList h' fl := by
  apply hl.congr hf.gFreeHead
  intro a x hx hLo hHi
  have := hOut x hx
  exact hf.mem a (by omega)

end Local

structure BlockAt (h : Heap) (b : Block) : Prop where
  size : h.sizeOf b.start = b.size
  free : h.freeOf b.start = b.tag.toNat
  magic : h.magicOf b.start = magic
  footer : (h.mem.read64 (b.stop - footSize)).toNat = b.size

/-- The bytes of a block that hold its tags: the header without the links, and the footer. -/
def tagByte (b : Block) (a : ℕ) : Prop :=
  b.start ≤ a ∧ a < b.start + 24 ∨ b.stop - footSize ≤ a ∧ a < b.stop

theorem BlockAt.congr {h h' : Heap} {b : Block} (hb : BlockAt h b) (hMin : minBlock ≤ b.size)
    (hMem : ∀ a, tagByte b a → h'.mem a = h.mem a) : BlockAt h' b := by
  unfold tagByte stop footSize at hMem
  unfold minBlock at hMin
  refine ⟨?_, ?_, ?_, ?_⟩
  · rw [sizeOf, Mem.read64_congr fun c _ _ => hMem c (by omega)]
    exact hb.size
  · rw [freeOf, Mem.read64_congr fun c _ _ => hMem c (by omega)]
    exact hb.free
  · rw [magicOf, Mem.read32_congr fun c _ _ => hMem c (by omega)]
    exact hb.magic
  · have hFooter := hb.footer
    unfold stop footSize at hFooter ⊢
    rw [Mem.read64_congr fun c _ _ => hMem c (by omega)]
    exact hFooter

def limit (h : Heap) : ℕ := h.gBase + h.gSize - (hdrSize + footSize)

/-- The region is addressable and has room for a block, and the size of the sentinel, which `kfree`
reads as a flag, is 0. -/
structure Region (h : Heap) : Prop where
  low : 0x10000 ≤ h.gBase
  high : h.gBase + h.gSize < 2 ^ 64
  room : hdrSize + footSize + minBlock ≤ h.gSize
  sentinel : h.sizeOf (h.gBase + h.gSize - hdrSize) = 0

theorem Region.congr {h h' : Heap} (hr : Region h) (hBase : h'.gBase = h.gBase)
    (hSize : h'.gSize = h.gSize) (hMem : ∀ a, h.limit ≤ a → h'.mem a = h.mem a) : Region h' := by
  refine ⟨by rw [hBase]; exact hr.low, by rw [hBase, hSize]; exact hr.high, by
    rw [hSize]; exact hr.room, ?_⟩
  have hSentinel := hr.sentinel
  unfold limit hdrSize footSize at hMem
  unfold hdrSize at hSentinel ⊢
  rw [hBase, hSize, sizeOf, Mem.read64_congr fun c _ _ => hMem c (by omega)]
  exact hSentinel

theorem limit_congr {h h' : Heap} (hBase : h'.gBase = h.gBase) (hSize : h'.gSize = h.gSize) :
    h'.limit = h.limit := by
  rw [limit, hBase, hSize, limit]

/-- No two free blocks are next to each other. -/
def Spaced (bs : List Block) : Prop :=
  bs.IsChain fun s t => ¬(s.tag ∧ t.tag)

theorem spaced_middle {a c : List Block} {b : Block} : Spaced (a ++ b :: c) ↔ Spaced a ∧ Spaced c ∧
      (∀ s ∈ a.getLast?, ¬(s.tag ∧ b.tag)) ∧ ∀ t ∈ c.head?, ¬(b.tag ∧ t.tag) := by
  unfold Spaced
  rw [isChain_append, isChain_cons]
  simp only [head?_cons, Option.mem_def, Option.some.injEq, forall_eq']
  tauto

/-- `x` starts a free block. -/
def Listed (bs : List Block) (x : ℕ) : Prop := ∃ t ∈ bs, t.tag ∧ t.start = x

theorem listed_middle {a c : List Block} {b : Block} :
    Listed (a ++ b :: c) x ↔ (b.tag ∧ b.start = x) ∨ Listed (a ++ c) x := by
  constructor
  · rintro ⟨t, ht, hTag⟩
    rcases mem_append.mp ht with ht | ht
    · exact .inr ⟨t, by simp [ht], hTag⟩
    · rcases mem_cons.mp ht with rfl | ht
      · exact .inl hTag
      · exact .inr ⟨t, by simp [ht], hTag⟩
  · rintro (hTag | ⟨t, ht, hTag⟩)
    · exact ⟨b, by simp, hTag⟩
    · refine ⟨t, ?_, hTag⟩
      rcases mem_append.mp ht with ht | ht <;> simp [ht]

theorem listed_used {a c : List Block} {b : Block} (hb : b.tag = false) :
    Listed (a ++ b :: c) x ↔ Listed (a ++ c) x := by
  rw [listed_middle, hb]
  simp

theorem listed_erase {k lo hi : ℕ} {a c : List Block} (ht : Tiles k lo (a ++ t :: c) hi)
    (hk : 0 < k) : Listed (a ++ t :: c) x ∧ x ≠ t.start ↔ Listed (a ++ c) x := by
  rw [listed_middle]
  constructor
  · rintro ⟨⟨-, rfl⟩ | hListed, hne⟩
    · exact absurd rfl hne
    · exact hListed
  · rintro ⟨u, hu, huTag, rfl⟩
    exact ⟨.inr ⟨u, hu, huTag, rfl⟩, ht.start_ne hk hu⟩

/-- The heap invariant, with the blocks in address order and the free list in its own. -/
structure Inv (h : Heap) (bs : List Block) (fl : List ℕ) : Prop where
  region : Region h
  tiles : Tiles minBlock h.gBase bs h.limit
  blocks : ∀ t ∈ bs, BlockAt h t
  list : FreeList h fl
  free : ∀ x, x ∈ fl ↔ Listed bs x
  spaced : Spaced bs

structure Around (h : Heap) (a : List Block) (b : Block) (c : List Block) : Prop where
  region : Region h
  tiles : Tiles minBlock h.gBase (a ++ b :: c) h.limit
  magic : h.magicOf b.start = Heap.magic
  rest : ∀ t ∈ a ++ c, BlockAt h t

theorem Inv.around {h : Heap} {a c : List Block} {b : Block} {fl : List ℕ}
    (hi : Inv h (a ++ b :: c) fl) : Around h a b c := by
  refine ⟨hi.region, hi.tiles, (hi.blocks b (by simp)).magic, ?_⟩
  intro t ht
  apply hi.blocks
  rcases mem_append.mp ht with ht | ht <;> simp [ht]

namespace Around

variable {h h' : Heap} {a c : List Block} {b : Block} {fl : List ℕ}

theorem of_local (ha : Around h a b c) (hf : Local b.start b.stop h h')
    (hMagic : h'.magicOf b.start = Heap.magic) : Around h' a b c := by
  obtain ⟨hBefore, hMin, hAfter⟩ := tiles_middle.mp ha.tiles
  refine ⟨?_, ?_, hMagic, ?_⟩
  · apply ha.region.congr hf.gBase hf.gSize
    intro x hx
    exact hf.mem x (.inr (hAfter.le.trans hx))
  · rw [hf.gBase, limit_congr hf.gBase hf.gSize]
    exact ha.tiles
  · intro t ht
    have hOut : ∀ x, tagByte t x → x < b.start ∨ b.stop ≤ x := by
      intro x hx
      unfold tagByte stop footSize at hx
      rcases mem_append.mp ht with ht | ht
      · have := hBefore.mem ht
        unfold stop minBlock at this
        exact .inl (by omega)
      · have := hAfter.mem ht
        unfold minBlock at this
        exact .inr (by omega)
    have hMin : minBlock ≤ t.size := by
      rcases mem_append.mp ht with ht | ht
      · exact (hBefore.mem ht).2.1
      · exact (hAfter.mem ht).2.1
    exact (ha.rest t ht).congr hMin fun x hx => hf.mem x (hOut x hx)

end Around

theorem tagByte_outside {k lo hi : ℕ} {bs : List Block} (ht : Tiles k lo bs hi) (hk : minBlock ≤ k)
    {u : Block} (hMem : t ∈ bs) (hMem' : u ∈ bs) (hx : tagByte t x) :
    x < u.start + 24 ∨ u.start + hdrSize ≤ x := by
  have huSize := (ht.mem hMem').2.1
  unfold minBlock at hk
  unfold tagByte stop footSize at hx
  unfold hdrSize
  by_cases hEq : t = u
  · subst hEq
    omega
  · have := ht.apart hMem hMem' hEq
    unfold stop at this
    omega

namespace Around

variable {h h' : Heap} {a c : List Block} {b : Block} {fl : List ℕ}

section

variable (ha : Around h a b c)
include ha

theorem of_linkFrame (hf : LinkFrame fl h h') (hfl : ∀ x ∈ fl, ∃ t ∈ a ++ b :: c, t.start = x) :
    Around h' a b c := by
  have hTags : ∀ t ∈ a ++ b :: c, ∀ x, tagByte t x → h'.mem x = h.mem x := by
    intro t ht x hx
    apply hf.mem
    intro y hy
    obtain ⟨u, hu, rfl⟩ := hfl y hy
    exact tagByte_outside ha.tiles (le_refl _) ht hu hx
  refine ⟨?_, ?_, ?_, ?_⟩
  · apply ha.region.congr hf.gBase hf.gSize
    intro x hx
    apply hf.mem
    intro y hy
    obtain ⟨u, hu, rfl⟩ := hfl y hy
    have := ha.tiles.mem hu
    unfold stop minBlock at this
    unfold hdrSize
    omega
  · rw [hf.gBase, limit_congr hf.gBase hf.gSize]
    exact ha.tiles
  · rw [magicOf, Mem.read32_congr fun x hLo hHi => hTags b (by simp) x (.inl (by omega))]
    exact ha.magic
  · intro t ht
    have hMem : t ∈ a ++ b :: c := by
      rcases mem_append.mp ht with ht | ht <;> simp [ht]
    exact (ha.rest t ht).congr (ha.tiles.mem hMem).2.1 (hTags t hMem)

theorem retag (g : Bool) : Around h a ⟨b.start, b.size, g⟩ c := by
  obtain ⟨hBefore, hMin, hAfter⟩ := tiles_middle.mp ha.tiles
  exact ⟨ha.region, tiles_middle.mpr ⟨hBefore, hMin, hAfter⟩, ha.magic, ha.rest⟩

theorem split {n : ℕ} (g : Bool) (hn : minBlock ≤ n) (hStart : t.start = b.start + n)
    (hStop : t.stop = b.stop) (ht : minBlock ≤ t.size) (hBlock : BlockAt h t) :
    Around h a ⟨b.start, n, g⟩ (t :: c) := by
  obtain ⟨hBefore, hMin, hAfter⟩ := tiles_middle.mp ha.tiles
  refine ⟨ha.region, ?_, ha.magic, ?_⟩
  · apply tiles_middle.mpr
    exact ⟨hBefore, hn, hStart, ht, hStop ▸ hAfter⟩
  · intro u hu
    rcases mem_append.mp hu with hu | hu
    · exact ha.rest u (by simp [hu])
    · rcases mem_cons.mp hu with rfl | hu
      · exact hBlock
      · exact ha.rest u (by simp [hu])

theorem inv (hb : BlockAt h b) (hl : FreeList h fl) (hFree : ∀ x, x ∈ fl ↔ Listed (a ++ b :: c) x)
    (hSpaced : Spaced (a ++ b :: c)) : Inv h (a ++ b :: c) fl := by
  refine ⟨ha.region, ha.tiles, ?_, hl, hFree, hSpaced⟩
  intro t ht
  rcases mem_append.mp ht with ht | ht
  · exact ha.rest t (by simp [ht])
  · rcases mem_cons.mp ht with rfl | ht
    · exact hb
    · exact ha.rest t (by simp [ht])

end

theorem tiles_join {lo hi : ℕ} (ht : Tiles minBlock lo (a ++ b :: t :: c) hi) (g : Bool) :
    Tiles minBlock lo (a ++ ⟨b.start, b.size + t.size, g⟩ :: c) hi := by
  obtain ⟨hBefore, hMin, hStart, -, hAfter⟩ := tiles_middle.mp ht
  refine tiles_middle.mpr ⟨hBefore, Nat.le_add_right_of_le hMin, ?_⟩
  have hStop : stop ⟨b.start, b.size + t.size, g⟩ = t.stop := by
    unfold stop at hStart ⊢
    dsimp only
    omega
  rw [hStop]
  exact hAfter

theorem join (ha : Around h a b (t :: c)) (g : Bool) :
    Around h a ⟨b.start, b.size + t.size, g⟩ c := by
  refine ⟨ha.region, tiles_join ha.tiles g, ha.magic, fun u hu => ha.rest u ?_⟩
  rcases mem_append.mp hu with hu | hu <;> simp [hu]

theorem joinBefore {s : Block} (ha : Around h (a ++ [s]) b c) (g : Bool) :
    Around h a ⟨s.start, s.size + b.size, g⟩ c := by
  have hTiles : Tiles minBlock h.gBase (a ++ s :: b :: c) h.limit := by simpa using ha.tiles
  refine ⟨ha.region, tiles_join hTiles g, (ha.rest s (by simp)).magic, fun u hu => ha.rest u ?_⟩
  rcases mem_append.mp hu with hu | hu <;> simp [hu]

end Around

end Gnos.Heap
