import Gnos.Heap.Alloc
import Gnos.Pmm.Alloc

/-! Whole runs of the heap after `kheap_init`.  A run keeps the live allocations beside the heap,
with the sizes asked for.  The owner of an allocation may store into its bytes at any time. -/

namespace Gnos.Heap

open ProofKit List Option Nat Tile

variable {h h' : Heap} {a c bs bs' : List Block} {b t : Block} {fl : List ℕ}

theorem links_format {s n : ℕ} (hMin : minBlock ≤ n) (hn : n < 2 ^ 64) :
    (h.format s n).nexts s = none ∧ (h.format s n).prevs s = none := by
  unfold minBlock at hMin
  have hFooter : s + 40 ≤ s + n - footSize := by
    unfold footSize
    omega
  rw [format_eq hn]
  constructor
  · rw [nexts, nextOf, word_put_of_disjoint (by omega), setNext, word_put (by decide), ptr_zero]
  · rw [prevs, prevOf, word_put_of_disjoint (by omega), setNext, word_put_of_disjoint (by omega),
      setPrev, word_put (by decide), ptr_zero]

theorem setSentinel_local (s : ℕ) : Local s (s + hdrSize) h (h.setSentinel s) := by
  have hPut : ∀ (h : Heap) (k v : ℕ), k + 8 ≤ 40 → Local s (s + hdrSize) h (h.put (s + k) v) := by
    intro h k v hk
    apply Local.put (le_add_right s k)
    unfold hdrSize
    omega
  exact (((hPut h 0 0 (by omega)).trans (hPut _ 8 0 (by omega))).trans
    (hPut _ 32 0 (by omega))).trans (hPut _ 24 0 (by omega))

theorem sizeOf_setSentinel (s : ℕ) : (h.setSentinel s).sizeOf s = 0 := by
  rw [setSentinel, setPrev, sizeOf_put (by omega), setNext, sizeOf_put (by omega), setFree,
    sizeOf_put (by omega), sizeOf, setSize, word_put (by decide)]

theorem freeList_single {x : ℕ} (hNext : h.nexts x = none) (hPrev : h.prevs x = none)
    (hHead : h.gFreeHead = x) (hPos : 0 < x) (hLt : x < 2 ^ 64) : FreeList h [x] := by
  refine ⟨dlinked_singleton hNext hPrev, ?_, nodup_singleton x, ?_, ?_⟩
  · rw [hHead]
    exact ptr_of_ne (ne_of_gt hPos)
  · intro y hy
    rw [mem_singleton.mp hy]
    exact ⟨hPos, hLt⟩
  · intro y hy z hz
    rw [mem_singleton.mp hy, mem_singleton.mp hz]
    exact .inl rfl

theorem sentinel_inv {x : ℕ} (hBase : h.gBase = x) (hLow : 0x10000 ≤ x)
    (hHigh : x + h.gSize < 2 ^ 64) (hRoom : hdrSize + footSize + minBlock ≤ h.gSize)
    (hBlock : BlockAt h ⟨x, h.gSize - hdrSize - footSize, true⟩)
    (hNext : h.nexts x = none) (hPrev : h.prevs x = none) :
    Inv { h.setSentinel (x + h.gSize - hdrSize) with gFreeHead := x }
      [⟨x, h.gSize - hdrSize - footSize, true⟩] [x] := by
  have hWritten := setSentinel_local (h := h) (x + h.gSize - hdrSize)
  have hLocal : Local (x + h.gSize - hdrSize) (x + h.gSize - hdrSize + hdrSize)
      { h with gFreeHead := x } { h.setSentinel (x + h.gSize - hdrSize) with gFreeHead := x } :=
    ⟨hWritten.mem, hWritten.gBase, hWritten.gSize, rfl⟩
  have hMin : minBlock ≤ h.gSize - hdrSize - footSize := by omega
  refine ⟨⟨?_, ?_, ?_, ?_⟩, ?_, ?_, ?_, ?_, List.IsChain.singleton _⟩
  · rw [hWritten.gBase, hBase]
    exact hLow
  · rw [hWritten.gBase, hWritten.gSize, hBase]
    exact hHigh
  · rw [hWritten.gSize]
    exact hRoom
  · rw [hWritten.gBase, hWritten.gSize, hBase]
    exact sizeOf_setSentinel (h := h) _
  · rw [limit, hWritten.gBase, hWritten.gSize, hBase]
    refine ⟨rfl, hMin, ?_⟩
    show x + (h.gSize - hdrSize - footSize) = x + h.gSize - (hdrSize + footSize)
    omega
  · intro t ht
    rw [mem_singleton.mp ht]
    apply hBlock.congr hMin
    intro y hy
    apply hLocal.mem
    unfold tagByte stop at hy
    unfold hdrSize footSize minBlock at *
    dsimp only at hy
    omega
  · apply hLocal.freeList (freeList_single hNext hPrev rfl (by omega) (by omega))
    intro y hy
    rw [mem_singleton.mp hy]
    unfold hdrSize footSize minBlock at *
    omega
  · intro y
    constructor
    · intro hy
      rw [mem_singleton.mp hy]
      exact ⟨_, mem_singleton.mpr rfl, rfl, rfl⟩
    · rintro ⟨t, ht, -, rfl⟩
      rw [mem_singleton.mp ht]
      exact mem_singleton.mpr rfl

theorem setup_inv (mem : Mem) {base size : ℕ} (hLow : 0x10000 ≤ base)
    (hHigh : base + size < 2 ^ 64) (hRoom : hdrSize + footSize + minBlock ≤ size) :
    Inv (setup mem base size) [⟨base, size - hdrSize - footSize, true⟩] [base] := by
  have hMin : minBlock ≤ size - hdrSize - footSize := by omega
  have hMax : size - hdrSize - footSize < 2 ^ 64 := by omega
  unfold setup
  dsimp only
  generalize hZero : ({ mem := mem.fill base size 0, gBase := base, gSize := size } : Heap) = h0
  have hFormat : Local base (base + (size - hdrSize - footSize)) h0
      (h0.format base (size - hdrSize - footSize)) := format_local hMin hMax
  have hBlock : BlockAt (h0.format base (size - hdrSize - footSize))
      ⟨base, size - hdrSize - footSize, true⟩ := blockAt_format hMin hMax
  have hLinks := links_format (h := h0) (s := base) hMin hMax
  generalize h0.format base (size - hdrSize - footSize) = h1 at *
  have hBase : h1.gBase = base := by rw [hFormat.gBase, ← hZero]
  have hSize : h1.gSize = size := by rw [hFormat.gSize, ← hZero]
  subst hSize
  exact sentinel_inv hBase hLow hHigh hRoom hBlock hLinks.1 hLinks.2

theorem chooseRegion_spec {hhdm : ℕ} (hLow : 0x10000 ≤ hhdm) {l : List ℕ}
    (hl : ∀ n ∈ l, 0 < n ∧ n ≤ 16) {m : Pmm} (hm : m.Inv)
    (hHigh : hhdm + m.gTotal * pageSize < 2 ^ 64) {base size : ℕ}
    (hEq : (chooseRegion hhdm l m).1 = some (base, size)) :
    0x10000 ≤ base ∧ base + size < 2 ^ 64 ∧ 2 ^ 20 ≤ size := by
  induction l generalizing m with
  | nil => cases hEq
  | cons n l ih =>
    obtain ⟨hPos, hMax⟩ := hl n (by simp)
    have hFrames : 0 < n * 1024 * 1024 / pageSize ∧ n * 1024 * 1024 / pageSize < 2 ^ 64 := by
      unfold pageSize
      omega
    rcases Pmm.allocContiguous_spec hm hFrames.1 hFrames.2 with ⟨f, hRun, -, hAlloc⟩ | ⟨hAlloc, -⟩
    · by_cases hZero : f * pageSize = 0
      · -- A run at address 0 counts as a failure, although its frames are taken.
        rw [chooseRegion, hAlloc] at hEq
        dsimp only at hEq
        rw [if_neg (not_not.mpr hZero)] at hEq
        exact ih (fun k hk => hl k (by simp [hk])) (hm.takeRun hFrames.1 hRun)
          (by rwa [Pmm.gTotal_takeRun hm hRun]) hEq
      · rw [chooseRegion, hAlloc] at hEq
        dsimp only at hEq
        rw [if_pos hZero] at hEq
        obtain ⟨rfl, rfl⟩ := Prod.mk.inj (some.inj hEq)
        have hLast := (hRun (n * 1024 * 1024 / pageSize - 1) (by omega)).1
        unfold pageSize at *
        omega
    · rw [chooseRegion, hAlloc] at hEq
      exact ih (fun k hk => hl k (by simp [hk])) hm hHigh hEq

theorem init_inv {hhdm : ℕ} (hLow : 0x10000 ≤ hhdm) {m : Pmm} (hm : m.Inv)
    (hHigh : hhdm + m.gTotal * pageSize < 2 ^ 64) {mem : Mem} (hEq : (init hhdm m mem).1 = some h) :
    ∃ bs fl, Inv h bs fl := by
  unfold init at hEq
  split at hEq
  · rename_i base size m' hChoose
    have hSome : (chooseRegion hhdm tries m).1 = some (base, size) := by rw [hChoose]
    obtain ⟨hBase, hEnd, hSize⟩ := chooseRegion_spec hLow (by decide) hm hHigh hSome
    rw [← some.inj hEq]
    exact ⟨_, _, setup_inv mem hBase hEnd (le_trans (by decide) hSize)⟩
  · cases hEq

/-- Every live allocation is a block in use whose payload has the size asked for, and no two of them
are the same block. -/
structure Owned (bs : List Block) (live : List (ℕ × ℕ)) : Prop where
  nodup : (live.map Prod.fst).Nodup
  block : ∀ p n, (p, n) ∈ live →
    ∃ t ∈ bs, t.tag = false ∧ p = t.start + hdrSize ∧ n + (hdrSize + footSize) ≤ t.size

def Good (h : Heap) (live : List (ℕ × ℕ)) : Prop := ∃ bs fl, Inv h bs fl ∧ Owned bs live

/-- The live allocations once a request for `n` bytes has returned `p`. -/
def grant (p n : ℕ) (live : List (ℕ × ℕ)) : List (ℕ × ℕ) := if p = 0 then live else (p, n) :: live

/-- The live allocations once `krealloc` of `p` to `size` bytes has returned `np`: `p` stays live
when there was no room. -/
def moved (p n np size : ℕ) (live : List (ℕ × ℕ)) : List (ℕ × ℕ) :=
  if np = 0 ∧ size ≠ 0 then live else (grant np size live).erase (p, n)

theorem Inv.of_payload (hi : Inv h bs fl) (ht : t ∈ bs) (hTag : t.tag = false)
    (hf : Local (t.start + hdrSize) (t.stop - footSize) h h') : Inv h' bs fl := by
  have htMem := hi.tiles.mem ht
  have hTags : ∀ u ∈ bs, ∀ x, tagByte u x → h'.mem x = h.mem x := by
    intro u hu x hx
    apply hf.mem
    unfold tagByte at hx
    by_cases hEq : t = u
    · subst hEq
      unfold hdrSize
      omega
    · have huSize := (hi.tiles.mem hu).2.1
      have := hi.tiles.apart ht hu hEq
      unfold minBlock at huSize
      unfold stop at *
      omega
  refine ⟨?_, ?_, ?_, ?_, hi.free, hi.spaced⟩
  · apply hi.region.congr hf.gBase hf.gSize
    intro x hx
    apply hf.mem
    omega
  · rw [hf.gBase, limit_congr hf.gBase hf.gSize]
    exact hi.tiles
  · intro u hu
    exact (hi.blocks u hu).congr (hi.tiles.mem hu).2.1 (hTags u hu)
  · apply hf.freeList hi.list
    intro x hx
    obtain ⟨u, hu, huTag, rfl⟩ := (hi.free x).mp hx
    have hne : t ≠ u := by
      rintro rfl
      rw [hTag] at huTag
      cases huTag
    have := hi.tiles.apart ht hu hne
    unfold stop at *
    omega

namespace Good

variable {live : List (ℕ × ℕ)} {p n size : ℕ}

section

variable (hg : Good h live)
include hg

theorem kmalloc (size : ℕ) : ∃ p h', h.kmalloc size = some (p, h') ∧
    Good h' (grant p size live) := by
  obtain ⟨bs, fl, hi, ho⟩ := hg
  rcases hi.kmalloc size with hNone | ⟨a, b, c, n, c', fl', h', rfl, hTag, hn, hUsed, hInv, hSome⟩
  · exact ⟨0, h, hNone, bs, fl, hi, ho⟩
  · refine ⟨b.start + hdrSize, h', hSome, _, fl', hInv, ?_⟩
    have hKeep : ∀ t, t.tag = false → t ∈ a ++ b :: c → t ∈ a ++ ⟨b.start, n, false⟩ :: c' := by
      intro t ht hMem
      rcases mem_append.mp hMem with hMem | hMem
      · simp [hMem]
      · rcases mem_cons.mp hMem with rfl | hMem
        · rw [hTag] at ht
          cases ht
        · simp [(hUsed t ht).mpr hMem]
    have hNew : b.start + hdrSize ∉ live.map Prod.fst := by
      intro hMem
      obtain ⟨⟨p, k⟩, hp, hEq⟩ := mem_map.mp hMem
      obtain ⟨t, ht, htTag, hStart, -⟩ := ho.block p k hp
      have hStarts : t.start = b.start := by
        omega
      rw [hi.tiles.eq_of_start (by decide) ht (by simp) hStarts, hTag] at htTag
      cases htTag
    refine ⟨nodup_cons.mpr ⟨hNew, ho.nodup⟩, ?_⟩
    intro p k hp
    rcases mem_cons.mp hp with hEq | hp
    · obtain ⟨rfl, rfl⟩ := Prod.mk.inj hEq
      exact ⟨⟨b.start, n, false⟩, by simp, rfl, rfl, hn⟩
    · obtain ⟨t, ht, htTag, hStart, hSize⟩ := ho.block p k hp
      exact ⟨t, hKeep t htTag ht, htTag, hStart, hSize⟩

section

variable (hp : (p, n) ∈ live)
include hp

theorem write (hf : Local p (p + n) h h') : Good h' live := by
  obtain ⟨bs, fl, hi, ho⟩ := hg
  obtain ⟨t, ht, hTag, rfl, hSize⟩ := ho.block p n hp
  refine ⟨bs, fl, hi.of_payload ht hTag (hf.mono (le_refl _) ?_), ho⟩
  unfold stop
  omega

theorem kfree : ∃ h', h.kfree p = some h' ∧ Good h' (live.erase (p, n)) := by
  obtain ⟨bs, fl, hi, ho⟩ := hg
  obtain ⟨b, hb, hTag, rfl, -⟩ := ho.block p n hp
  obtain ⟨a, c, rfl⟩ := mem_iff_append.mp hb
  obtain ⟨a', b', c', fl', h', hSome, hInv, -, hBefore, hAfter⟩ := hi.kfree hTag
  refine ⟨h', hSome, _, fl', hInv, ?_⟩
  have hSub := erase_sublist (a := (b.start + hdrSize, n)) (l := live)
  refine ⟨ho.nodup.sublist (hSub.map Prod.fst), ?_⟩
  intro q k hq
  obtain ⟨t, ht, htTag, hStart, hSize⟩ := ho.block q k (hSub.mem hq)
  refine ⟨t, ?_, htTag, hStart, hSize⟩
  -- The block of another allocation is not the one given back.
  have hne : t ≠ b := by
    rintro rfl
    rw [hStart] at hq
    have hNodup : live.Nodup := List.Nodup.of_map _ ho.nodup
    obtain ⟨hneq, hqLive⟩ := (hNodup.mem_erase_iff).mp hq
    exact hneq (Prod.ext rfl (by
      have := inj_on_of_nodup_map ho.nodup hqLive hp rfl
      exact congrArg Prod.snd this))
  rcases mem_append.mp ht with ht | ht
  · simp [(hBefore t htTag).mpr ht]
  · rcases mem_cons.mp ht with hEq | ht
    · exact absurd hEq hne
    · simp [(hAfter t htTag).mpr ht]

theorem pos : 0 < p := by
  obtain ⟨bs, fl, -, ho⟩ := hg
  obtain ⟨t, -, -, rfl, -⟩ := ho.block p n hp
  unfold hdrSize
  omega

theorem krealloc (size : ℕ) :
    ∃ np h', h.krealloc p size = some (np, h') ∧ Good h' (moved p n np size live) := by
  rw [Heap.krealloc, if_neg (ne_of_gt (hg.pos hp))]
  by_cases hSize : size = 0
  · obtain ⟨h', hSome, hGood⟩ := hg.kfree hp
    refine ⟨0, h', ?_, ?_⟩
    · rw [if_pos hSize, hSome, map_some]
    · rw [moved, if_neg (fun hAnd => hAnd.2 hSize)]
      exact hGood
  · obtain ⟨np, h1, hSome, hGood⟩ := hg.kmalloc size
    rw [if_neg hSize, hSome]
    by_cases hnp : np = 0
    · refine ⟨0, h1, if_pos hnp, ?_⟩
      rw [moved, if_pos ⟨rfl, hSize⟩]
      rwa [grant, if_pos hnp] at hGood
    · -- The copy stays inside the new allocation, and then the old one is given back.
      have hMem : (np, size) ∈ grant np size live := by simp [grant, hnp]
      let k := min (h.sizeOf (p - hdrSize) - hdrSize - footSize) size
      have hCopy : Good (h1.memcpy np p k) (grant np size live) := by
        apply hGood.write hMem
        refine ⟨fun x hx => Mem.copy_of_outside ?_, rfl, rfl, rfl⟩
        omega
      have hOld : (p, n) ∈ grant np size live := by simp [grant, hnp, hp]
      obtain ⟨h', hFreed, hFinal⟩ := hCopy.kfree hOld
      refine ⟨np, h', ?_, ?_⟩
      · dsimp only
        rw [if_neg hnp, hFreed, map_some]
      · rw [moved, if_neg (fun hAnd => hnp hAnd.1)]
        exact hFinal

end

theorem kzalloc (size : ℕ) : ∃ p h', h.kzalloc size = some (p, h') ∧
    Good h' (grant p size live) := by
  obtain ⟨p, h', hSome, hGood⟩ := hg.kmalloc size
  rw [Heap.kzalloc, hSome]
  by_cases hp : p = 0
  · refine ⟨p, h', ?_, hGood⟩
    dsimp only [map_some]
    rw [if_neg (not_not.mpr hp)]
  · refine ⟨p, h'.memset p 0 size, ?_, ?_⟩
    · dsimp only [map_some]
      rw [if_pos hp]
    · apply hGood.write (p := p) (n := size)
      · simp [grant, hp]
      · exact ⟨fun _ hx => Mem.fill_of_outside hx, rfl, rfl, rfl⟩

end

end Good

/-- The states that a run reaches from `h₀`, with the live allocations. -/
inductive Reach (h₀ : Heap) : Heap → List (ℕ × ℕ) → Prop
  | start : Reach h₀ h₀ []
  | kmalloc {h h' live p} (size : ℕ) : Reach h₀ h live → h.kmalloc size = some (p, h') →
      Reach h₀ h' (grant p size live)
  | kzalloc {h h' live p} (size : ℕ) : Reach h₀ h live → h.kzalloc size = some (p, h') →
      Reach h₀ h' (grant p size live)
  | kfree {h h' live} (p n : ℕ) : Reach h₀ h live → (p, n) ∈ live → h.kfree p = some h' →
      Reach h₀ h' (live.erase (p, n))
  | krealloc {h h' live np} (p n size : ℕ) : Reach h₀ h live → (p, n) ∈ live →
      h.krealloc p size = some (np, h') → Reach h₀ h' (moved p n np size live)
  | kreallocNull {h h' live np} (size : ℕ) : Reach h₀ h live →
      h.krealloc 0 size = some (np, h') → Reach h₀ h' (grant np size live)
  | store {h live} (p n i : ℕ) (bytes : List (BitVec 8)) : Reach h₀ h live → (p, n) ∈ live →
      i + bytes.length ≤ n → Reach h₀ { h with mem := h.mem.store (p + i) bytes } live

/-- The result of a call is the one that is good. -/
theorem Good.of_some {r : Option (ℕ × Heap)} {live : ℕ → List (ℕ × ℕ)} {p : ℕ}
    (hEq : r = some (p, h))
    (hCall : ∃ p h', r = some (p, h') ∧ Good h' (live p)) : Good h (live p) := by
  obtain ⟨p, h', hSome, hGood⟩ := hCall
  obtain ⟨rfl, rfl⟩ := Prod.mk.inj (some.inj (hEq.symm.trans hSome))
  exact hGood

theorem Reach.good {h0 : Heap} {live : List (ℕ × ℕ)} (hStart : Good h0 [])
    (hr : Reach h0 h live) : Good h live := by
  induction hr with
  | start => exact hStart
  | kmalloc size _ hEq ih => exact .of_some hEq (ih.kmalloc size)
  | kzalloc size _ hEq ih => exact .of_some hEq (ih.kzalloc size)
  | kfree p n _ hp hEq ih =>
    obtain ⟨h', hSome, hGood⟩ := ih.kfree hp
    obtain rfl := some.inj (hEq.symm.trans hSome)
    exact hGood
  | krealloc p n size _ hp hEq ih => exact .of_some hEq (ih.krealloc hp size)
  | kreallocNull size _ hEq ih => exact .of_some hEq (ih.kmalloc size)
  | store p n i bytes _ hp hLen ih =>
    apply ih.write hp
    exact ⟨fun x hx => Mem.store_of_outside (by omega), rfl, rfl, rfl⟩

def freeList (h : Heap) : List ℕ := walk h.nexts (h.gSize + 1) (ptr h.gFreeHead)

theorem Inv.freeList_eq (hi : Inv h bs fl) : h.freeList = fl := by
  rw [freeList, hi.list.head]
  exact hi.list.links.linked.walk_eq (le_of_lt hi.length_lt)

/-- What a sound heap is: `bs` are its blocks in address order, `live` the allocations in use. -/
structure Sound (h : Heap) (bs : List Block) (live : List (ℕ × ℕ)) : Prop where
  /-- The blocks cover the region exactly, up to the 8 unused bytes before the sentinel. -/
  tiles : Tiles minBlock h.gBase bs (h.gBase + h.gSize - hdrSize - footSize)
  /-- Header and footer agree. -/
  tags : ∀ t ∈ bs, h.sizeOf t.start = t.size ∧
    (h.mem.read64 (t.stop - footSize)).toNat = t.size ∧ h.freeOf t.start = t.tag.toNat
  /-- The free list holds every free block once and nothing else. -/
  once : h.freeList.Nodup
  listed : ∀ x, x ∈ h.freeList ↔ ∃ t ∈ bs, t.tag ∧ t.start = x
  spaced : bs.IsChain fun s t => ¬(s.tag ∧ t.tag)
  /-- A live allocation is the payload of a block in use and has the size asked for. -/
  owned : ∀ p n, (p, n) ∈ live → ∃ t ∈ bs, t.tag = false ∧ p = t.start + hdrSize ∧
    p + n ≤ t.stop - footSize
  /-- No two live allocations overlap. -/
  distinct : (live.map Prod.fst).Nodup
  payloads : ∀ p n q k, (p, n) ∈ live → (q, k) ∈ live → p ≠ q → p + n ≤ q ∨ q + k ≤ p
  headers : ∀ p n, (p, n) ∈ live → ∀ t ∈ bs, p + n ≤ t.start ∨ t.start + hdrSize ≤ p
  footers : ∀ p n, (p, n) ∈ live → ∀ t ∈ bs, p + n ≤ t.stop - footSize ∨ t.stop ≤ p
  sentinel : ∀ p n, (p, n) ∈ live → p + n ≤ h.gBase + h.gSize - hdrSize

theorem Good.sound {live : List (ℕ × ℕ)} (hg : Good h live) : ∃ bs, Sound h bs live := by
  obtain ⟨bs, fl, hi, ho⟩ := hg
  have hOwned : ∀ p n, (p, n) ∈ live → ∃ t ∈ bs, t.tag = false ∧ p = t.start + hdrSize ∧
      p + n ≤ t.stop - footSize := by
    intro p n hp
    obtain ⟨t, ht, hTag, rfl, hSize⟩ := ho.block p n hp
    refine ⟨t, ht, hTag, rfl, ?_⟩
    unfold stop
    omega
  have hTiles : Tiles minBlock h.gBase bs (h.gBase + h.gSize - hdrSize - footSize) := by
    have := hi.tiles
    rwa [limit, sub_add_eq] at this
  refine ⟨bs, hTiles, ?_, ?_, ?_, hi.spaced, hOwned, ho.nodup, ?_, ?_, ?_, ?_⟩
  · intro t ht
    exact ⟨(hi.blocks t ht).size, (hi.blocks t ht).footer, (hi.blocks t ht).free⟩
  · rw [hi.freeList_eq]
    exact hi.list.nodup
  · rw [hi.freeList_eq]
    exact hi.free
  · intro p n q k hp hq hne
    obtain ⟨t, ht, -, rfl, hEnd⟩ := hOwned p n hp
    obtain ⟨u, hu, -, rfl, huEnd⟩ := hOwned q k hq
    have htu : t ≠ u := by
      rintro rfl
      exact hne rfl
    have := hi.tiles.apart ht hu htu
    omega
  · intro p n hp u hu
    obtain ⟨t, ht, -, rfl, hEnd⟩ := hOwned p n hp
    by_cases hEq : t = u
    · subst hEq
      exact .inr (le_refl _)
    · have := hi.tiles.apart ht hu hEq
      unfold stop minBlock hdrSize at *
      omega
  · intro p n hp u hu
    obtain ⟨t, ht, -, rfl, hEnd⟩ := hOwned p n hp
    by_cases hEq : t = u
    · subst hEq
      exact .inl hEnd
    · have := hi.tiles.apart ht hu hEq
      unfold stop minBlock footSize at *
      omega
  · intro p n hp
    obtain ⟨t, ht, -, rfl, hEnd⟩ := hOwned p n hp
    have := (hTiles.mem ht).2.2
    omega

/-- After `kheap_init` the heap is sound in every state that a run reaches, and no operation panics.
`hhdm`, the start of the direct map, comes from the bootloader: the map leaves low addresses alone
and has room for every frame. -/
theorem heap_sound (m : Pmm) (hm : m.Inv) (hhdm : ℕ) (hLow : 0x10000 ≤ hhdm)
    (hHigh : hhdm + m.gTotal * pageSize < 2 ^ 64) (mem : Mem) (h₀ : Heap)
    (boot : (init hhdm m mem).1 = some h₀) (h : Heap) (live : List (ℕ × ℕ))
    (hRun : Reach h₀ h live) :
    (∃ bs, Sound h bs live) ∧ ∀ size, (h.kmalloc size).isSome ∧ (h.kzalloc size).isSome ∧
        ∀ p n, (p, n) ∈ live → (h.kfree p).isSome ∧ (h.krealloc p size).isSome := by
  have hStart : Good h₀ [] := by
    obtain ⟨bs, fl, hi⟩ := init_inv hLow hm hHigh boot
    exact ⟨bs, fl, hi, ⟨nodup_nil, by simp⟩⟩
  have hGood := hRun.good hStart
  refine ⟨hGood.sound, ?_⟩
  intro size
  obtain ⟨_, _, hMalloc, -⟩ := hGood.kmalloc size
  obtain ⟨_, _, hZalloc, -⟩ := hGood.kzalloc size
  refine ⟨by rw [hMalloc]; rfl, by rw [hZalloc]; rfl, ?_⟩
  intro p n hp
  obtain ⟨_, hFree, -⟩ := hGood.kfree hp
  obtain ⟨_, _, hRealloc, -⟩ := hGood.krealloc hp size
  exact ⟨by rw [hFree]; rfl, by rw [hRealloc]; rfl⟩

def pmm1m : Pmm where
  gBitmap := fun i => if i = 0 then 1 else 0
  gBitmapBytes := 33
  gTotal := 264
  gFree := 263
  gNextHint := 0

theorem pmm1m_inv : pmm1m.Inv where
  count := by decide +kernel
  bytes := rfl
  total := by decide
  tail := by
    intro f hf hf'
    exact absurd hf' (not_lt.mpr hf)
  hint := by decide

/-- Two blocks are taken, the first one is given back, and the second one grows. -/
def fourCalls (h₀ : Heap) : Option ((ℕ × ℕ × ℕ) × Heap) :=
  (h₀.kmalloc 100).bind fun (p, h) => (h.kzalloc 200).bind fun (q, h) =>
    (h.kfree p).bind fun h => (h.krealloc q 5000).map fun (r, h) => ((p, q, r), h)

theorem heap_sound_fourCalls : ∃ h₀ h r, (init 0xFFFF800000000000 pmm1m fun _ => 0).1 = some h₀ ∧
    (fourCalls h₀).map Prod.snd = some h ∧ r ≠ 0 ∧ ∃ bs, Sound h bs [(r, 5000)] := by
  have hAddresses : ((init 0xFFFF800000000000 pmm1m fun _ => 0).1.bind fun h =>
      (fourCalls h).map Prod.fst) =
        some (0xFFFF800000001028, 0xFFFF8000000010C8, 0xFFFF8000000011C8) := by
    decide +kernel
  obtain ⟨h₀, boot, hRun⟩ := bind_eq_some_iff.mp hAddresses
  obtain ⟨⟨_, h⟩, hRun, hEq⟩ := map_eq_some_iff.mp hRun
  obtain ⟨⟨p, h1⟩, hMalloc, hRun'⟩ := bind_eq_some_iff.mp hRun
  obtain ⟨⟨q, h2⟩, hZalloc, hRun'⟩ := bind_eq_some_iff.mp hRun'
  obtain ⟨h3, hFree, hRun'⟩ := bind_eq_some_iff.mp hRun'
  obtain ⟨⟨r, h4⟩, hRealloc, hLast⟩ := map_eq_some_iff.mp hRun'
  obtain ⟨rfl, rfl⟩ := Prod.mk.inj hLast
  obtain ⟨rfl, rfl, rfl⟩ := hEq
  have hReach := Reach.krealloc _ 200 5000 (.kfree _ 100 (.kzalloc 200 (.kmalloc 100 .start hMalloc)
    hZalloc) (by decide +kernel) hFree) (by decide +kernel) hRealloc
  have hSound := heap_sound pmm1m pmm1m_inv 0xFFFF800000000000 (by decide) (by decide) (fun _ => 0)
    h₀ boot _ _ hReach
  refine ⟨h₀, h4, _, boot, by rw [hRun]; rfl, by decide, hSound.1⟩

end Gnos.Heap
