import Gnos.Heap.Model
import Gnos.ProofKit.Linked

/-! The free list as a linked list: `free_unlink` takes a block out of it, `free_link` puts one at
its front, and both write only the links of blocks that are on it, the new block's flag apart. -/

namespace Gnos.Heap

open ProofKit Function List

section Words

variable {h : Heap} {a b v : ℕ}

theorem put_of_outside (hb : b < a ∨ a + 8 ≤ b) : (h.put a v).mem b = h.mem b :=
  Mem.write64_of_outside hb

theorem word_put (hv : v < 2 ^ 64) : ((h.put a v).mem.read64 a).toNat = v := by
  rw [put, Mem.read64_write64, BitVec.toNat_ofNat, Nat.mod_eq_of_lt hv]

theorem word_put_of_disjoint (hb : b + 8 ≤ a ∨ a + 8 ≤ b) :
    (h.put a v).mem.read64 b = h.mem.read64 b :=
  Mem.read64_write64_of_disjoint hb

end Words

/-- A pointer that may be `NULL`. -/
def ptr (v : ℕ) : Option ℕ := if v = 0 then none else some v

theorem ptr_zero : ptr 0 = none := rfl

theorem ptr_of_ne {v : ℕ} (h : v ≠ 0) : ptr v = some v := if_neg h

theorem ptr_eq_some {v x : ℕ} (h : ptr v = some x) : v = x ∧ v ≠ 0 := by
  unfold ptr at h
  split at h
  · cases h
  · rename_i hv
    exact ⟨Option.some.inj h, hv⟩

def nexts (h : Heap) (x : ℕ) : Option ℕ := ptr (h.nextOf x)

def prevs (h : Heap) (x : ℕ) : Option ℕ := ptr (h.prevOf x)

/-- Two headers are the same or do not overlap. -/
def Apart (x y : ℕ) : Prop := x = y ∨ x + hdrSize ≤ y ∨ y + hdrSize ≤ x

theorem Apart.symm {x y : ℕ} (h : Apart x y) : Apart y x := by
  unfold Apart at *
  omega

section SetLinks

variable {h : Heap} {x y v : ℕ}

theorem nexts_setNext (hv : v < 2 ^ 64) (hxy : Apart x y) :
    (h.setNext x v).nexts y = update h.nexts x (ptr v) y := by
  unfold Apart hdrSize at hxy
  rcases eq_or_ne y x with rfl | hne
  · rw [update_self, nexts, nextOf, setNext, word_put hv]
  · rw [update_of_ne hne, nexts, nextOf, setNext, word_put_of_disjoint (by omega)]
    rfl

theorem prevs_setNext (hxy : Apart x y) : (h.setNext x v).prevs y = h.prevs y := by
  unfold Apart hdrSize at hxy
  rw [prevs, prevOf, setNext, word_put_of_disjoint (by omega)]
  rfl

theorem prevs_setPrev (hv : v < 2 ^ 64) (hxy : Apart x y) :
    (h.setPrev x v).prevs y = update h.prevs x (ptr v) y := by
  unfold Apart hdrSize at hxy
  rcases eq_or_ne y x with rfl | hne
  · rw [update_self, prevs, prevOf, setPrev, word_put hv]
  · rw [update_of_ne hne, prevs, prevOf, setPrev, word_put_of_disjoint (by omega)]
    rfl

theorem nexts_setPrev (hxy : Apart x y) : (h.setPrev x v).nexts y = h.nexts y := by
  unfold Apart hdrSize at hxy
  rw [nexts, nextOf, setPrev, word_put_of_disjoint (by omega)]
  rfl

theorem nexts_setFree (hxy : Apart x y) : (h.setFree x v).nexts y = h.nexts y := by
  unfold Apart hdrSize at hxy
  rw [nexts, nextOf, setFree, word_put_of_disjoint (by omega)]
  rfl

theorem prevs_setFree (hxy : Apart x y) : (h.setFree x v).prevs y = h.prevs y := by
  unfold Apart hdrSize at hxy
  rw [prevs, prevOf, setFree, word_put_of_disjoint (by omega)]
  rfl

theorem nexts_bridgeNext (hxy : ∀ p, h.prevs x = some p → Apart p y) :
    (h.bridgeNext x).nexts y = updateAt h.nexts (h.prevs x) (h.nexts x) y := by
  unfold bridgeNext
  split_ifs with hp
  · rw [nexts_setNext (v := h.nextOf x) (h.mem.read64 _).isLt (hxy _ (ptr_of_ne hp)), prevs,
      ptr_of_ne hp]
    rfl
  · rw [prevs, not_not.mp hp, ptr_zero, updateAt_none]
    rfl

theorem prevs_bridgeNext (hxy : ∀ p, h.prevs x = some p → Apart p y) :
    (h.bridgeNext x).prevs y = h.prevs y := by
  unfold bridgeNext
  split_ifs with hp
  · exact prevs_setNext (hxy _ (ptr_of_ne hp))
  · rfl

theorem prevs_setPrev_if {w : ℕ} (hw : w < 2 ^ 64) (hxy : ∀ n, ptr v = some n → Apart n y) :
    (if v ≠ 0 then h.setPrev v w else h).prevs y = updateAt h.prevs (ptr v) (ptr w) y := by
  split_ifs with hv
  · rw [prevs_setPrev hw (hxy _ (ptr_of_ne hv)), ptr_of_ne hv]
    rfl
  · rw [not_not.mp hv, ptr_zero, updateAt_none]

theorem nexts_setPrev_if {w : ℕ} (hxy : ∀ n, ptr v = some n → Apart n y) :
    (if v ≠ 0 then h.setPrev v w else h).nexts y = h.nexts y := by
  split_ifs with hv
  · exact nexts_setPrev (hxy _ (ptr_of_ne hv))
  · rfl

theorem prevs_bridgePrev (hxy : ∀ n, h.nexts x = some n → Apart n y) :
    (h.bridgePrev x).prevs y = updateAt h.prevs (h.nexts x) (h.prevs x) y :=
  prevs_setPrev_if (h.mem.read64 _).isLt hxy

theorem nexts_bridgePrev (hxy : ∀ n, h.nexts x = some n → Apart n y) :
    (h.bridgePrev x).nexts y = h.nexts y :=
  nexts_setPrev_if hxy

end SetLinks

/-- The free list is `fl`: the links run through it both ways, and its headers are apart. -/
structure FreeList (h : Heap) (fl : List ℕ) : Prop where
  links : DLinked h.nexts h.prevs fl
  head : ptr h.gFreeHead = fl.head?
  nodup : fl.Nodup
  pos : ∀ x ∈ fl, 0 < x ∧ x < 2 ^ 64
  apart : ∀ x ∈ fl, ∀ y ∈ fl, Apart x y

/-- `h'` differs from `h` in the links of the blocks of `fl` only, and in the list's head. -/
structure LinkFrame (fl : List ℕ) (h h' : Heap) : Prop where
  mem : ∀ a, (∀ x ∈ fl, a < x + 24 ∨ x + hdrSize ≤ a) → h'.mem a = h.mem a
  gBase : h'.gBase = h.gBase
  gSize : h'.gSize = h.gSize

namespace LinkFrame

variable {fl : List ℕ} {h h' h'' : Heap} {x v : ℕ}

theorem trans (hf : LinkFrame fl h h') (hf' : LinkFrame fl h' h'') : LinkFrame fl h h'' := by
  refine ⟨?_, hf'.gBase.trans hf.gBase, hf'.gSize.trans hf.gSize⟩
  intro a ha
  rw [hf'.mem a ha, hf.mem a ha]

theorem setNext (hx : x ∈ fl) : LinkFrame fl h (h.setNext x v) := by
  refine ⟨?_, rfl, rfl⟩
  intro a ha
  have := ha x hx
  unfold hdrSize at this
  exact put_of_outside (by omega)

theorem setPrev (hx : x ∈ fl) : LinkFrame fl h (h.setPrev x v) := by
  refine ⟨?_, rfl, rfl⟩
  intro a ha
  have := ha x hx
  unfold hdrSize at this
  exact put_of_outside (by omega)

theorem setHead : LinkFrame fl h { h with gFreeHead := v } := ⟨fun _ _ => rfl, rfl, rfl⟩

theorem bridgeNext (hx : ∀ p, h.prevs x = some p → p ∈ fl) : LinkFrame fl h (h.bridgeNext x) := by
  unfold Heap.bridgeNext
  split_ifs with hp
  · exact setNext (hx _ (ptr_of_ne hp))
  · exact setHead

theorem setPrev_if {w : ℕ} (hv : ∀ n, ptr v = some n → n ∈ fl) :
    LinkFrame fl h (if v ≠ 0 then h.setPrev v w else h) := by
  split_ifs with hne
  · exact setPrev (hv _ (ptr_of_ne hne))
  · exact ⟨fun _ _ => rfl, rfl, rfl⟩

theorem bridgePrev (hx : ∀ n, h.nexts x = some n → n ∈ fl) : LinkFrame fl h (h.bridgePrev x) :=
  setPrev_if hx

end LinkFrame

namespace FreeList

variable {h h' : Heap} {fl : List ℕ} {x : ℕ}

theorem neighbours {a b : List ℕ} (hl : FreeList h (a ++ x :: b)) :
    h.prevs x = a.getLast? ∧ h.nexts x = b.head? ∧
      (∀ p, h.prevs x = some p → p ∈ a) ∧ ∀ n, h.nexts x = some n → n ∈ b := by
  obtain ⟨hPrev, hNext⟩ := hl.links a x b rfl
  refine ⟨hPrev, hNext, ?_, ?_⟩
  · intro p hp
    rw [hPrev] at hp
    exact mem_of_getLast? hp
  · intro n hn
    rw [hNext] at hn
    exact mem_of_mem_head? hn

section

variable (hl : FreeList h fl)
include hl

theorem congr (hHead : h'.gFreeHead = h.gFreeHead)
    (hMem : ∀ a, ∀ x ∈ fl, x + 24 ≤ a → a < x + hdrSize → h'.mem a = h.mem a) : FreeList h' fl := by
  refine ⟨?_, by rw [hHead, hl.head], hl.nodup, hl.pos, hl.apart⟩
  apply hl.links.congr
  · intro x hx
    rw [nexts, nextOf, Mem.read64_congr fun c hc hc' => hMem c x hx (by omega) (by
      unfold hdrSize
      omega)]
    rfl
  · intro x hx
    rw [prevs, prevOf, Mem.read64_congr fun c hc hc' => hMem c x hx (by omega) (by
      unfold hdrSize
      omega)]
    rfl

theorem unlink_frame (hx : x ∈ fl) : LinkFrame fl h (h.freeUnlink x) := by
  obtain ⟨a, b, rfl⟩ := mem_iff_append.mp hx
  obtain ⟨-, -, hp, hn⟩ := hl.neighbours
  have hxa : x ∉ a := fun hm => (nodup_append.mp hl.nodup).2.2 x hm x (by simp) rfl
  have hpAll : ∀ p, h.prevs x = some p → p ∈ a ++ x :: b := fun p hEq => by simp [hp p hEq]
  have hpx : ∀ p, h.prevs x = some p → Apart p x := fun p hEq =>
    hl.apart p (hpAll p hEq) x (by simp)
  have hNext : (h.bridgeNext x).nexts x = h.nexts x := by
    rw [nexts_bridgeNext hpx]
    exact updateAt_of_ne fun hEq => hxa (hp x hEq)
  apply LinkFrame.trans (LinkFrame.bridgeNext hpAll)
  refine LinkFrame.trans (LinkFrame.bridgePrev ?_)
    ((LinkFrame.setNext (by simp)).trans (LinkFrame.setPrev (by simp)))
  intro n hEq
  rw [hNext] at hEq
  simp [hn n hEq]

theorem gFreeHead_lt : h.gFreeHead < 2 ^ 64 := by
  by_cases hZero : h.gFreeHead = 0
  · rw [hZero]
    decide
  · have hHead := hl.head
    rw [ptr_of_ne hZero] at hHead
    exact (hl.pos _ (mem_of_mem_head? hHead.symm)).2

theorem link_frame : LinkFrame (x :: fl) (h.setFree x 1) (h.freeLink x) := by
  have hLinks : LinkFrame (x :: fl) (h.setFree x 1)
      (((h.setFree x 1).setPrev x 0).setNext x h.gFreeHead) :=
    (LinkFrame.setPrev (by simp)).trans (LinkFrame.setNext (by simp))
  refine (hLinks.trans (LinkFrame.setPrev_if fun n hn => ?_)).trans .setHead
  exact mem_cons_of_mem x (mem_of_mem_head? (hl.head.symm.trans hn))

theorem link (hx : x ∉ fl) (hPos : 0 < x ∧ x < 2 ^ 64) (hApart : ∀ y ∈ fl, Apart x y) :
    FreeList (h.freeLink x) (x :: fl) := by
  have hxy : ∀ y ∈ x :: fl, Apart x y := by
    intro y hy
    rcases mem_cons.mp hy with rfl | hy
    · exact .inl rfl
    · exact hApart y hy
  have hNext1 : ∀ y ∈ x :: fl, (((h.setFree x 1).setPrev x 0).setNext x h.gFreeHead).nexts y =
        update h.nexts x fl.head? y := by
    intro y hy
    rw [nexts_setNext hl.gFreeHead_lt (hxy y hy), hl.head]
    rcases eq_or_ne y x with rfl | hne
    · rw [update_self, update_self]
    · rw [update_of_ne hne, update_of_ne hne, nexts_setPrev (hxy y hy), nexts_setFree (hxy y hy)]
  have hPrev1 : ∀ y ∈ x :: fl, (((h.setFree x 1).setPrev x 0).setNext x h.gFreeHead).prevs y =
        update h.prevs x none y := by
    intro y hy
    rw [prevs_setNext (hxy y hy), prevs_setPrev (by decide) (hxy y hy), ptr_zero]
    rcases eq_or_ne y x with rfl | hne
    · rw [update_self, update_self]
    · rw [update_of_ne hne, update_of_ne hne, prevs_setFree (hxy y hy)]
  have hHead : ∀ y ∈ x :: fl, ∀ n, ptr h.gFreeHead = some n → Apart n y := by
    intro y hy n hn
    have hMem : n ∈ fl := mem_of_mem_head? (hl.head.symm.trans hn)
    rcases mem_cons.mp hy with rfl | hy
    · exact (hApart n hMem).symm
    · exact hl.apart n hMem y hy
  refine ⟨(hl.links.pushFront hl.nodup hx).congr (fun y hy => ?_) fun y hy => ?_,
    ptr_of_ne (Nat.ne_of_gt hPos.1), nodup_cons.mpr ⟨hx, hl.nodup⟩,
    forall_mem_cons.mpr ⟨hPos, hl.pos⟩, fun y hy z hz => ?_⟩
  · exact (nexts_setPrev_if (hHead y hy)).trans (hNext1 y hy)
  · refine (prevs_setPrev_if hPos.2 (hHead y hy)).trans ?_
    rw [hl.head, ptr_of_ne (Nat.ne_of_gt hPos.1)]
    exact updateAt_congr (hPrev1 y hy) _ _
  · rcases mem_cons.mp hy with rfl | hyTail
    · exact hxy z hz
    · rcases mem_cons.mp hz with rfl | hzTail
      · exact (hApart y hyTail).symm
      · exact hl.apart y hyTail z hzTail

end

theorem unlink {a b : List ℕ} (hl : FreeList h (a ++ x :: b)) :
    FreeList (h.freeUnlink x) (a ++ b) := by
  obtain ⟨hPrev, hNext, hp, hn⟩ := hl.neighbours
  have hxab : x ∉ a ++ b := (nodup_cons.mp (nodup_middle.mp hl.nodup)).1
  have hMem : ∀ y ∈ a ++ b, y ∈ a ++ x :: b := fun y hy => by
    rcases mem_append.mp hy with hy | hy <;> simp [hy]
  have hpx : ∀ y ∈ a ++ x :: b, ∀ p, h.prevs x = some p → Apart p y := fun y hy p hEq =>
    hl.apart p (by simp [hp p hEq]) y hy
  -- The first half leaves the links of `x` itself alone.
  have hNext1 : (h.bridgeNext x).nexts x = h.nexts x := by
    rw [nexts_bridgeNext (hpx x (by simp))]
    exact updateAt_of_ne fun hEq => hxab (by simp [hp x hEq])
  have hPrev1 : (h.bridgeNext x).prevs x = h.prevs x := prevs_bridgeNext (hpx x (by simp))
  have hnx : ∀ y ∈ a ++ x :: b, ∀ n, (h.bridgeNext x).nexts x = some n → Apart n y := by
    intro y hy n hEq
    rw [hNext1] at hEq
    exact hl.apart n (by simp [hn n hEq]) y hy
  refine ⟨?_, ?_, (nodup_cons.mp (nodup_middle.mp hl.nodup)).2,
    fun y hy => hl.pos y (hMem y hy), fun y hy z hz => hl.apart y (hMem y hy) z (hMem z hz)⟩
  · apply (DLinked.unlink hl.links hl.nodup).congr
    · intro y hy
      have hxy : Apart x y := hl.apart x (by simp) y (hMem y hy)
      have hne : y ≠ x := fun hEq => hxab (hEq ▸ hy)
      rw [freeUnlink, nexts_setPrev hxy, nexts_setNext (by decide) hxy, update_of_ne hne,
        nexts_bridgePrev (hnx y (hMem y hy)), nexts_bridgeNext (hpx y (hMem y hy)), hPrev, hNext,
        update_of_ne hne]
    · intro y hy
      have hxy : Apart x y := hl.apart x (by simp) y (hMem y hy)
      have hne : y ≠ x := fun hEq => hxab (hEq ▸ hy)
      rw [freeUnlink, prevs_setPrev (by decide) hxy, update_of_ne hne, prevs_setNext hxy,
        prevs_bridgePrev (hnx y (hMem y hy)), hNext1, hPrev1, hPrev, hNext, update_of_ne hne]
      exact updateAt_congr (prevs_bridgeNext (hpx y (hMem y hy))) _ _
  · have hHead : (h.freeUnlink x).gFreeHead = (h.bridgeNext x).gFreeHead := by
      unfold freeUnlink bridgePrev
      split <;> rfl
    rw [hHead, bridgeNext]
    cases a with
    | nil =>
      have hZero : ¬h.prevOf x ≠ 0 := fun hne => by
        rw [prevs, ptr_of_ne hne] at hPrev
        cases hPrev
      rw [if_neg hZero]
      exact hNext
    | cons y a =>
      have hne : h.prevOf x ≠ 0 := fun hEq => by
        rw [prevs, hEq, ptr_zero] at hPrev
        exact absurd hPrev.symm (by simp [getLast?_eq_none_iff])
      rw [if_pos hne]
      exact hl.head

end FreeList

end Gnos.Heap
