import Gnos.ProofKit.Linked
import Gnos.Slab.Model

/-! The lists of slabs.  `Lists s l` says that the links, heads and counts of a cache describe the
lists `l`; `slabListAdd` and `slabListDel` change nothing of a header but its links. -/

namespace Gnos.Slab

open ProofKit Function List

namespace Kmem

variable (s : Kmem) (w w' : Which) (v : Option ℕ) (b q : ℕ) (f : Header → Header)

def nexts : ℕ → Option ℕ := fun q => (s.slab q).next

def prevs : ℕ → Option ℕ := fun q => (s.slab q).prev

theorem slab_modify : (s.modify b f).slab q = if q = b then f (s.slab b) else s.slab q := by
  simp [modify, update_apply]

@[simp] theorem cache_modify : (s.modify b f).cache = s.cache := rfl
@[simp] theorem slab_setHead : (s.setHead w v).slab = s.slab := rfl

/-- `s'` differs from `s` at most in the links of the headers and the heads of the lists. -/
structure LinkFrame (s s' : Kmem) : Prop where
  core : ∀ q, { s'.slab q with next := none, prev := none } =
    { s.slab q with next := none, prev := none }
  geometry : s'.cache.toGeometry = s.cache.toGeometry
  colourNext : s'.cache.colourNext = s.cache.colourNext
  num : s'.cache.num = s.cache.num
  avail : s'.cache.avail = s.cache.avail
  entry : s'.cache.entry = s.cache.entry
  word : s'.word = s.word
  ready : s'.ready = s.ready

theorem LinkFrame.refl : LinkFrame s s := ⟨fun _ => rfl, rfl, rfl, rfl, rfl, rfl, rfl, rfl⟩

theorem LinkFrame.trans {s s' s'' : Kmem} (h : LinkFrame s s') (h' : LinkFrame s' s'') :
    LinkFrame s s'' :=
  ⟨fun q => (h'.core q).trans (h.core q), h'.geometry.trans h.geometry,
    h'.colourNext.trans h.colourNext, h'.num.trans h.num, h'.avail.trans h.avail,
    h'.entry.trans h.entry, h'.word.trans h.word, h'.ready.trans h.ready⟩

theorem LinkFrame.header {s s' : Kmem} (h : LinkFrame s s') (q : ℕ) :
    (s'.slab q).raw = (s.slab q).raw ∧ (s'.slab q).objmask = (s.slab q).objmask ∧
      (s'.slab q).freelist = (s.slab q).freelist ∧ (s'.slab q).inUse = (s.slab q).inUse ∧
      (s'.slab q).colour = (s.slab q).colour := by
  simpa using h.core q

theorem linkFrame_modify
    (hf : ∀ t, { f t with next := none, prev := none } = { t with next := none, prev := none }) :
    LinkFrame s (s.modify b f) := by
  refine ⟨fun q => ?_, rfl, rfl, rfl, rfl, rfl, rfl, rfl⟩
  rw [slab_modify]
  split_ifs with hq
  · rw [hq, hf]
  · rfl

theorem linkFrame_setHead : LinkFrame s (s.setHead w v) :=
  ⟨fun _ => rfl, rfl, rfl, rfl, rfl, rfl, rfl, rfl⟩

theorem linkFrame_linkBefore : LinkFrame s (s.linkBefore v b) := by
  cases v with
  | none => exact .refl s
  | some x => exact linkFrame_modify s x (fun t => { t with prev := some b }) fun _ => rfl

theorem linkFrame_slabListAdd : LinkFrame s (s.slabListAdd w b) :=
  ((linkFrame_modify s b (fun t => { t with prev := none, next := s.cache.head w })
    fun _ => rfl).trans (linkFrame_linkBefore _ _ b)).trans (linkFrame_setHead _ w _)

theorem linkFrame_bridgeNext : LinkFrame s (s.bridgeNext w b) := by
  unfold bridgeNext
  split
  · exact linkFrame_modify s _ _ fun _ => rfl
  · split
    · exact linkFrame_setHead s _ _
    · exact .refl s

theorem linkFrame_bridgePrev : LinkFrame s (s.bridgePrev b) := by
  unfold bridgePrev
  split
  · exact linkFrame_modify s _ _ fun _ => rfl
  · exact .refl s

theorem linkFrame_slabListDel : LinkFrame s (s.slabListDel w b) :=
  ((linkFrame_bridgeNext s w b).trans (linkFrame_bridgePrev _ b)).trans
    (linkFrame_modify _ b (fun t => { t with prev := none, next := none }) fun _ => rfl)

theorem slab_linkBefore :
    (s.linkBefore v b).slab q = { s.slab q with prev := updateAt s.prevs v (some b) q } := by
  cases v with
  | none => rfl
  | some x =>
    rw [linkBefore, slab_modify]
    by_cases hq : q = x
    · simp [hq]
    · rw [if_neg hq, updateAt_of_ne (by simpa using Ne.symm hq)]
      rfl

theorem head_linkBefore : (s.linkBefore v b).cache = s.cache := by
  cases v <;> rfl

theorem links_slabListAdd :
    (s.slabListAdd w b).nexts = update s.nexts b (s.cache.head w) ∧ (s.slabListAdd w b).prevs =
        updateAt (update s.prevs b none) (s.cache.head w) (some b) ∧
      (s.slabListAdd w b).cache.head = update s.cache.head w (some b) := by
  have hPrevs : (s.modify b fun t => { t with prev := none, next := s.cache.head w }).prevs =
      update s.prevs b none := by
    funext q
    by_cases hq : q = b <;> simp [prevs, slab_modify, hq]
  refine ⟨?_, ?_, ?_⟩
  · funext q
    by_cases hq : q = b <;> simp [slabListAdd, nexts, slab_linkBefore, slab_modify, hq]
  · funext q
    rw [← hPrevs]
    simp [slabListAdd, prevs, slab_linkBefore]
  · simp [slabListAdd, setHead, head_linkBefore]

theorem slab_bridgeNext : (s.bridgeNext w b).slab q =
      { s.slab q with next := updateAt s.nexts (s.prevs b) (s.nexts b) q } := by
  unfold bridgeNext prevs
  cases (s.slab b).prev with
  | none => dsimp only; split <;> simp [nexts]
  | some p =>
    rw [slab_modify]
    by_cases hq : q = p
    · simp [hq, nexts]
    · rw [if_neg hq, updateAt_of_ne (by simpa using Ne.symm hq)]
      rfl

theorem slab_bridgePrev : (s.bridgePrev b).slab q =
      { s.slab q with prev := updateAt s.prevs (s.nexts b) (s.prevs b) q } := by
  unfold bridgePrev nexts
  cases (s.slab b).next with
  | none => rfl
  | some n =>
    rw [slab_modify]
    by_cases hq : q = n
    · simp [hq, prevs]
    · rw [if_neg hq, updateAt_of_ne (by simpa using Ne.symm hq)]
      rfl

theorem head_bridgePrev : (s.bridgePrev b).cache = s.cache := by
  unfold bridgePrev
  split <;> rfl

theorem head_bridgeNext :
    (s.bridgeNext w b).cache.head = if s.prevs b = none ∧ s.cache.head w = some b
      then update s.cache.head w (s.nexts b) else s.cache.head := by
  unfold bridgeNext prevs nexts
  cases (s.slab b).prev with
  | none => by_cases h : s.cache.head w = some b <;> simp [h, setHead]
  | some p => simp

theorem links_slabListDel (hb : s.prevs b ≠ some b) :
    (s.slabListDel w b).nexts = update (updateAt s.nexts (s.prevs b) (s.nexts b)) b none ∧
      (s.slabListDel w b).prevs = update (updateAt s.prevs (s.nexts b) (s.prevs b)) b none ∧
      (s.slabListDel w b).cache.head = if s.prevs b = none ∧ s.cache.head w = some b
        then update s.cache.head w (s.nexts b) else s.cache.head := by
  have hPrevs : (s.bridgeNext w b).prevs = s.prevs := by
    funext q
    simp [prevs, slab_bridgeNext]
  have hNext : (s.bridgeNext w b).nexts b = s.nexts b := by
    simp only [nexts, slab_bridgeNext]
    exact updateAt_of_ne hb
  refine ⟨?_, ?_, ?_⟩
  · funext q
    by_cases hq : q = b
    · simp [slabListDel, nexts, slab_modify, hq]
    · simp [slabListDel, nexts, slab_modify, hq, slab_bridgePrev, slab_bridgeNext]
  · funext q
    by_cases hq : q = b
    · simp [slabListDel, prevs, slab_modify, hq]
    · rw [update_of_ne hq, ← hPrevs, ← hNext]
      simp [slabListDel, prevs, slab_modify, hq, slab_bridgePrev]
  · simp [slabListDel, head_bridgePrev, head_bridgeNext]

/-- The links, heads and counts of `s` describe the lists `l`, which share no slab. -/
structure Lists (s : Kmem) (l : Which → List ℕ) : Prop where
  linked : ∀ w, DLinked s.nexts s.prevs (l w)
  head : ∀ w, s.cache.head w = (l w).head?
  nodup : ∀ w, (l w).Nodup
  apart : ∀ w w' b, b ∈ l w → b ∈ l w' → w = w'

variable {s b} {l : Which → List ℕ}

theorem Lists.congr {s' : Kmem} (h : Lists s l) (hSlab : ∀ w, ∀ q ∈ l w,
      (s'.slab q).next = (s.slab q).next ∧ (s'.slab q).prev = (s.slab q).prev)
    (hHead : s'.cache.head = s.cache.head) : Lists s' l where
  linked w := (h.linked w).congr (fun q hq => (hSlab w q hq).1) fun q hq => (hSlab w q hq).2
  head w := by rw [hHead, h.head]
  nodup := h.nodup
  apart := h.apart

theorem Lists.family (h : Lists s l) : DLists s.nexts s.prevs l := ⟨⟨h.nodup, h.apart⟩, h.linked⟩

theorem Lists.of_family (h : DLists s.nexts s.prevs l) (hHead : ∀ w, s.cache.head w = (l w).head?) :
    Lists s l := ⟨h.linked, hHead, h.nodup, h.apart⟩

theorem Lists.add (h : Lists s l) (w : Which) (hb : ∀ w, b ∉ l w) :
    Lists (s.slabListAdd w b) (update l w (b :: l w)) := by
  obtain ⟨hNexts, hPrevs, hHead⟩ := links_slabListAdd s w b
  have hAdded := h.family.pushFront hb w
  rw [← h.head, ← hNexts, ← hPrevs] at hAdded
  refine .of_family hAdded fun w' => ?_
  rw [hHead]
  rcases eq_or_ne w' w with rfl | hw
  · simp
  · rw [update_of_ne hw, update_of_ne hw, h.head]

theorem Lists.del (h : Lists s l) {w : Which} (hb : b ∈ l w) :
    Lists (s.slabListDel w b) (update l w ((l w).erase b)) := by
  have hNot : s.prevs b ≠ some b := by
    obtain ⟨front, back, hSplit⟩ := append_of_mem hb
    rw [(h.linked w front b back hSplit).1]
    exact getLast?_ne_of_notMem fun hMem =>
      (nodup_append.mp (hSplit ▸ h.nodup w)).2.2 b hMem b mem_cons_self rfl
  obtain ⟨hNexts, hPrevs, hHead⟩ := links_slabListDel s w b hNot
  have hDeleted := h.family.unlink hb
  rw [← hNexts, ← hPrevs] at hDeleted
  refine .of_family hDeleted fun w' => ?_
  rw [hHead, ite_apply]
  rcases eq_or_ne w' w with rfl | hw
  · rw [update_self, update_self, ((h.linked w').ends_erase (h.nodup w') hb).1, h.head]
  · rw [update_of_ne hw, update_of_ne hw, ite_self, h.head]

end Kmem

end Gnos.Slab
