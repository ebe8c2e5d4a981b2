import Gnos.PageCache.Lru

/-! The hash table as one list of pages for each bucket: `Hashed s chain` says that the buckets and
the `next` links of `s` describe the chains. -/

namespace Gnos.PageCache

open ProofKit Function List

variable {s : PageCache} {chain : ℕ → List ℕ} {p : ℕ}

def nexts (s : PageCache) : ℕ → Option ℕ := fun q => (s.gPool q).next

def bucketAt (s : PageCache) (p : ℕ) : ℕ := bucketOf (s.gPool p).ctx (s.gPool p).off

/-- The buckets and the `next` links of `s` describe the lists `chain`. -/
structure Hashed (s : PageCache) (chain : ℕ → List ℕ) : Prop where
  linked : ∀ b, Linked s.nexts (chain b)
  bucket : ∀ b, s.gBucket b = (chain b).head?
  nodup : ∀ b, (chain b).Nodup
  home : ∀ b, ∀ q ∈ chain b, s.bucketAt q = b
  short : ∀ b, (chain b).length ≤ pcPages

structure HashFrame (s s' : PageCache) : Prop where
  page : ∀ q, { s'.gPool q with next := none } = { s.gPool q with next := none }
  rest : s' = { s with gPool := s'.gPool, gBucket := s'.gBucket }

theorem HashFrame.fields {s s' : PageCache} (h : HashFrame s s') (q : ℕ) :
    s'.gPool q = { s.gPool q with next := (s'.gPool q).next } := by
  have hPage := h.page q
  cases hq : s'.gPool q
  cases hq' : s.gPool q
  simp_all

theorem HashFrame.bucketAt {s s' : PageCache} (h : HashFrame s s') (q : ℕ) :
    s'.bucketAt q = s.bucketAt q := by
  unfold PageCache.bucketAt
  rw [h.fields q]

theorem HashFrame.sameLru {s s' : PageCache} (h : HashFrame s s') : SameLru s s' := by
  refine ⟨fun q => ?_, fun b => ?_⟩
  · rw [h.fields q]
    exact ⟨rfl, rfl, rfl⟩
  · rw [h.rest]
    exact ⟨rfl, rfl, rfl⟩

theorem hashInsert_frame (s : PageCache) (p : ℕ) : HashFrame s (s.hashInsert p) := by
  refine ⟨fun q => ?_, rfl⟩
  unfold hashInsert modify
  by_cases hq : q = p <;> simp [hq]

theorem nexts_hashInsert (s : PageCache) (p : ℕ) :
    (s.hashInsert p).nexts = update s.nexts p (s.gBucket (s.bucketAt p)) := by
  funext q
  unfold hashInsert modify nexts bucketAt
  by_cases hq : q = p <;> simp [hq]

theorem hashRemoveAfter_eq (fuel : ℕ) (a c : List ℕ) (q r : ℕ)
    (hl : Linked s.nexts (q :: a ++ p :: c)) (hp : p ∉ q :: a) (hFuel : a.length < fuel)
    (hr : (q :: a).getLast? = some r) :
    s.hashRemoveAfter p fuel q = s.modify r fun q => { q with next := (s.gPool p).next } := by
  induction a generalizing fuel q with
  | nil =>
    obtain ⟨fuel, rfl⟩ : ∃ n, fuel = n + 1 := ⟨fuel - 1, by simp at hFuel; omega⟩
    obtain rfl : q = r := by simpa using hr
    have hNext : (s.gPool q).next = some p := hl.head
    rw [hashRemoveAfter, hNext]
    simp
  | cons x a ih =>
    obtain ⟨fuel, rfl⟩ : ∃ n, fuel = n + 1 := ⟨fuel - 1, by simp at hFuel; omega⟩
    have hNext : (s.gPool q).next = some x := hl.head
    have hx : x ≠ p := fun hEq => hp (by simp [hEq])
    rw [hashRemoveAfter, hNext]
    simp only [hx, if_false]
    exact ih fuel x hl.tail (fun hm => hp (by simp [mem_cons.mp hm]))
      (by simpa using hFuel) (by simpa using hr)

theorem hashRemoveAfter_frame (s : PageCache) (p fuel q : ℕ) :
    HashFrame s (s.hashRemoveAfter p fuel q) := by
  induction fuel generalizing q with
  | zero => exact ⟨fun _ => rfl, rfl⟩
  | succ fuel ih =>
    unfold hashRemoveAfter
    split
    · exact ⟨fun _ => rfl, rfl⟩
    · split
      · refine ⟨fun r => ?_, rfl⟩
        rw [gPool_modify]
        split_ifs with hr
        · rw [hr]
        · rfl
      · exact ih _

theorem hashRemove_frame (s : PageCache) (p : ℕ) : HashFrame s (s.hashRemove p) := by
  unfold hashRemove
  dsimp only
  split
  · exact ⟨fun _ => rfl, rfl⟩
  · split
    · exact ⟨fun _ => rfl, rfl⟩
    · exact hashRemoveAfter_frame s p _ _

structure SameHash (s s' : PageCache) : Prop where
  page : ∀ q, (s'.gPool q).next = (s.gPool q).next ∧ (s'.gPool q).ctx = (s.gPool q).ctx ∧
    (s'.gPool q).off = (s.gPool q).off
  bucket : s'.gBucket = s.gBucket

theorem LruFrame.sameHash {s s' : PageCache} (h : LruFrame s s') : SameHash s s' :=
  ⟨fun q =>
    ⟨(Page.core_fields (h.page q)).1, (Page.core_fields (h.page q)).2.1,
      (Page.core_fields (h.page q)).2.2.1⟩, h.bucket⟩

theorem sameHash_modify (s : PageCache) (p : ℕ) {f : Page → Page}
    (hf : ∀ q, (f q).next = q.next ∧ (f q).ctx = q.ctx ∧ (f q).off = q.off) :
    SameHash s (s.modify p f) := by
  refine ⟨fun q => ?_, rfl⟩
  rw [gPool_modify]
  split_ifs with hq
  · rw [hq]
    exact hf _
  · exact ⟨rfl, rfl, rfl⟩

theorem hashFindFrom_eq (ctx off fuel : ℕ) (l : List ℕ) (hl : Linked s.nexts l)
    (hFuel : l.length < fuel) : s.hashFindFrom ctx off fuel l.head? =
      l.find? fun p => decide ((s.gPool p).ctx = ctx ∧ (s.gPool p).off = off) := by
  induction l generalizing fuel with
  | nil =>
    cases fuel with
    | zero => simp at hFuel
    | succ fuel => rfl
  | cons q l ih =>
    cases fuel with
    | zero => simp at hFuel
    | succ fuel =>
      have hNext : (s.gPool q).next = l.head? := hl.head
      rw [head?_cons, hashFindFrom, find?_cons, hNext, ih fuel hl.tail (by simpa using hFuel)]
      by_cases hq : (s.gPool q).ctx = ctx ∧ (s.gPool q).off = off
      · rw [if_pos hq, decide_eq_true hq]
      · rw [if_neg hq, decide_eq_false hq]

section

variable (h : Hashed s chain)
include h

theorem Hashed.insert (hp : ∀ b, p ∉ chain b) (hLen : (chain (s.bucketAt p)).length < pcPages) :
    Hashed (s.hashInsert p)
      (update chain (s.bucketAt p) (p :: chain (s.bucketAt p))) := by
  have hCongr : ∀ b, Linked (s.hashInsert p).nexts (chain b) := fun b =>
    (h.linked b).congr fun x hx => by
      have hxp : x ≠ p := fun hEq => hp b (hEq ▸ hx)
      rw [nexts_hashInsert, update_of_ne hxp]
  have hHome := (hashInsert_frame s p).bucketAt
  refine ⟨fun b => ?_, fun b => ?_, fun b => ?_, fun b q hq => ?_, fun b => ?_⟩ <;>
    rcases eq_or_ne b (s.bucketAt p) with rfl | hb
  · rw [update_self]
    refine (hCongr _).cons ?_
    rw [nexts_hashInsert, update_self, h.bucket]
  · rw [update_of_ne hb]
    exact hCongr b
  · simp [hashInsert, bucketAt]
  · rw [update_of_ne hb, ← h.bucket]
    exact update_of_ne hb _ _
  · rw [update_self]
    exact nodup_cons.mpr ⟨hp _, h.nodup _⟩
  · rw [update_of_ne hb]
    exact h.nodup b
  · rw [update_self, mem_cons] at hq
    rw [hHome]
    rcases hq with rfl | hq
    · rfl
    · exact h.home _ q hq
  · rw [update_of_ne hb] at hq
    rw [hHome]
    exact h.home b q hq
  · rw [update_self]
    exact hLen
  · rw [update_of_ne hb]
    exact h.short b

theorem hashRemove_chain {b : ℕ} (hp : p ∈ chain b) :
    Linked (s.hashRemove p).nexts ((chain b).erase p) ∧
      (s.hashRemove p).gBucket = update s.gBucket b ((chain b).erase p).head? ∧
      ∀ q ∉ chain b, (s.hashRemove p).nexts q = s.nexts q := by
  have hHome : bucketOf (s.gPool p).ctx (s.gPool p).off = b := h.home b p hp
  have hNodup := h.nodup b
  have hLinked := h.linked b
  have hShort := h.short b
  obtain ⟨before, after, hSplit⟩ := append_of_mem hp
  have hErase : (chain b).erase p = before ++ after := by
    rw [hSplit] at hNodup ⊢
    exact erase_of_split hNodup
  rw [hErase]
  rw [hSplit] at hNodup hLinked hShort
  have hNext : (s.gPool p).next = after.head? := hLinked before p after rfl
  unfold hashRemove
  cases before with
  | nil =>
    -- `p` is the first page of its chain: only the bucket changes.
    simp only [hHome, h.bucket, hSplit, nil_append, head?_cons, if_true, hNext]
    exact ⟨hLinked.tail, trivial, fun _ _ => rfl⟩
  | cons q before =>
    have hq : q ≠ p := by
      rintro rfl
      simp at hNodup
    have hpBefore : p ∉ q :: before := fun hm => (nodup_append.mp hNodup).2.2 p hm p (by simp) rfl
    obtain ⟨init, r, hr⟩ := (eq_nil_or_concat (q :: before)).resolve_left (by simp)
    rw [concat_eq_append] at hr
    have hRun := hashRemoveAfter_eq pcPages before after q r hLinked hpBefore
      (by simp at hShort; omega) (by rw [hr]; simp)
    simp only [hHome, h.bucket, hSplit, cons_append, head?_cons, hq, if_false]
    rw [hRun]
    have hNexts : (s.modify r fun q => { q with next := (s.gPool p).next }).nexts =
        update s.nexts r after.head? := by
      funext x
      by_cases hx : x = r <;> simp [nexts, gPool_modify, hx, hNext]
    refine ⟨?_, ?_, fun x hx => ?_⟩
    · rw [hNexts, ← cons_append, hr, append_assoc]
      refine Linked.unlink (x := p) ?_ ?_
      · rwa [hr, append_assoc] at hLinked
      · rwa [hr, append_assoc] at hNodup
    · have hSame : s.gBucket b = some q := by rw [h.bucket, hSplit]; rfl
      rw [← hSame, update_eq_self]
      rfl
    · have hxr : x ≠ r := by
        rintro rfl
        refine hx ?_
        rw [← cons_append, hr]
        simp
      rw [hNexts, update_of_ne hxr]

theorem Hashed.remove {b : ℕ} (hp : p ∈ chain b) :
    Hashed (s.hashRemove p) (update chain b ((chain b).erase p)) := by
  obtain ⟨hLinked, hBucket, hOthers⟩ := hashRemove_chain h hp
  have hHome := (hashRemove_frame s p).bucketAt
  refine ⟨fun c => ?_, fun c => ?_, fun c => ?_, fun c q hq => ?_, fun c => ?_⟩ <;>
    rcases eq_or_ne c b with rfl | hc
  · rwa [update_self]
  · rw [update_of_ne hc]
    exact (h.linked c).congr fun x hx => hOthers x fun hx' =>
      hc ((h.home c x hx).symm.trans (h.home b x hx'))
  · rw [update_self, hBucket, update_self]
  · rw [update_of_ne hc, hBucket, update_of_ne hc, h.bucket]
  · rw [update_self]
    exact (h.nodup c).erase p
  · rw [update_of_ne hc]
    exact h.nodup c
  · rw [update_self] at hq
    rw [hHome]
    exact h.home c q (mem_of_mem_erase hq)
  · rw [update_of_ne hc] at hq
    rw [hHome]
    exact h.home c q hq
  · rw [update_self]
    exact Nat.le_trans length_erase_le (h.short c)
  · rw [update_of_ne hc]
    exact h.short c

theorem Hashed.of_same {s' : PageCache} (hs : SameHash s s') : Hashed s' chain where
  linked b := (h.linked b).congr fun x _ => (hs.page x).1
  bucket b := by rw [hs.bucket, h.bucket]
  nodup := h.nodup
  home b q hq := by
    rw [bucketAt, (hs.page q).2.1, (hs.page q).2.2]
    exact h.home b q hq
  short := h.short

theorem Hashed.modify (hp : ∀ b, p ∉ chain b) (f : Page → Page) : Hashed (s.modify p f) chain := by
  have hPage : ∀ b, ∀ q ∈ chain b, (s.modify p f).gPool q = s.gPool q := fun b q hq => by
    have hqp : q ≠ p := fun hEq => hp b (hEq ▸ hq)
    rw [gPool_modify, if_neg hqp]
  refine ⟨fun b => (h.linked b).congr fun x hx => ?_, h.bucket, h.nodup, fun b q hq => ?_, h.short⟩
  · rw [nexts, hPage b x hx, nexts]
  · rw [bucketAt, hPage b q hq]
    exact h.home b q hq

theorem Hashed.find (ctx off : ℕ) : s.hashFind ctx off = (chain (bucketOf ctx off)).find? fun p =>
      decide ((s.gPool p).ctx = ctx ∧ (s.gPool p).off = off) := by
  rw [hashFind, h.bucket]
  exact hashFindFrom_eq ctx off _ _ (h.linked _) (Nat.lt_succ_of_le (h.short _))

end

end Gnos.PageCache
