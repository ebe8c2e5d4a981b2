import Gnos.PageCache.Model
import Gnos.ProofKit.Linked

/-! The recency lists as lists of pages.  `Lru s lru` says that the links, heads, tails and lengths
of `s` describe the lists `lru true` (active) and `lru false` (inactive). -/

namespace Gnos.PageCache

open ProofKit Function List

variable {s : PageCache}

def Page.core (q : Page) : Page := { q with lruPrev := none, lruNext := none, active := false }

theorem Page.core_fields {q r : Page} (h : q.core = r.core) :
    q.next = r.next ∧ q.ctx = r.ctx ∧ q.off = r.off ∧ q.dirty = r.dirty ∧ q.ra = r.ra ∧
      q.wr = r.wr ∧ q.data = r.data := by
  simpa [core] using h

structure LruFrame (s s' : PageCache) : Prop where
  page : ∀ q, (s'.gPool q).core = (s.gPool q).core
  used : s'.gUsed = s.gUsed
  bucket : s'.gBucket = s.gBucket
  dirtyN : s'.gDirtyN = s.gDirtyN
  ra : s'.gRa = s.gRa
  raVictim : s'.gRaVictim = s.gRaVictim
  disk : s'.disk = s.disk
  clock : s'.clock = s.clock
  trace : s'.trace = s.trace

theorem LruFrame.refl (s : PageCache) : LruFrame s s :=
  ⟨fun _ => rfl, rfl, rfl, rfl, rfl, rfl, rfl, rfl, rfl⟩

theorem LruFrame.trans {s s' s'' : PageCache} (h : LruFrame s s') (h' : LruFrame s' s'') :
    LruFrame s s'' :=
  ⟨fun q => (h'.page q).trans (h.page q), h'.used.trans h.used, h'.bucket.trans h.bucket,
    h'.dirtyN.trans h.dirtyN, h'.ra.trans h.ra, h'.raVictim.trans h.raVictim,
    h'.disk.trans h.disk, h'.clock.trans h.clock, h'.trace.trans h.trace⟩

section Fields

variable (s : PageCache) (b b' : Bool) (t : Option ℕ) (p q : ℕ) (f : Page → Page) (n : ℕ)

theorem gPool_modify : (s.modify p f).gPool q = if q = p then f (s.gPool p) else s.gPool q := by
  simp [modify, update_apply]

@[simp] theorem gPool_setHead : (s.setHead b t).gPool = s.gPool := by cases b <;> rfl
@[simp] theorem gPool_setTail : (s.setTail b t).gPool = s.gPool := by cases b <;> rfl
@[simp] theorem gPool_setN : (s.setN b n).gPool = s.gPool := by cases b <;> rfl
@[simp] theorem head_modify : (s.modify p f).head b = s.head b := rfl
@[simp] theorem tail_modify : (s.modify p f).tail b = s.tail b := rfl
@[simp] theorem listN_modify : (s.modify p f).listN b = s.listN b := rfl

@[simp] theorem head_setHead : (s.setHead b t).head b' = if b' = b then t else s.head b' := by
  cases b <;> cases b' <;> rfl

@[simp] theorem head_setTail : (s.setTail b t).head b' = s.head b' := by
  cases b <;> cases b' <;> rfl

@[simp] theorem head_setN : (s.setN b n).head b' = s.head b' := by cases b <;> cases b' <;> rfl

@[simp] theorem tail_setTail : (s.setTail b t).tail b' = if b' = b then t else s.tail b' := by
  cases b <;> cases b' <;> rfl

@[simp] theorem tail_setHead : (s.setHead b t).tail b' = s.tail b' := by
  cases b <;> cases b' <;> rfl

@[simp] theorem tail_setN : (s.setN b n).tail b' = s.tail b' := by cases b <;> cases b' <;> rfl

@[simp] theorem listN_setN : (s.setN b n).listN b' = if b' = b then n else s.listN b' := by
  cases b <;> cases b' <;> rfl

@[simp] theorem listN_setHead : (s.setHead b t).listN b' = s.listN b' := by
  cases b <;> cases b' <;> rfl

@[simp] theorem listN_setTail : (s.setTail b t).listN b' = s.listN b' := by
  cases b <;> cases b' <;> rfl

theorem lruFrame_setHead : LruFrame s (s.setHead b t) := by
  cases b <;> exact ⟨fun _ => rfl, rfl, rfl, rfl, rfl, rfl, rfl, rfl, rfl⟩

theorem lruFrame_setTail : LruFrame s (s.setTail b t) := by
  cases b <;> exact ⟨fun _ => rfl, rfl, rfl, rfl, rfl, rfl, rfl, rfl, rfl⟩

theorem lruFrame_setN : LruFrame s (s.setN b n) := by
  cases b <;> exact ⟨fun _ => rfl, rfl, rfl, rfl, rfl, rfl, rfl, rfl, rfl⟩

theorem lruFrame_modify (hf : ∀ q, (f q).core = q.core) : LruFrame s (s.modify p f) := by
  refine ⟨fun q => ?_, rfl, rfl, rfl, rfl, rfl, rfl, rfl, rfl⟩
  rw [gPool_modify]
  split_ifs with h
  · rw [hf, h]
  · rfl

theorem LruFrame.ite {s s1 s2 : PageCache} {c : Prop} [Decidable c] (h1 : LruFrame s s1)
    (h2 : LruFrame s s2) : LruFrame s (if c then s1 else s2) := by
  split
  · exact h1
  · exact h2

theorem lruFrame_linkAfter : LruFrame s (s.linkAfter t p) := by
  cases t with
  | none => exact .refl s
  | some t => exact lruFrame_modify s t (fun q => { q with lruNext := some p }) fun _ => rfl

theorem lruFrame_bridgeNext (q : Page) : LruFrame s (s.bridgeNext p q) := by
  unfold bridgeNext
  split
  · exact lruFrame_modify s _ _ fun _ => rfl
  · exact (lruFrame_setHead s _ _).ite (.refl s)

theorem lruFrame_bridgePrev (q : Page) : LruFrame s (s.bridgePrev p q) := by
  unfold bridgePrev
  split
  · exact lruFrame_modify s _ _ fun _ => rfl
  · exact (lruFrame_setTail s _ _).ite (.refl s)

theorem lruPush_frame : LruFrame s (s.lruPush b p) := by
  have hTail := ((lruFrame_modify s p (fun q => { q with lruPrev := s.tail b, lruNext := none })
    fun _ => rfl).trans (lruFrame_linkAfter _ (s.tail b) p)).trans (lruFrame_setTail _ b (some p))
  exact ((hTail.trans (lruFrame_setHead _ _ _)).ite hTail).trans (lruFrame_setN _ _ _)

theorem lruUnlink_frame : LruFrame s (s.lruUnlink p) :=
  (((lruFrame_setN s _ _).trans (lruFrame_bridgeNext _ p _)).trans
    (lruFrame_bridgePrev _ p _)).trans
    (lruFrame_modify _ p (fun q => { q with lruPrev := none, lruNext := none }) fun _ => rfl)

def lruNexts (s : PageCache) : ℕ → Option ℕ := fun q => (s.gPool q).lruNext

def lruPrevs (s : PageCache) : ℕ → Option ℕ := fun q => (s.gPool q).lruPrev

theorem gPool_linkAfter : (s.linkAfter t p).gPool q =
      { s.gPool q with lruNext := updateAt s.lruNexts t (some p) q } := by
  cases t with
  | none => rfl
  | some t =>
    rw [linkAfter, gPool_modify]
    by_cases h : q = t
    · simp [h]
    · rw [if_neg h, updateAt_of_ne (by simpa using Ne.symm h)]
      rfl

theorem gPool_bridgeNext (q : Page) (r : ℕ) : (s.bridgeNext p q).gPool r =
      { s.gPool r with lruNext := updateAt s.lruNexts q.lruPrev q.lruNext r } := by
  unfold bridgeNext
  cases q.lruPrev with
  | none => dsimp only; split <;> simp [lruNexts]
  | some t =>
    rw [gPool_modify]
    by_cases h : r = t
    · simp [h]
    · rw [if_neg h, updateAt_of_ne (by simpa using Ne.symm h)]
      rfl

theorem gPool_bridgePrev (q : Page) (r : ℕ) : (s.bridgePrev p q).gPool r =
      { s.gPool r with lruPrev := updateAt s.lruPrevs q.lruNext q.lruPrev r } := by
  unfold bridgePrev
  cases q.lruNext with
  | none => dsimp only; split <;> simp [lruPrevs]
  | some t =>
    rw [gPool_modify]
    by_cases h : r = t
    · simp [h]
    · rw [if_neg h, updateAt_of_ne (by simpa using Ne.symm h)]
      rfl

theorem gPool_lruPush : (s.lruPush b p).gPool q = { s.gPool q with
      lruPrev := update s.lruPrevs p (s.tail b) q
      lruNext := updateAt (update s.lruNexts p none) (s.tail b) (some p) q } := by
  have hNexts : (s.modify p fun q => { q with lruPrev := s.tail b, lruNext := none }).lruNexts =
      update s.lruNexts p none := by
    funext r
    by_cases h : r = p <;> simp [lruNexts, gPool_modify, h]
  have hPool : (s.lruPush b p).gPool = ((s.modify p fun q =>
      { q with lruPrev := s.tail b, lruNext := none }).linkAfter (s.tail b) p).gPool := by
    unfold lruPush
    dsimp only
    split <;> simp
  rw [hPool, gPool_linkAfter, hNexts, gPool_modify]
  by_cases h : q = p <;> simp [h, lruPrevs]

theorem gPool_lruUnlink : (s.lruUnlink p).gPool q = { s.gPool q with
      lruPrev := update (updateAt s.lruPrevs (s.lruNexts p) (s.lruPrevs p)) p none q
      lruNext := update (updateAt s.lruNexts (s.lruPrevs p) (s.lruNexts p)) p none q } := by
  have hPrevs : ∀ t : PageCache, (t.bridgeNext p (s.gPool p)).lruPrevs = t.lruPrevs := fun t => by
    funext r
    simp [lruPrevs, gPool_bridgeNext]
  have hSetN : ∀ n, (s.setN (s.gPool p).active n).lruNexts = s.lruNexts ∧
      (s.setN (s.gPool p).active n).lruPrevs = s.lruPrevs := fun n => by
    constructor <;> funext r <;> simp [lruNexts, lruPrevs]
  unfold lruUnlink
  rw [gPool_modify]
  by_cases h : q = p
  · simp [h, gPool_bridgePrev, gPool_bridgeNext]
  · simp only [h, gPool_bridgePrev, gPool_bridgeNext, hPrevs, hSetN, if_false, gPool_setN,
      update_of_ne, ne_eq, not_false_eq_true]
    rfl

theorem listN_linkAfter : (s.linkAfter t p).head b = s.head b ∧
    (s.linkAfter t p).tail b = s.tail b ∧
      (s.linkAfter t p).listN b = s.listN b := by
  cases t <;> exact ⟨rfl, rfl, rfl⟩

theorem ends_lruPush :
    (s.lruPush b p).head b' = (if b' = b ∧ s.head b = none then some p else s.head b') ∧
      (s.lruPush b p).tail b' = if b' = b then some p else s.tail b' := by
  obtain ⟨hHead, hTail, -⟩ := listN_linkAfter
    (s.modify p fun q => { q with lruPrev := s.tail b, lruNext := none }) b (s.tail b) p
  obtain ⟨hHead', hTail', -⟩ := listN_linkAfter
    (s.modify p fun q => { q with lruPrev := s.tail b, lruNext := none }) b' (s.tail b) p
  unfold lruPush
  by_cases hb : b' = b <;> by_cases hn : s.head b = none <;> simp [hb, hn, hHead, hHead', hTail']

theorem listN_lruPush : (s.lruPush b p).listN b' =
      if b' = (s.gPool p).active then s.listN b' + 1 else s.listN b' := by
  have hN := fun b' => (listN_linkAfter
    (s.modify p fun q => { q with lruPrev := s.tail b, lruNext := none }) b' (s.tail b) p).2.2
  have hActive : (((s.modify p fun q => { q with lruPrev := s.tail b, lruNext := none }).linkAfter
      (s.tail b) p).gPool p).active = (s.gPool p).active := by
    simp [gPool_linkAfter, gPool_modify]
  unfold lruPush
  dsimp only
  split <;> by_cases hb : b' = (s.gPool p).active <;> simp [hb, hActive, hN]

theorem ends_lruUnlink :
    (s.lruUnlink p).head b = (if b = (s.gPool p).active ∧ s.lruPrevs p = none ∧ s.head b = some p
        then s.lruNexts p else s.head b) ∧
      (s.lruUnlink p).tail b = (if b = (s.gPool p).active ∧ s.lruNexts p = none ∧
        s.tail b = some p then s.lruPrevs p else s.tail b) ∧ (s.lruUnlink p).listN b =
        if b = (s.gPool p).active then s.listN b - 1 else s.listN b := by
  unfold lruUnlink bridgeNext bridgePrev lruNexts lruPrevs
  dsimp only
  rcases eq_or_ne b (s.gPool p).active with rfl | hb
  all_goals
    cases (s.gPool p).lruPrev <;> cases (s.gPool p).lruNext <;>
      by_cases hHead : s.head (s.gPool p).active = some p <;>
      by_cases hTail : s.tail (s.gPool p).active = some p <;> simp [*]

end Fields

/-- The links, ends and lengths of `s` describe the lists `lru`. -/
structure Lru (s : PageCache) (lru : Bool → List ℕ) : Prop where
  linked : ∀ b, DLinked s.lruNexts s.lruPrevs (lru b)
  head : ∀ b, s.head b = (lru b).head?
  tail : ∀ b, s.tail b = (lru b).getLast?
  count : ∀ b, s.listN b = (lru b).length
  nodup : ∀ b, (lru b).Nodup
  flag : ∀ b, ∀ q ∈ lru b, (s.gPool q).active = b

variable {lru : Bool → List ℕ} {p : ℕ}

structure SameLru (s s' : PageCache) : Prop where
  page : ∀ q, (s'.gPool q).lruNext = (s.gPool q).lruNext ∧
    (s'.gPool q).lruPrev = (s.gPool q).lruPrev ∧ (s'.gPool q).active = (s.gPool q).active
  ends : ∀ b, s'.head b = s.head b ∧ s'.tail b = s.tail b ∧ s'.listN b = s.listN b

theorem sameLru_modify (s : PageCache) (p : ℕ) {f : Page → Page}
    (hf : ∀ q, (f q).lruNext = q.lruNext ∧ (f q).lruPrev = q.lruPrev ∧ (f q).active = q.active) :
    SameLru s (s.modify p f) := by
  refine ⟨fun q => ?_, fun _ => ⟨rfl, rfl, rfl⟩⟩
  rw [gPool_modify]
  split_ifs with hq
  · rw [hq]
    exact hf _
  · exact ⟨rfl, rfl, rfl⟩

/-- The lists after a hit on `p`. -/
def touched (lru : Bool → List ℕ) (p : ℕ) : Bool → List ℕ
  | true => (lru true).erase p ++ [p]
  | false => (lru false).erase p

section

variable (h : Lru s lru)
include h

theorem Lru.family : DLists s.lruNexts s.lruPrevs lru :=
  ⟨⟨h.nodup, fun b c q hb hc => (h.flag b q hb).symm.trans (h.flag c q hc)⟩, h.linked⟩

theorem Lru.push (hp : ∀ b, p ∉ lru b) : Lru (s.lruPush (s.gPool p).active p)
      (update lru (s.gPool p).active (lru (s.gPool p).active ++ [p])) := by
  set b := (s.gPool p).active with hb
  have hNexts : (s.lruPush b p).lruNexts = updateAt (update s.lruNexts p none) (s.tail b)
      (some p) := by
    funext q
    simp [lruNexts, gPool_lruPush]
  have hPrevs : (s.lruPush b p).lruPrevs = update s.lruPrevs p (s.tail b) := by
    funext q
    simp [lruPrevs, gPool_lruPush]
  have hActive : ∀ q, ((s.lruPush b p).gPool q).active = (s.gPool q).active := by
    simp [gPool_lruPush]
  have hPushed := h.family.pushBack hp b
  rw [← h.tail, ← hNexts, ← hPrevs] at hPushed
  refine ⟨hPushed.linked, fun c => ?_, fun c => ?_, fun c => ?_, hPushed.nodup,
    fun c q hq => ?_⟩ <;> rcases eq_or_ne c b with rfl | hc
  · rw [update_self, (ends_lruPush s b b p).1, h.head]
    cases lru b <;> simp
  · rw [update_of_ne hc, (ends_lruPush s b c p).1, if_neg fun hEq => hc hEq.1, h.head]
  · rw [update_self, (ends_lruPush s b b p).2]
    simp
  · rw [update_of_ne hc, (ends_lruPush s b c p).2, h.tail, if_neg hc]
  · rw [update_self, listN_lruPush, h.count, if_pos hb]
    simp
  · rw [update_of_ne hc, listN_lruPush, h.count, if_neg (hb ▸ hc)]
  · rw [update_self, mem_append, mem_singleton] at hq
    rw [hActive]
    rcases hq with hq | rfl
    · exact h.flag b q hq
    · exact hb.symm
  · rw [update_of_ne hc] at hq
    rw [hActive]
    exact h.flag c q hq

theorem Lru.flag_ne {b c : Bool} {q : ℕ} (hq : q ∈ lru b) (hc : c ≠ b) :
    q ∉ lru c := fun hq' => hc ((h.flag c q hq').symm.trans (h.flag b q hq))

theorem Lru.unlink {b : Bool} (hp : p ∈ lru b) :
    Lru (s.lruUnlink p) (update lru b ((lru b).erase p)) := by
  have hb : (s.gPool p).active = b := h.flag b p hp
  have hNexts : (s.lruUnlink p).lruNexts =
      update (updateAt s.lruNexts (s.lruPrevs p) (s.lruNexts p)) p none := by
    funext q
    rw [lruNexts, gPool_lruUnlink]
  have hPrevs : (s.lruUnlink p).lruPrevs =
      update (updateAt s.lruPrevs (s.lruNexts p) (s.lruPrevs p)) p none := by
    funext q
    rw [lruPrevs, gPool_lruUnlink]
  have hActive : ∀ q, ((s.lruUnlink p).gPool q).active = (s.gPool q).active := by
    simp [gPool_lruUnlink]
  have hGone := h.family.unlink hp
  rw [← hNexts, ← hPrevs] at hGone
  obtain ⟨hFirst, hLast⟩ := (h.linked b).ends_erase (h.nodup b) hp
  refine ⟨hGone.linked, fun c => ?_, fun c => ?_, fun c => ?_, hGone.nodup, fun c q hq => ?_⟩ <;>
    obtain ⟨hHead, hTail, hCount⟩ := ends_lruUnlink s c p <;> rcases eq_or_ne c b with rfl | hc
  · rw [update_self, hHead, hFirst, h.head, hb]
    simp
  · rw [update_of_ne hc, hHead, if_neg fun hEq => hc (hEq.1.trans hb), h.head]
  · rw [update_self, hTail, hLast, h.tail, hb]
    simp
  · rw [update_of_ne hc, hTail, if_neg fun hEq => hc (hEq.1.trans hb), h.tail]
  · rw [update_self, hCount, if_pos hb.symm, h.count, length_erase_of_mem hp]
  · rw [update_of_ne hc, hCount, if_neg fun hEq => hc (hEq.trans hb), h.count]
  · rw [update_self] at hq
    rw [hActive]
    exact h.flag c q (mem_of_mem_erase hq)
  · rw [update_of_ne hc] at hq
    rw [hActive]
    exact h.flag c q hq

theorem Lru.of_same {s' : PageCache} (hs : SameLru s s') : Lru s' lru where
  linked b := (h.linked b).congr (fun x _ => (hs.page x).1) fun x _ => (hs.page x).2.1
  head b := (hs.ends b).1.trans (h.head b)
  tail b := (hs.ends b).2.1.trans (h.tail b)
  count b := (hs.ends b).2.2.trans (h.count b)
  nodup := h.nodup
  flag b q hq := (hs.page q).2.2.trans (h.flag b q hq)

theorem Lru.modify (hp : ∀ b, p ∉ lru b) (f : Page → Page) : Lru (s.modify p f) lru := by
  have hPage : ∀ b, ∀ q ∈ lru b, (s.modify p f).gPool q = s.gPool q := fun b q hq => by
    have hqp : q ≠ p := fun hEq => hp b (hEq ▸ hq)
    rw [gPool_modify, if_neg hqp]
  refine ⟨fun b => (h.linked b).congr (fun x hx => ?_) fun x hx => ?_, h.head, h.tail, h.count,
    h.nodup, fun b q hq => ?_⟩
  · rw [lruNexts, hPage b x hx, lruNexts]
  · rw [lruPrevs, hPage b x hx, lruPrevs]
  · rw [hPage b q hq]
    exact h.flag b q hq

theorem Lru.erased_notMem {b : Bool} (hp : p ∈ lru b) (c : Bool) :
    p ∉ update lru b ((lru b).erase p) c := by
  rcases eq_or_ne c b with rfl | hc
  · rw [update_self, (h.nodup c).mem_erase_iff]
    exact fun hEq => hEq.1 rfl
  · rw [update_of_ne hc]
    exact h.flag_ne hp hc

theorem Lru.move {b : Bool} (hp : p ∈ lru b) (c : Bool) :
    Lru (((s.lruUnlink p).modify p fun q => { q with active := c }).lruPush c p)
      (update (update lru b ((lru b).erase p)) c (update lru b ((lru b).erase p) c ++ [p])) := by
  have hOut := h.erased_notMem hp
  have hPush := ((h.unlink hp).modify hOut fun q => { q with active := c }).push hOut
  have hc : (((s.lruUnlink p).modify p fun q => { q with active := c }).gPool p).active = c := by
    simp [gPool_modify]
  rwa [hc] at hPush

theorem Lru.touch {b : Bool} (hp : p ∈ lru b) : Lru (s.lruTouch p) (touched lru p) := by
  have hFlag := h.flag b p hp
  cases b with
  | false =>
    have hMove := h.move hp true
    have hTrue : p ∉ lru true := h.flag_ne hp (by decide)
    rw [lruTouch, if_neg (by simp [hFlag])]
    convert hMove using 1
    funext c
    cases c <;> simp [touched, erase_of_not_mem hTrue]
  | true =>
    have hFalse : p ∉ lru false := h.flag_ne hp (by decide)
    rw [lruTouch, if_pos hFlag]
    split
    · rename_i hTail
      -- The page is the last of the active list already.
      have hLast : (lru true).getLast? = some p := (h.tail true).symm.trans hTail
      obtain ⟨a, ha⟩ := getLast?_eq_some_iff.mp hLast
      have hNodup := h.nodup true
      convert h using 1
      funext c
      cases c with
      | false => exact erase_of_not_mem hFalse
      | true =>
        rw [ha] at hNodup ⊢
        simp [touched, ha, erase_of_split hNodup]
    · have hOut := h.erased_notMem hp
      have hPush := (h.unlink hp).push hOut
      rw [show ((s.lruUnlink p).gPool p).active by simpa [gPool_lruUnlink] using hFlag] at hPush
      convert hPush using 1
      funext c
      cases c <;> simp [touched, erase_of_not_mem hFalse]

end

theorem lruTouch_frame (s : PageCache) (p : ℕ) : LruFrame s (s.lruTouch p) := by
  unfold lruTouch
  have hPush : ∀ t, LruFrame s t → LruFrame s (t.lruPush true p) := fun t ht =>
    ht.trans (lruPush_frame t true p)
  split
  · exact LruFrame.ite (.refl s) (hPush _ (lruUnlink_frame s p))
  · exact hPush _ ((lruUnlink_frame s p).trans
      (lruFrame_modify _ p (fun q => { q with active := true }) fun _ => rfl))

/-- The lists after the balance loop moved `n` pages. -/
def demoted (lru : Bool → List ℕ) (n : ℕ) : Bool → List ℕ
  | true => (lru true).drop n
  | false => lru false ++ (lru true).take n

theorem demote_frame (n : ℕ) (s : PageCache) : LruFrame s (demote n s) := by
  induction n generalizing s with
  | zero => exact .refl s
  | succ n ih =>
    unfold demote
    split
    · exact .refl s
    · rename_i p _
      have hOut := (lruUnlink_frame s p).trans
        (lruFrame_modify _ p (fun q => { q with active := false }) fun _ => rfl)
      exact (hOut.trans (lruPush_frame _ false p)).trans (ih _)

theorem Lru.demote (n : ℕ) (h : Lru s lru) (hn : n ≤ (lru true).length) :
    Lru (demote n s) (demoted lru n) := by
  induction n generalizing s lru with
  | zero =>
    have hLists : demoted lru 0 = lru := by
      funext c
      cases c <;> simp [demoted]
    rw [hLists]
    exact h
  | succ n ih =>
    obtain ⟨p, rest, hCons⟩ := exists_cons_of_length_pos (Nat.zero_lt_of_lt hn)
    have hHead : s.gActiveHead = some p := (h.head true).trans (by simp [hCons])
    have hMove := h.move (b := true) (p := p) (by simp [hCons]) false
    have hRun := ih hMove (by simpa [update_apply, hCons] using hn)
    unfold PageCache.demote
    rw [hHead]
    convert hRun using 1
    funext c
    cases c <;> simp [demoted, hCons]

end Gnos.PageCache
