import Gnos.PageCache.Steps

/-! Runs of the page cache: any sequence of calls of its interface from the empty cache on, over any
devices whose calls may fail. -/

namespace Gnos.PageCache

open ProofKit Relation List PageCache Nat

variable {s s' : PageCache} {lru : Bool → List ℕ} {chain : ℕ → List ℕ} {flat : ℕ → Bytes} {p : ℕ}
  {env : Env} {D : Prop} {disk : ℕ → Bytes}

/-- A call of the cache's interface.  Offsets are 64-bit and lengths 32-bit words. -/
inductive Op
  | read (ctx : ℕ) (rd : Bool) (off len : ℕ) (hOff : off < 2 ^ 64) (hLen : len < 2 ^ 32)
  | write (ctx : ℕ) (wr : Bool) (off : ℕ) (buf : List (BitVec 8)) (hOff : off < 2 ^ 64)
      (hLen : buf.length < 2 ^ 32)
  | flushCtx (ctx : ℕ)
  | flushAll
  | invalidate (ctx : ℕ)

def exec (env : Env) (s : PageCache) : Op → PageCache
  | .read ctx rd off len _ _ => (s.read env ctx rd off len).2.2
  | .write ctx wr off buf _ _ => (s.write env ctx wr off buf).2
  | .flushCtx ctx => (s.flushCtx env ctx).2
  | .flushAll => (s.flushAll env).2
  | .invalidate ctx => (s.invalidate env ctx).2

/-- The byte arrays of the devices after a call: a write puts down the bytes that it accepted. -/
def contents (env : Env) (s : PageCache) (flat : ℕ → Bytes) : Op → ℕ → Bytes
  | .write ctx wr off buf _ _ =>
    if ctx = 0 ∨ ¬wr then flat
    else overlay flat ctx off (buf.take (writeLoop env ctx off buf buf.length 0 s).1)
  | _ => flat

/-- The states that allowed calls lead to from the empty cache over the devices `disk`, with the
bytes that the devices' clients have written. -/
inductive Reach (env : Env) (allowed : PageCache → Op → Prop) (disk : ℕ → Bytes) :
    PageCache → (ℕ → Bytes) → Prop
  | init : Reach env allowed disk { disk } disk
  | step {s : PageCache} {flat : ℕ → Bytes} (h : Reach env allowed disk s flat) (op : Op)
      (ha : allowed s op) : Reach env allowed disk (exec env s op) (contents env s flat op)

variable {allowed : PageCache → Op → Prop}

theorem good_init (disk : ℕ → Bytes) : Good { disk } (fun _ => []) (fun _ => []) disk where
  inv :=
    { lists :=
        { linked := fun _ => dlinked_nil _ _
          head := fun b => by cases b <;> rfl
          tail := fun b => by cases b <;> rfl
          count := fun b => by cases b <;> rfl
          nodup := fun _ => nodup_nil
          flag := fun _ q hq => by simp at hq }
      hash :=
        { linked := fun _ => linked_nil _
          bucket := fun _ => rfl
          nodup := fun _ => nodup_nil
          home := fun _ q hq => by simp at hq
          short := fun _ => zero_le _ }
      mem := by simp [Listed]
      used := by simp [Listed]
      bound := zero_le _
      key := by simp [Listed]
      aligned := by simp [Listed] }
  data :=
    { wr := by simp
      clean := by simp
      dirtyN := by simp
      page := by simp [Listed]
      disk := fun _ _ => .inl rfl
      held := by simp }

/-- A call that is not an invalidation, or one that finds nothing to throw away. -/
def KeepsPages (s : PageCache) : Op → Prop
  | .invalidate ctx => ∀ q, s.Cached q → (s.gPool q).ctx ≠ ctx
  | _ => True

theorem path_exec (op : Op) (h : Good s lru chain flat) (hD : D ∨ KeepsPages s op) :
    Path env D (s, flat) (exec env s op, contents env s flat op) := by
  cases op with
  | read ctx rd off len =>
    have hLoop := path_readLoop (D := D) env ctx off len len 0 s flat
    unfold exec contents read
    dsimp only
    split
    · exact .refl
    · generalize readLoop env ctx off len len 0 s = result at hLoop ⊢
      obtain ⟨r, t⟩ := result
      cases r <;> exact hLoop
  | write ctx wr off buf hOff hLen =>
    unfold exec contents write
    dsimp only
    split
    · exact .refl
    · have hZero : overlay flat ctx off (buf.take 0) = flat := by
        funext c a
        simp [overlay]
      have hLoop := path_writeLoop (D := D) flat env ctx off buf hOff
        (hLen.trans (by decide)) buf.length 0 (zero_le _) s ⟨lru, chain, hZero.symm ▸ h⟩
      rw [hZero] at hLoop
      exact hLoop
  | flushCtx ctx => exact path_flushBuckets env _ _ s flat
  | flushAll => exact path_flushBuckets env _ _ s flat
  | invalidate ctx =>
    rcases hD with hD | hNone
    · exact path_invalidateBuckets hD ctx _ s ⟨lru, chain, h⟩
    · have hSame := h.invalidateBuckets_eq_self env hNone (range pcBuckets)
      rw [exec, invalidate, hSame]
      exact .refl

theorem Reach.path (h : Reach env allowed disk s flat)
    (hD : ∀ s op, allowed s op → D ∨ KeepsPages s op) : Path env D ({ disk }, disk) (s, flat) := by
  induction h with
  | init => exact .refl
  | step h op ha ih =>
    obtain ⟨lru, chain, hGood⟩ := Path.good ih ⟨_, _, good_init disk⟩
    exact ih.trans (path_exec op hGood (hD _ op ha))

theorem Reach.good (h : Reach env allowed disk s flat) :
    ∃ lru chain, Good s lru chain flat :=
  Path.good (h.path (D := True) fun _ _ _ => .inl trivial) ⟨_, _, good_init disk⟩

def lruList (s : PageCache) (active : Bool) : List ℕ :=
  walk s.lruNexts (pcPages + 1) (s.head active)

def hashList (s : PageCache) (b : ℕ) : List ℕ := walk s.nexts (pcPages + 1) (s.gBucket b)

/-- The recency lists, the hash table and the counters agree. -/
structure ListsAgree (s : PageCache) : Prop where
  nodup : ∀ b, (s.lruList b).Nodup
  used : ∀ b, ∀ q ∈ s.lruList b, q < s.gUsed
  hashed : ∀ b, ∀ q ∈ s.hashList b, q ∈ s.lruList (s.gPool q).active
  activeN : s.gActiveN = (s.lruList true).length
  inactiveN : s.gInactiveN = (s.lruList false).length
  dirtyN : s.gDirtyN = ((Finset.range pcPages).filter fun q => (s.gPool q).dirty).card

def noFailures : Env where
  read _ := none
  write _ := none
  frame _ := true

def noFrames : Env where
  read _ := none
  write _ := none
  frame _ := false

/-- A read without a frame for its page uses up a slot that is on no list. -/
theorem slot_lost_without_frame : Reach noFrames (fun _ _ => True) (fun _ _ => 0)
        (exec noFrames { disk := fun _ _ => 0 } (.read 1 true 0 1 (by decide) (by decide)))
        (fun _ _ => 0) ∧
      0 < (exec noFrames { disk := fun _ _ => 0 }
      (.read 1 true 0 1 (by decide) (by decide))).gUsed ∧
      0 ∉ (exec noFrames { disk := fun _ _ => 0 }
      (.read 1 true 0 1 (by decide) (by decide))).lruList true ∧
      0 ∉ (exec noFrames { disk := fun _ _ => 0 }
        (.read 1 true 0 1 (by decide) (by decide))).lruList false := by
  have hState : exec noFrames { disk := fun _ _ => 0 } (.read 1 true 0 1 (by decide) (by decide)) =
      claim { disk := fun _ _ => 0 } := by
    simp [exec, read, readLoop, lookup, hashFind, hashFindFrom, fetch, pageAlloc, noFrames, pcPages]
  refine ⟨.step .init _ trivial, ?_⟩
  rw [hState]
  exact ⟨Nat.one_pos, not_mem_nil, not_mem_nil⟩

section

variable (h : Good s lru chain flat) {pick : Page → Bool}
include h

theorem Good.flushChain (env : Env) (hPick : ∀ q d, pick { q with dirty := d } = pick q)
    (fuel : ℕ) (l : List ℕ) (hl : Linked s.nexts l) (hFuel : l.length < fuel) :
    let r := flushChain env pick fuel l.head? s
    Good r.2 lru chain flat ∧ FlushFrame s r.2 ∧
      (r.1 → ∀ q ∈ l, pick (s.gPool q) → (r.2.gPool q).dirty = false) := by
  induction l generalizing fuel s with
  | nil =>
    cases fuel with
    | zero => simp at hFuel
    | succ fuel => exact ⟨h, .refl s, by simp⟩
  | cons p l ih =>
    cases fuel with
    | zero => simp at hFuel
    | succ fuel =>
      -- The rest of the chain, from the state that `p` leaves.
      have hRest : ∀ t : PageCache, Good t lru chain flat → FlushFrame s t →
          let r := flushChain env pick fuel (t.gPool p).next t
          Good r.2 lru chain flat ∧ FlushFrame s r.2 ∧ FlushFrame t r.2 ∧
            (r.1 → ∀ q ∈ l, pick (s.gPool q) → (r.2.gPool q).dirty = false) := by
        intro t ht hf
        have hNext : (t.gPool p).next = l.head? := (hf.sameHash.page p).1.trans hl.head
        rw [hNext]
        obtain ⟨hGood, hFrame, hDone⟩ := ih ht fuel
          (hl.tail.congr fun x _ => (hf.sameHash.page x).1) (by simpa using hFuel)
        refine ⟨hGood, hf.trans hFrame, hFrame, fun hOk q hq hp => hDone hOk q hq ?_⟩
        rw [hf.page q, hPick]
        exact hp
      rw [head?_cons, flushChain]
      split_ifs with hDirty
      · obtain ⟨hGood, hFrame, hClean, -⟩ := h.pageFlushOne env hDirty.2
        generalize s.pageFlushOne env p = result at hGood hFrame hClean ⊢
        obtain ⟨ok, t⟩ := result
        obtain ⟨hGood', hFrame', hLater, hDone⟩ := hRest t hGood hFrame
        refine ⟨hGood', hFrame', fun hOk q hq hp => ?_⟩
        obtain ⟨rfl, hOk'⟩ := Bool.and_eq_true_iff.mp hOk
        rcases mem_cons.mp hq with rfl | hq
        · exact hLater.clean q (hClean rfl)
        · exact hDone hOk' q hq hp
      · obtain ⟨hGood', hFrame', hLater, hDone⟩ := hRest s h (.refl s)
        refine ⟨hGood', hFrame', fun hOk q hq hp => ?_⟩
        rcases mem_cons.mp hq with rfl | hq
        · exact hLater.clean q (by simpa [hp] using hDirty)
        · exact hDone hOk q hq hp

theorem Good.flushBuckets (env : Env)
    (hPick : ∀ q d, pick { q with dirty := d } = pick q) (bs : List ℕ) :
    let r := flushBuckets env pick bs s
    Good r.2 lru chain flat ∧ FlushFrame s r.2 ∧
      (r.1 → ∀ b ∈ bs, ∀ q ∈ chain b, pick (s.gPool q) → (r.2.gPool q).dirty = false) := by
  induction bs generalizing s with
  | nil => exact ⟨h, .refl s, by simp⟩
  | cons b bs ih =>
    have hChain := h.flushChain env hPick (pcPages + 1) (chain b) (h.inv.hash.linked b)
      (lt_succ_of_le (h.inv.hash.short b))
    rw [← h.inv.hash.bucket b] at hChain
    rw [flushBuckets]
    generalize PageCache.flushChain env pick (pcPages + 1) (s.gBucket b) s = result at hChain ⊢
    obtain ⟨ok, t⟩ := result
    obtain ⟨hGood, hFrame, hDone⟩ := hChain
    obtain ⟨hGood', hFrame', hDone'⟩ := ih hGood
    refine ⟨hGood', hFrame.trans hFrame', fun hOk c hc q hq hp => ?_⟩
    obtain ⟨rfl, hOk'⟩ := Bool.and_eq_true_iff.mp hOk
    rcases mem_cons.mp hc with rfl | hc
    · exact hFrame'.clean q (hDone rfl q hq hp)
    · refine hDone' hOk' c hc q hq ?_
      rw [hFrame.page q, hPick]
      exact hp

theorem Good.lruList_eq (b : Bool) : s.lruList b = lru b := by
  rw [lruList, h.inv.lists.head]
  exact (h.inv.lists.linked b).linked.walk_eq (le_succ_of_le (h.inv.lists_short b))

theorem Good.hashList_eq (b : ℕ) : s.hashList b = chain b := by
  rw [hashList, h.inv.hash.bucket]
  exact (h.inv.hash.linked b).walk_eq (le_succ_of_le (h.inv.hash.short b))

theorem Good.listsAgree : ListsAgree s where
  nodup b := by
    rw [h.lruList_eq]
    exact h.inv.lists.nodup b
  used b q hq := by
    rw [h.lruList_eq] at hq
    exact h.inv.used q ⟨b, hq⟩
  hashed b q hq := by
    rw [h.hashList_eq] at hq
    obtain ⟨c, hc⟩ := h.inv.listed_of_mem hq
    rwa [h.lruList_eq, h.inv.lists.flag c q hc]
  activeN := by
    rw [h.lruList_eq]
    exact h.inv.lists.count true
  inactiveN := by
    rw [h.lruList_eq]
    exact h.inv.lists.count false
  dirtyN := h.data.dirtyN

end

/-- In every run the lists, the hash table and the counters agree; and in a run in which device
reads and frame allocations succeed and no invalidation finds a page, every slot that counts as used
is on exactly one list. -/
theorem slots_stay_linked {allowed : PageCache → Op → Prop} (h : Reach env allowed disk s flat) :
    ListsAgree s ∧ ((∀ n, env.read n = none) → (∀ n, env.frame n = true) →
      (∀ s op, allowed s op → KeepsPages s op) →
      ∀ q < s.gUsed, Xor (q ∈ s.lruList true) (q ∈ s.lruList false)) := by
  obtain ⟨lru, chain, hGood⟩ := h.good
  refine ⟨hGood.listsAgree, fun hRead hFrame hKeeps q hq => ?_⟩
  have hPath := h.path (D := False) fun s op ha => .inr (hKeeps s op ha)
  have hAll := Path.allCached hPath hRead hFrame ⟨_, _, good_init disk⟩ fun q hq =>
    absurd hq (not_lt_zero q)
  obtain ⟨b, hb⟩ := hGood.inv.cached_iff.mp (hAll q hq)
  rw [hGood.lruList_eq, hGood.lruList_eq]
  cases b with
  | true => exact .inl ⟨hb, hGood.inv.lists.flag_ne hb (by decide)⟩
  | false => exact .inr ⟨hb, hGood.inv.lists.flag_ne hb (by decide)⟩

/-- Two bytes over a page boundary are read, a byte before them and both of them are written, the
device is flushed, and the first byte is written again. -/
def busy : List Op :=
  [.read 1 true 4095 2 (by decide) (by decide), .write 1 true 5 [7] (by decide) (by decide),
    .write 1 true 4095 [8, 9] (by decide) (by decide), .flushCtx 1,
    .write 1 true 5 [6] (by decide) (by decide)]

/-- The cache after the calls, and the bytes of its devices. -/
def busyRun : PageCache × (ℕ → Bytes) :=
  busy.foldl (fun x op => (exec noFailures x.1 op, contents noFailures x.1 x.2 op))
    ({ disk := fun _ _ => 0 }, fun _ _ => 0)

def busyCache : PageCache := busyRun.1

theorem busyRun_reach : Reach noFailures KeepsPages (fun _ _ => 0) busyCache busyRun.2 := by
  have hOps : ∀ op ∈ busy, ∀ s, KeepsPages s op := by simp [busy, KeepsPages]
  exact foldlRecOn (motive := fun x : PageCache × (ℕ → Bytes) =>
    Reach noFailures KeepsPages (fun _ _ => 0) x.1 x.2) busy _ .init fun x h op hOp =>
      h.step op (hOps op hOp x.1)

theorem slots_stay_linked_busy : 1 < busyCache.gUsed ∧
    ∀ q < busyCache.gUsed, Xor (q ∈ busyCache.lruList true) (q ∈ busyCache.lruList false) := by
  have hReach := busyRun_reach
  have hUsed : 1 < busyCache.gUsed := by decide +kernel
  exact ⟨hUsed, (slots_stay_linked hReach).2 (fun _ => rfl) (fun _ => rfl) fun _ _ h => h⟩

end Gnos.PageCache
