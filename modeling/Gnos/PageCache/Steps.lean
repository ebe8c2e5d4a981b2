import Gnos.PageCache.Fetch

/-! What the public operations do to the cache, as steps of six kinds.  Whatever every step keeps is
kept by every operation. -/

namespace Gnos.PageCache

open ProofKit Relation List

variable {s s' : PageCache} {lru lru' : Bool → List ℕ} {chain : ℕ → List ℕ} {flat flat' : ℕ → Bytes}
  {c c' : PageCache × (ℕ → Bytes)} {p ctx : ℕ} {env : Env} {D : Prop}

structure RaFrame (s s' : PageCache) : Prop where
  page : ∀ q, s'.gPool q = { s.gPool q with ra := (s'.gPool q).ra }
  rest : s' = { s with gPool := s'.gPool, gRa := s'.gRa, gRaVictim := s'.gRaVictim }

/-- A step of the cache beside the contents that its clients have written.  `D` says whether
`pagecache_invalidate` may throw pages away. -/
inductive Step (env : Env) (D : Prop) :
    PageCache × (ℕ → Bytes) → PageCache × (ℕ → Bytes) → Prop
  | touch {s : PageCache} {flat : ℕ → Bytes} {ctx off p : ℕ} (hFind : s.hashFind ctx off = some p) :
      Step env D (s, flat) (s.lruTouch p, flat)
  | fetch {s : PageCache} {flat : ℕ → Bytes} {ctx off : ℕ} (hAligned : pcPage ∣ off)
      (hMiss : s.hashFind ctx off = none) : Step env D (s, flat) ((s.fetch env ctx off).2, flat)
  | readahead {s s' : PageCache} {flat : ℕ → Bytes} (h : RaFrame s s') :
      Step env D (s, flat) (s', flat)
  | store {s : PageCache} {flat : ℕ → Bytes} {ctx p pos : ℕ} {bytes : List (BitVec 8)}
      (hFind : s.hashFind ctx (pageOf pos) = some p) (hPos : pos < 2 ^ 64)
      (hLen : pos % pcPage + bytes.length ≤ pcPage) :
      Step env D (s, flat) (s.storeBytes ctx p pos bytes, overlay flat ctx pos bytes)
  | flush {s : PageCache} {flat : ℕ → Bytes} {p : ℕ} (hd : (s.gPool p).dirty) :
      Step env D (s, flat) ((s.pageFlushOne env p).2, flat)
  | discard {s : PageCache} {flat : ℕ → Bytes} {p : ℕ} (hD : D) (hp : s.Cached p)
      (hd : (s.gPool p).dirty = false) :
      Step env D (s, flat) ((s.drop p).modify p fun q => { q with ctx := 0 }, flat)

theorem RaFrame.good (h : RaFrame s s') (hg : Good s lru chain flat) : Good s' lru chain flat := by
  have hData : SameData s s' := by
    refine ⟨fun q => ?_, ?_, ?_, ?_⟩
    · rw [h.page q]
      exact ⟨rfl, rfl, rfl, rfl, rfl⟩
    all_goals rw [h.rest]
  refine ⟨hg.inv.of_same ⟨fun q => ?_, fun b => ?_⟩ ⟨fun q => ?_, ?_⟩ ?_,
    hg.data.of_same hData (fun _ hq => hq) fun _ hq _ => hq⟩
  · rw [h.page q]
    exact ⟨rfl, rfl, rfl⟩
  · rw [h.rest]
    exact ⟨rfl, rfl, rfl⟩
  · rw [h.page q]
    exact ⟨rfl, rfl, rfl⟩
  all_goals rw [h.rest]

abbrev Path (env : Env) (D : Prop) := ReflTransGen (Step env D)

def AllCached (s : PageCache) : Prop := ∀ q < s.gUsed, s.Cached q

section

variable (h : Good s lru chain flat)
include h

theorem Good.store {pos : ℕ} {bytes : List (BitVec 8)}
    (hFind : s.hashFind ctx (pageOf pos) = some p)
    (hPos : pos < 2 ^ 64) (hLen : pos % pcPage + bytes.length ≤ pcPage) :
    Good (s.storeBytes ctx p pos bytes) lru chain (overlay flat ctx pos bytes) := by
  obtain ⟨hp, hCtx, hOff⟩ := h.inv.hashFind_eq_some.mp hFind
  refine ⟨h.inv.of_same ⟨fun q => ?_, fun b => ?_⟩ ⟨fun q => ?_, ?_⟩ ?_,
    h.data.store hp (h.inv.listed_lt hp) hCtx hOff hPos hLen h.inv.aligned fun q hq =>
    h.inv.key q p hq hp⟩
  · by_cases hq : q = p <;> simp [gPool_storeBytes, hq]
  · rw [rest_storeBytes]
    exact ⟨rfl, rfl, rfl⟩
  · by_cases hq : q = p <;> simp [gPool_storeBytes, hq]
  all_goals rw [rest_storeBytes]

theorem Good.discard (hp : s.Cached p) (hd : (s.gPool p).dirty = false) :
    Good ((s.drop p).modify p fun q => { q with ctx := 0 }) (fun b => (lru b).erase p)
      (fun b => (chain b).erase p) flat := by
  have hDrop := h.drop (h.inv.cached_iff.mp hp) hd
  have hOut : ¬Listed (fun b => (lru b).erase p) p := fun hm =>
    ((listed_erase h.inv.lists.nodup p).mp hm).2 rfl
  have hClean : ((s.drop p).gPool p).dirty = false := ((drop_sameData s p).page p).2.2.1.trans hd
  exact ⟨hDrop.inv.modify hOut _, hDrop.data.modify hOut hClean⟩

theorem Good.allCached_of_listed {chain' : ℕ → List ℕ} (h' : Good s' lru' chain' flat')
    (hAll : s.AllCached)
    (hUsed : s'.gUsed = s.gUsed) (hSub : ∀ q, Listed lru q → Listed lru' q) : s'.AllCached :=
  fun q hq => h'.inv.cached_iff.mpr (hSub q (h.inv.cached_iff.mp (hAll q (hUsed ▸ hq))))

end

section

variable (hs : Step env D c c') (h : Good c.1 lru chain c.2)
include hs h

theorem Step.good : ∃ lru' chain', Good c'.1 lru' chain' c'.2 := by
  cases hs with
  | touch hFind => exact ⟨_, _, h.touch (h.inv.hashFind_eq_some.mp hFind).1⟩
  | fetch hAligned hMiss =>
    obtain ⟨lru', chain', hGood, -⟩ := (h.fetch env hAligned hMiss).lists
    exact ⟨lru', chain', hGood⟩
  | readahead hr => exact ⟨_, _, hr.good h⟩
  | store hFind hPos hLen => exact ⟨_, _, h.store hFind hPos hLen⟩
  | flush hd => exact ⟨_, _, (h.pageFlushOne env hd).1⟩
  | discard _ hp hd => exact ⟨_, _, h.discard hp hd⟩

theorem Step.keeps : Keeps c.1 c'.1 := by
  cases hs with
  | touch => exact (lruTouch_frame _ _).sameData.keeps
  | fetch hAligned hMiss => exact (h.fetch env hAligned hMiss).keeps
  | readahead hr =>
    refine .of_dirty (by rw [hr.rest]) fun q hq => ?_
    rw [hr.page q]
    exact ⟨hq, rfl, rfl⟩
  | store => exact storeBytes_keeps _ _ _ _ _
  | flush hd => exact (h.pageFlushOne env hd).2.2.2.2
  | @discard s _ p _ _ hd =>
    refine (drop_sameData s p).keeps.trans (.of_dirty rfl fun q hq => ?_)
    have hqp : q ≠ p := by
      rintro rfl
      rw [((drop_sameData s q).page q).2.2.1, hd] at hq
      cases hq
    rw [gPool_modify, if_neg hqp]
    exact ⟨hq, rfl, rfl⟩

end

section

variable (hp : Path env D c c') (h : ∃ lru chain, Good c.1 lru chain c.2)
include hp h

theorem Path.good : ∃ lru chain, Good c'.1 lru chain c'.2 := by
  induction hp with
  | refl => exact h
  | tail _ hs ih =>
    obtain ⟨lru, chain, hGood⟩ := ih
    exact hs.good hGood

theorem Path.keeps : Keeps c.1 c'.1 := by
  induction hp with
  | refl => exact .of_dirty rfl fun q hq => ⟨hq, rfl, rfl⟩
  | tail hPre hs ih =>
    obtain ⟨lru, chain, hGood⟩ := Path.good hPre h
    exact ih.trans (hs.keeps hGood)

end

theorem Slot.listed {used : ℕ} (h : Slot env s lru p lru' used) (hn : ∀ b, (balanced s lru b).Nodup)
    (hAll : ∀ q < s.gUsed, Listed lru q) : ∀ q < used, Listed lru' q := by
  intro q hq
  cases h with
  | fresh =>
    refine (listed_pushed q).mpr ?_
    rcases Nat.lt_succ_iff_lt_or_eq.mp hq with hlt | rfl
    · exact .inl (hAll q hlt)
    · exact .inr rfl
  | reclaimed =>
    rw [listed_pushed, listed_erase hn, listed_balanced]
    by_cases hqp : q = p
    · exact .inr hqp
    · exact .inl ⟨hAll q hq, hqp⟩

theorem Fetched.listed {r : Option ℕ} {used : ℕ} (h : Fetched env s lru r lru' used)
    (hRead : ∀ n, env.read n = none) (hFrame : ∀ n, env.frame n)
    (hn : ∀ b, (balanced s lru b).Nodup) (hAll : ∀ q < s.gUsed, Listed lru q) :
    ∀ q < used, Listed lru' q := by
  cases h with
  | noFrame _ hf => exact absurd (hFrame s.clock) (by simp [hf])
  | owed => exact fun q hq => (listed_balanced q).mpr (hAll q hq)
  | loaded hSlot => exact hSlot.listed hn hAll
  | failed _ hr => exact absurd hr (by simp [hRead])

theorem Step.allCached (hs : Step env False c c') (hRead : ∀ n, env.read n = none)
    (hFrame : ∀ n, env.frame n) (h : Good c.1 lru chain c.2) (hAll : c.1.AllCached) :
    c'.1.AllCached := by
  cases hs with
  | touch hFind =>
    obtain ⟨⟨b, hb⟩, -⟩ := h.inv.hashFind_eq_some.mp hFind
    exact h.allCached_of_listed (h.touch ⟨b, hb⟩) hAll (lruTouch_frame _ _).used
      fun q => (listed_touched hb q).mpr
  | fetch hAligned hMiss =>
    obtain ⟨lru', chain', hGood, hOutcome⟩ := (h.fetch env hAligned hMiss).lists
    have hListed := fun q hq => h.inv.cached_iff.mp (hAll q hq)
    have hDone := hOutcome.listed hRead hFrame h.balance.inv.lists.nodup hListed
    exact fun q hq => hGood.inv.cached_iff.mpr (hDone q hq)
  | readahead hr => exact h.allCached_of_listed (hr.good h) hAll (by rw [hr.rest]) fun _ hq => hq
  | store hFind hPos hLen =>
    exact h.allCached_of_listed (h.store hFind hPos hLen) hAll (by rw [rest_storeBytes])
      fun _ hq => hq
  | flush hd =>
    obtain ⟨hGood, hFlush, -⟩ := h.pageFlushOne env hd
    exact h.allCached_of_listed hGood hAll (by rw [hFlush.rest]) fun _ hq => hq
  | discard hD => exact hD.elim

theorem Path.allCached (hp : Path env False c c') (hRead : ∀ n, env.read n = none)
    (hFrame : ∀ n, env.frame n) (h : ∃ lru chain, Good c.1 lru chain c.2)
    (hAll : c.1.AllCached) : c'.1.AllCached := by
  induction hp with
  | refl => exact hAll
  | tail hPre hs ih =>
    obtain ⟨lru, chain, hGood⟩ := Path.good hPre h
    exact hs.allCached hRead hFrame hGood ih

section

variable (s)

theorem raFrame_modify (p : ℕ) (v : Bool) : RaFrame s (s.modify p fun q => { q with ra := v }) := by
  refine ⟨fun q => ?_, rfl⟩
  by_cases hq : q = p <;> simp [gPool_modify, hq]

theorem raFrame_setRa (i : ℕ) (f : RaState → RaState) : RaFrame s (s.setRa i f) :=
  ⟨fun _ => rfl, rfl⟩

theorem raFrame_raGet (ctx : ℕ) : RaFrame s (s.raGet ctx).2 := by
  unfold raGet
  cases s.raFind ctx with
  | some i => exact ⟨fun _ => rfl, rfl⟩
  | none =>
    cases (range raTable).find? fun i => !(s.gRa i).inUse <;> exact ⟨fun _ => rfl, rfl⟩

theorem gPool_raGet (ctx : ℕ) : (s.raGet ctx).2.gPool = s.gPool := by
  unfold raGet
  cases s.raFind ctx with
  | some i => rfl
  | none => cases (range raTable).find? fun i => !(s.gRa i).inUse <;> rfl

theorem raFrame_raConsume (r p : ℕ) : RaFrame s (s.raConsume r p) := by
  unfold raConsume
  split
  · dsimp only
    split
    · exact ⟨(raFrame_modify s p false).page, rfl⟩
    · exact raFrame_modify s p false
  · exact ⟨fun _ => rfl, rfl⟩

end

theorem Path.ra (h : RaFrame s s') : Path env D (s, flat) (s', flat) := .single (.readahead h)

section

variable (env)

theorem path_raIssue (ctx start i n : ℕ) (s : PageCache) (flat : ℕ → Bytes) :
    Path env D (s, flat) (raIssue env ctx start i n s, flat) := by
  induction n generalizing i s with
  | zero => exact .refl
  | succ n ih =>
    rw [raIssue]
    cases hFind : s.hashFind ctx ((start + i) * pcPage % 2 ^ 64) with
    | some _ => exact ih (i + 1) s
    | none =>
      have hAligned : pcPage ∣ (start + i) * pcPage % 2 ^ 64 := by
        refine (Nat.dvd_mod_iff ?_).mpr (Nat.dvd_mul_left _ _)
        decide
      have hFetch :
          Path env D (s, flat) ((s.fetch env ctx ((start + i) * pcPage % 2 ^ 64)).2, flat) :=
        .single (.fetch hAligned hFind)
      generalize s.fetch env ctx ((start + i) * pcPage % 2 ^ 64) = result at hFetch ⊢
      obtain ⟨r, t⟩ := result
      cases r with
      | none => exact hFetch
      | some p => exact (hFetch.trans (Path.ra (raFrame_modify t p true))).trans (ih (i + 1) _)

theorem path_raAdvance (ctx r idx : ℕ) (s : PageCache) (flat : ℕ → Bytes) :
    Path env D (s, flat) (s.raAdvance env ctx r idx, flat) := by
  unfold raAdvance
  split
  · exact path_raIssue env ctx idx 1 _ s flat
  · split
    · exact Path.ra (raFrame_setRa s r _)
    · exact .refl

theorem path_readahead (ctx p idx : ℕ) (s : PageCache) (flat : ℕ → Bytes) :
    Path env D (s, flat) (s.readahead env ctx p idx, flat) := by
  have hGet : Path env D (s, flat) ((s.raGet ctx).2, flat) := Path.ra (raFrame_raGet s ctx)
  exact ((hGet.trans (Path.ra (raFrame_raConsume _ (s.raGet ctx).1 p))).trans
    (path_raAdvance env ctx (s.raGet ctx).1 idx _ flat)).trans
    (Path.ra (raFrame_setRa _ (s.raGet ctx).1 fun r => { r with lastPage := idx }))

theorem path_lookup (ctx pos : ℕ) (s : PageCache) (flat : ℕ → Bytes) :
    Path env D (s, flat) ((s.lookup env ctx (pageOf pos)).2, flat) := by
  unfold lookup
  cases hFind : s.hashFind ctx (pageOf pos) with
  | some p => exact .single (.touch hFind)
  | none => exact .single (.fetch (pcPage_dvd_pageOf pos) hFind)

theorem path_readLoop (ctx off len fuel done : ℕ) (s : PageCache) (flat : ℕ → Bytes) :
    Path env D (s, flat) ((readLoop env ctx off len fuel done s).2, flat) := by
  induction fuel generalizing done s with
  | zero => exact .refl
  | succ fuel ih =>
    rw [readLoop]
    split
    · exact .refl
    · have hLookup := path_lookup (D := D) env ctx (add64 off done) s flat
      dsimp only
      generalize s.lookup env ctx (pageOf (add64 off done)) = result at hLookup ⊢
      obtain ⟨r, t⟩ := result
      cases r with
      | none => exact hLookup
      | some p =>
        have hNext := hLookup.trans ((path_readahead env ctx p (pageOf (add64 off done) / pcPage) t
          flat).trans (ih (done + min (len - done) (pcPage - add64 off done % pcPage)) _))
        dsimp only
        generalize readLoop env ctx off len fuel _ _ = result' at hNext ⊢
        obtain ⟨r', t'⟩ := result'
        cases r' <;> exact hNext

theorem path_lookupForWrite (ctx pos : ℕ) (s : PageCache) (flat : ℕ → Bytes) :
    Path env D (s, flat) ((s.lookupForWrite env ctx (pageOf pos)).2, flat) := by
  unfold lookupForWrite
  cases hFind : s.hashFind ctx (pageOf pos) with
  | some p => exact .refl
  | none => exact .single (.fetch (pcPage_dvd_pageOf pos) hFind)

end

theorem overlay_append {off done n : ℕ} {buf : List (BitVec 8)} (hOff : off < 2 ^ 64)
    (hDone : done + n ≤ buf.length) (hLen : buf.length < 2 ^ 64) :
    overlay (overlay flat ctx off (buf.take done)) ctx (add64 off done) ((buf.drop done).take n) =
      overlay flat ctx off (buf.take (done + n)) := by
  funext c a
  unfold overlay
  by_cases hc : c = ctx ∧ a < 2 ^ 64
  · simp only [if_pos hc]
    -- The index of `a` in the buffer, and in the part that is written now.
    have hIndex : sub64 a (add64 off done) =
        if done ≤ sub64 a off then sub64 a off - done else sub64 a off + 2 ^ 64 - done := by
      simp only [sub64_eq, add64_eq]
      split <;> omega
    have hlt : sub64 a off < 2 ^ 64 := by
      rw [sub64_eq]
      exact Nat.mod_lt _ (by decide)
    rw [hIndex]
    generalize sub64 a off = k at hlt ⊢
    by_cases hk : done ≤ k
    · rw [if_pos hk]
      by_cases hkn : k < done + n
      · rw [getElem?_take_of_lt (by omega), getElem?_drop, Nat.add_sub_cancel' hk,
          getElem?_take_of_lt hkn, getElem?_eq_getElem (by omega)]
        rfl
      · rw [getElem?_eq_none (by simp; omega), getElem?_eq_none (by simp; omega),
          getElem?_eq_none (by simp; omega)]
        rfl
    · rw [if_neg hk, getElem?_eq_none (by simp; omega), getElem?_take_of_lt (by omega),
        getElem?_take_of_lt (by omega)]
      rfl
  · simp only [if_neg hc]

theorem path_flushChain (env : Env) (pick : Page → Bool) (fuel : ℕ) (o : Option ℕ) (s : PageCache)
    (flat : ℕ → Bytes) : Path env D (s, flat) ((flushChain env pick fuel o s).2, flat) := by
  induction fuel generalizing o s with
  | zero => exact .refl
  | succ fuel ih =>
    cases o with
    | none => exact .refl
    | some p =>
      rw [flushChain]
      split_ifs with hPick
      · exact ReflTransGen.head (.flush hPick.2) (ih _ _)
      · exact ih _ s

theorem path_flushBuckets (env : Env) (pick : Page → Bool) (bs : List ℕ) (s : PageCache)
    (flat : ℕ → Bytes) : Path env D (s, flat) ((flushBuckets env pick bs s).2, flat) := by
  induction bs generalizing s with
  | nil => exact .refl
  | cons b bs ih => exact (path_flushChain env pick _ _ s flat).trans (ih _)

theorem invalidateChain_eq_self (ctx fuel : ℕ) (l : List ℕ) (hl : Linked s.nexts l)
    (hNone : ∀ q ∈ l, (s.gPool q).ctx ≠ ctx) :
    invalidateChain env ctx fuel l.head? s = (true, s) := by
  induction l generalizing fuel with
  | nil => cases fuel <;> rfl
  | cons p l ih =>
    cases fuel with
    | zero => rfl
    | succ fuel =>
      have hNext : (s.gPool p).next = l.head? := hl.head
      rw [head?_cons, invalidateChain, if_neg (hNone p (by simp)), hNext]
      exact ih fuel hl.tail fun q hq => hNone q (by simp [hq])

section

variable (h : Good s lru chain flat)
include h

theorem Good.lookupForWrite (env : Env) (ctx pos p : ℕ)
    (hp : (s.lookupForWrite env ctx (pageOf pos)).1 = some p) :
    (s.lookupForWrite env ctx (pageOf pos)).2.hashFind ctx (pageOf pos) = some p := by
  unfold PageCache.lookupForWrite at hp ⊢
  cases hFind : s.hashFind ctx (pageOf pos) with
  | some q =>
    simp only [hFind] at hp ⊢
    exact hp
  | none =>
    simp only [hFind] at hp ⊢
    exact ((h.fetch env (pcPage_dvd_pageOf pos) hFind).own p hp).1

theorem Good.invalidateOne (env : Env) {b : ℕ} {pre l : List ℕ} (hl : chain b = pre ++ p :: l)
    (hD : D) : Path env D (s, flat) ((s.invalidateOne env p).2, flat) ∧
      ∃ lru' chain' pre', Good (s.invalidateOne env p).2 lru' chain' flat ∧
      chain' b = pre' ++ l := by
  have hDiscard : ∀ t : PageCache, Good t lru chain flat → (t.gPool p).dirty = false →
      Path env D (t, flat) ((t.drop p).modify p fun q => { q with ctx := 0 }, flat) ∧
      ∃ lru' chain' pre', Good ((t.drop p).modify p fun q => { q with ctx := 0 }) lru' chain' flat ∧
        chain' b = pre' ++ l := fun t ht hd => by
    have hp : t.Cached p := ht.inv.cached_iff.mpr (ht.inv.listed_of_mem (b := b) (by simp [hl]))
    refine ⟨.single (.discard hD hp hd), _, _, pre, ht.discard hp hd, ?_⟩
    have hNodup := ht.inv.hash.nodup b
    rw [hl] at hNodup ⊢
    exact erase_of_split hNodup
  unfold PageCache.invalidateOne
  by_cases hd : (s.gPool p).dirty
  · obtain ⟨hGood, -, hClean, -⟩ := h.pageFlushOne env hd
    have hFlush : Path env D (s, flat) ((s.pageFlushOne env p).2, flat) := .single (.flush hd)
    simp only [hd, if_true]
    generalize s.pageFlushOne env p = result at hGood hClean hFlush ⊢
    obtain ⟨ok, t⟩ := result
    cases ok with
    | true =>
      obtain ⟨hPath, hRest⟩ := hDiscard t hGood (hClean rfl)
      exact ⟨hFlush.trans hPath, hRest⟩
    | false => exact ⟨hFlush, lru, chain, pre ++ [p], hGood, by simp [hl]⟩
  · simp only [hd]
    exact hDiscard s h (by simpa using hd)

theorem Good.invalidateBuckets_eq_self (env : Env) (hNone : ∀ q, s.Cached q → (s.gPool q).ctx ≠ ctx)
    (bs : List ℕ) : invalidateBuckets env ctx bs s = (true, s) := by
  induction bs with
  | nil => rfl
  | cons b bs ih =>
    have hChain : invalidateChain env ctx (pcPages + 1) (s.gBucket b) s = (true, s) := by
      rw [h.inv.hash.bucket b]
      exact invalidateChain_eq_self ctx _ _ (h.inv.hash.linked b) fun q hq =>
        hNone q (h.inv.cached_iff.mpr (h.inv.listed_of_mem hq))
    rw [invalidateBuckets, hChain]
    simp only [ih, Bool.and_self]

end

theorem path_writeLoop (flat : ℕ → Bytes) (env : Env) (ctx off : ℕ) (buf : List (BitVec 8))
    (hOff : off < 2 ^ 64)
    (hLen : buf.length < 2 ^ 64) (fuel done : ℕ) (hDone : done ≤ buf.length) (s : PageCache)
    (hGood : ∃ lru chain, Good s lru chain (overlay flat ctx off (buf.take done))) :
    Path env D (s, overlay flat ctx off (buf.take done)) ((writeLoop env ctx off buf fuel done s).2,
        overlay flat ctx off (buf.take (writeLoop env ctx off buf fuel done s).1)) := by
  induction fuel generalizing done s with
  | zero => exact .refl
  | succ fuel ih =>
    rw [writeLoop]
    split
    · exact .refl
    · set pos := add64 off done with hPosEq
      set n := min (buf.length - done) (pcPage - pos % pcPage) with hn
      have hLookup := path_lookupForWrite (D := D) env ctx pos s
        (overlay flat ctx off (buf.take done))
      obtain ⟨lru, chain, hg⟩ := hGood
      have hFind := hg.lookupForWrite env ctx pos
      dsimp only
      generalize s.lookupForWrite env ctx (pageOf pos) = result at hLookup hFind ⊢
      obtain ⟨r, t⟩ := result
      cases r with
      | none => exact hLookup
      | some p =>
        have hn' : done + n ≤ buf.length := by omega
        have hStep : Step env D (t, overlay flat ctx off (buf.take done))
            (t.storeBytes ctx p pos ((buf.drop done).take n),
              overlay flat ctx off (buf.take (done + n))) := by
          rw [← overlay_append hOff hn' hLen]
          refine .store (hFind p rfl) (add64_lt _ _) ?_
          have := mod_pcPage_lt pos
          rw [length_take, length_drop]
          omega
        have hPath := hLookup.tail hStep
        exact hPath.trans (ih (done + n) hn' _ (Path.good hPath ⟨lru, chain, hg⟩))

theorem path_invalidateChain (hD : D) (ctx fuel b : ℕ) (pre l : List ℕ) (s : PageCache)
    (h : Good s lru chain flat) (hl : chain b = pre ++ l) (hFuel : l.length < fuel) :
    Path env D (s, flat) ((invalidateChain env ctx fuel l.head? s).2, flat) := by
  induction l generalizing fuel s pre lru chain with
  | nil =>
    cases fuel with
    | zero => simp at hFuel
    | succ fuel => exact .refl
  | cons p l ih =>
    cases fuel with
    | zero => simp at hFuel
    | succ fuel =>
      have hNext : (s.gPool p).next = l.head? := h.inv.hash.linked b pre p l hl
      rw [head?_cons, invalidateChain]
      simp only [hNext]
      split
      · obtain ⟨hPath, lru', chain', pre', hGood, hl'⟩ := h.invalidateOne env hl hD
        exact hPath.trans (ih fuel pre' _ hGood hl' (by simpa using hFuel))
      · exact ih fuel (pre ++ [p]) s h (by simp [hl]) (by simpa using hFuel)

theorem path_invalidateBuckets (hD : D) (ctx : ℕ) (bs : List ℕ) (s : PageCache)
    (h : ∃ lru chain, Good s lru chain flat) :
    Path env D (s, flat) ((invalidateBuckets env ctx bs s).2, flat) := by
  induction bs generalizing s with
  | nil => exact .refl
  | cons b bs ih =>
    obtain ⟨lru, chain, hGood⟩ := h
    have hChain :
        Path env D (s, flat) ((invalidateChain env ctx (pcPages + 1) (s.gBucket b) s).2, flat) := by
      rw [hGood.inv.hash.bucket b]
      exact path_invalidateChain hD ctx _ b [] (chain b) s hGood rfl
        (Nat.lt_succ_of_le (hGood.inv.hash.short b))
    exact hChain.trans (ih _ (Path.good hChain ⟨lru, chain, hGood⟩))

end Gnos.PageCache
