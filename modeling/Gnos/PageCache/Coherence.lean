import Gnos.PageCache.Run

/-! What `pagecache_read` returns.  The page that a read copies from is looked up before the
readahead of the same read, which may evict pages.  `Safe s lru p n` says that `p` survives `n` more
allocations. -/

namespace Gnos.PageCache

open ProofKit Function List PageCache

variable {s s' : PageCache} {lru lru' : Bool → List ℕ} {chain : ℕ → List ℕ} {flat : ℕ → Bytes}
  {p : ℕ} {env : Env} {disk : ℕ → Bytes} {c ctx n off : ℕ}

/-- The page `p` is the last of the active list, or so far from the head of the inactive one that
`n` allocations leave it there. -/
def Safe (s : PageCache) (lru : Bool → List ℕ) (p n : ℕ) : Prop :=
  (∃ a, lru true = a ++ [p]) ∨ ∃ a c, lru false = a ++ p :: c ∧ n ≤ a.length + (pcPages - s.gUsed)

theorem Safe.mono {m : ℕ} (h : Safe s lru p n) (hm : m ≤ n) : Safe s lru p m :=
  h.imp_right fun ⟨a, c, hl, hn⟩ => ⟨a, c, hl, hm.trans hn⟩

theorem Safe.listed (h : Safe s lru p n) : Listed lru p := by
  rcases h with ⟨a, ha⟩ | ⟨a, c, hac, -⟩
  · exact ⟨true, by simp [ha]⟩
  · exact ⟨false, by simp [hac]⟩

theorem Safe.balanced (h : Safe s lru p n) (hg : Lru s lru) : Safe s (balanced s lru) p n := by
  unfold PageCache.balanced
  split
  · rcases h with ⟨a, ha⟩ | ⟨a, c, hac, hn⟩
    · have hLen : s.gActiveN = (lru true).length := hg.count true
      rw [ha, length_append, length_singleton] at hLen
      refine .inl ⟨a.drop (s.gActiveN / 2), ?_⟩
      rw [demoted, ha, drop_append_of_le_length (by omega)]
    · refine .inr ⟨a, c ++ (lru true).take (s.gActiveN / 2), ?_, hn⟩
      rw [demoted, hac]
      simp
  · exact h

theorem Slot.safe {q used : ℕ} (hs : Slot env s lru q lru' used) (h : Safe s lru p (n + 1))
    (hg : Good s lru chain flat) (hWrite : ∀ n, env.write n = none) (hu : s'.gUsed = used) :
    Safe s' lru' p n ∧ q ≠ p := by
  cases hs with
  | fresh hlt =>
    have hp : p < s.gUsed := hg.inv.used p h.listed
    refine ⟨?_, by omega⟩
    rcases h with ⟨a, ha⟩ | ⟨a, c, hac, hn⟩
    · exact .inl ⟨a, by rwa [pushed, update_of_ne (by decide)]⟩
    · refine .inr ⟨a, c ++ [s.gUsed], by simp [pushed, hac], ?_⟩
      omega
  | reclaimed hFull _ hv hFirst =>
    have hBal := hg.balance.inv.lists
    have hHead := hFirst hWrite
    rcases h.balanced hg.inv.lists with ⟨a, ha⟩ | ⟨a, c, hac, hn⟩
    · have hp : p ∈ balanced s lru true := by simp [ha]
      have hv' : q ∉ balanced s lru true := hBal.flag_ne hv (by decide)
      refine ⟨.inl ⟨a, ?_⟩, fun hEq => hv' (hEq ▸ hp)⟩
      rw [pushed, update_of_ne (by decide), erase_of_not_mem hv', ha]
    · -- `p` is not the first of the inactive list.
      cases a with
      | nil => simp [hFull] at hn
      | cons w a =>
        obtain rfl : q = w := by simpa [hac, eq_comm] using hHead
        have hNodup := hBal.nodup false
        rw [hac] at hNodup
        refine ⟨.inr ⟨a, c ++ [q], ?_, ?_⟩, ?_⟩
        · rw [pushed, update_self, hac]
          simp
        · simp only [length_cons] at hn
          omega
        · rintro rfl
          simp at hNodup

theorem Fetched.safe {r : Option ℕ} {used : ℕ} (hf : Fetched env s lru r lru' used)
    (h : Safe s lru p (n + 1)) (hg : Good s lru chain flat) (hRead : ∀ n, env.read n = none)
    (hWrite : ∀ n, env.write n = none) (hu : s'.gUsed = used) : Safe s' lru' p n ∧ r ≠ some p := by
  cases hf with
  | noFrame hlt =>
    refine ⟨h.imp_right ?_, by simp⟩
    rintro ⟨a, c, hac, hn⟩
    refine ⟨a, c, hac, ?_⟩
    omega
  | owed =>
    refine ⟨(h.balanced hg.inv.lists).imp_right ?_, by simp⟩
    rintro ⟨a, c, hac, hn⟩
    refine ⟨a, c, hac, ?_⟩
    omega
  | loaded hSlot =>
    obtain ⟨hSafe, hne⟩ := hSlot.safe h hg hWrite hu
    exact ⟨hSafe, by simpa using hne⟩
  | failed _ hr => exact absurd hr (by simp [hRead])

theorem Good.hashFind_of_keys {lru' : Bool → List ℕ} {chain' : ℕ → List ℕ}
    (hg : Good s lru chain flat) (hg' : Good s' lru' chain' flat)
    (hFind : s.hashFind c off = some p) (hp : Listed lru' p)
    (hKey : (s'.gPool p).ctx = (s.gPool p).ctx ∧ (s'.gPool p).off = (s.gPool p).off) :
    s'.hashFind c off = some p := by
  obtain ⟨-, hCtx, hOff⟩ := hg.inv.hashFind_eq_some.mp hFind
  exact hg'.inv.hashFind_eq_some.mpr ⟨hp, hKey.1.trans hCtx, hKey.2.trans hOff⟩

theorem RaFrame.hashFind (h : RaFrame s s') (hg : Good s lru chain flat)
    (hFind : s.hashFind c off = some p) : s'.hashFind c off = some p := by
  refine hg.hashFind_of_keys (h.good hg) hFind (hg.inv.hashFind_eq_some.mp hFind).1 ?_
  rw [h.page p]
  exact ⟨rfl, rfl⟩

theorem Good.raIssue (hRead : ∀ n, env.read n = none) (hWrite : ∀ n, env.write n = none)
    (ctx start n i : ℕ) (hg : Good s lru chain flat) (h : Safe s lru p n)
    (hFind : s.hashFind c off = some p) :
    (raIssue env ctx start i n s).hashFind c off = some p := by
  induction n generalizing i s lru chain with
  | zero => exact hFind
  | succ n ih =>
    rw [raIssue]
    cases hMiss : s.hashFind ctx ((start + i) * pcPage % 2 ^ 64) with
    | some _ => exact ih (i + 1) hg (h.mono (Nat.le_succ n)) hFind
    | none =>
      have hAligned : pcPage ∣ (start + i) * pcPage % 2 ^ 64 :=
        (Nat.dvd_mod_iff (by decide)).mpr (Nat.dvd_mul_left _ _)
      have hSpec := hg.fetch env hAligned hMiss
      generalize s.fetch env ctx ((start + i) * pcPage % 2 ^ 64) = result at hSpec ⊢
      obtain ⟨r, t⟩ := result
      obtain ⟨⟨lru', chain', hGood, hOutcome⟩, hOthers, -⟩ := hSpec
      obtain ⟨hSafe, hne⟩ : Safe t lru' p n ∧ r ≠ some p := hOutcome.safe h hg hRead hWrite rfl
      have hFind' : t.hashFind c off = some p := hg.hashFind_of_keys hGood hFind hSafe.listed
        (hOthers p h.listed (hGood.inv.cached_iff.mpr hSafe.listed) hne)
      cases r with
      | none => exact hFind'
      | some q =>
        have hFrame := raFrame_modify t q true
        exact ih (i + 1) (hFrame.good hGood) hSafe (hFrame.hashFind hGood hFind')

/-- The readahead entry of `ctx`, as `ra_get` returns it. -/
def raEntry (s : PageCache) (ctx : ℕ) : RaState := (s.raGet ctx).2.gRa (s.raGet ctx).1

/-- The number of allocations after which a page that is fetched now is the next victim. -/
def room (s : PageCache) : ℕ :=
  if s.gUsed < pcPages then s.gInactiveN + (pcPages - s.gUsed)
  else if s.gInactiveN < s.gActiveN / 2 then s.gInactiveN + s.gActiveN / 2
  else s.gInactiveN

/-- A read may handle the page at `off`: it is cached, or it is not the next one of a sequential
read, or the window of the sequential read fits the room. -/
def Roomy (s : PageCache) (ctx off : ℕ) : Prop :=
  s.hashFind ctx off ≠ none ∨ off / pcPage ≠ add64 (s.raEntry ctx).lastPage 1 ∨
    (s.raEntry ctx).window < s.room

theorem raEntry_congr (hRa : s'.gRa = s.gRa) (hVictim : s'.gRaVictim = s.gRaVictim) (ctx : ℕ) :
    s'.raEntry ctx = s.raEntry ctx := by
  unfold raEntry raGet raFind
  rw [hRa, hVictim]
  cases (range raTable).find? fun i => (s.gRa i).inUse && (s.gRa i).ctx == ctx with
  | some i => simp [hRa]
  | none => cases (range raTable).find? fun i => !(s.gRa i).inUse <;> simp

theorem Slot.safe_own {used : ℕ} (hs : Slot env s lru p lru' used) (hg : Good s lru chain flat)
    (hn : n < s.room) (hu : s'.gUsed = used) : Safe s' lru' p n := by
  have hActive : s.gActiveN = (lru true).length := hg.inv.lists.count true
  have hInactive : s.gInactiveN = (lru false).length := hg.inv.lists.count false
  cases hs with
  | fresh hlt =>
    rw [room, if_pos hlt] at hn
    refine .inr ⟨lru false, [], by simp [pushed], ?_⟩
    omega
  | reclaimed hFull _ hv =>
    rw [room, if_neg (by omega)] at hn
    refine .inr ⟨(balanced s lru false).erase p, [], by simp [pushed], ?_⟩
    have hLen : (balanced s lru false).length = if s.gInactiveN < s.gActiveN / 2 then
        s.gInactiveN + s.gActiveN / 2 else s.gInactiveN := by
      unfold balanced
      split
      · rw [demoted, length_append, length_take, ← hActive, ← hInactive]
        omega
      · exact hInactive.symm
    rw [length_erase_of_mem hv, hLen, hu, hFull]
    omega

section

variable (hRead : ∀ n, env.read n = none) (hWrite : ∀ n, env.write n = none)
  (hg : Good s lru chain flat)
include hRead hWrite hg

theorem Good.raAdvance {r idx : ℕ} (hFind : s.hashFind c off = some p)
    (hSafe : idx = add64 (s.gRa r).lastPage 1 → Safe s lru p (s.gRa r).window) :
    (s.raAdvance env ctx r idx).hashFind c off = some p := by
  unfold PageCache.raAdvance
  split
  · rename_i hNext
    exact hg.raIssue hRead hWrite ctx idx _ 1 (hSafe hNext) hFind
  · split
    · exact (raFrame_setRa s r _).hashFind hg hFind
    · exact hFind

theorem Good.readahead {idx : ℕ} (hFind : s.hashFind c off = some p)
    (hSafe : (∀ n, Safe s lru p n) ∨ (s.gPool p).ra = false ∧
      (idx = add64 (s.raEntry ctx).lastPage 1 → Safe s lru p (s.raEntry ctx).window)) :
    (s.readahead env ctx p idx).hashFind c off = some p := by
  have hGet := raFrame_raGet s ctx
  have hEntry : (s.raGet ctx).2.gRa (s.raGet ctx).1 = s.raEntry ctx := rfl
  have hPool := gPool_raGet s ctx
  unfold PageCache.readahead
  generalize s.raGet ctx = result at hGet hEntry hPool ⊢
  obtain ⟨r, t⟩ := result
  dsimp only at hGet hEntry hPool ⊢
  have hUse := raFrame_raConsume t r p
  have hGood := hGet.good hg
  have hFind' := hUse.hashFind hGood (hGet.hashFind hg hFind)
  have hUsed : (t.raConsume r p).gUsed = s.gUsed := by rw [hUse.rest, hGet.rest]
  have hAdvance : (PageCache.raAdvance (t.raConsume r p) env ctx r idx).hashFind c off =
      some p := by
    refine (hUse.good hGood).raAdvance hRead hWrite hFind' fun hNext => ?_
    rw [Safe, hUsed]
    rcases hSafe with hAll | ⟨hRa, hWindow⟩
    · exact hAll _
    · have hSame : t.raConsume r p = t := by
        rw [raConsume, hPool, if_neg (by simp [hRa])]
      rw [hSame, hEntry] at hNext ⊢
      exact hWindow hNext
  obtain ⟨lru', chain', hGood'⟩ := Path.good (path_raAdvance (D := True) env ctx r idx _ flat)
    ⟨_, _, hUse.good hGood⟩
  exact (raFrame_setRa _ r _).hashFind hGood' hAdvance

theorem Good.readPage {pos : ℕ} {t : PageCache} (hRoom : Roomy s ctx (pageOf pos))
    (hLookup : s.lookup env ctx (pageOf pos) = (some p, t)) :
    (t.readahead env ctx p (pageOf pos / pcPage)).hashFind ctx (pageOf pos) = some p := by
  unfold lookup at hLookup
  cases hFind : s.hashFind ctx (pageOf pos) with
  | some q =>
    rw [hFind] at hLookup
    obtain ⟨rfl, rfl⟩ : q = p ∧ s.lruTouch q = t := by simpa using hLookup
    have hListed := (hg.inv.hashFind_eq_some.mp hFind).1
    have hTouch := hg.touch hListed
    have hKey := (lruTouch_frame s q).sameHash.page q
    have hEnd : ∀ n, Safe (s.lruTouch q) (touched lru q) q n := fun n => .inl ⟨_, rfl⟩
    exact hTouch.readahead hRead hWrite
      (hg.hashFind_of_keys hTouch hFind (hEnd 0).listed hKey.2) (.inl hEnd)
  | none =>
    rw [hFind] at hLookup
    have hSpec := hg.fetch env (pcPage_dvd_pageOf pos) hFind
    simp only at hLookup
    rw [hLookup] at hSpec
    obtain ⟨⟨lru', chain', hGood, hOutcome⟩, -, hOwn, ⟨hRa, hVictim⟩, -⟩ := hSpec
    obtain ⟨hFind', hMark⟩ := hOwn p rfl
    refine hGood.readahead hRead hWrite hFind' (.inr ⟨hMark, fun hNext => ?_⟩)
    rw [raEntry_congr hRa hVictim] at hNext ⊢
    have hWindow := (hRoom.resolve_left (by simp [hFind])).resolve_left (by simpa using hNext)
    cases hOutcome with
    | loaded hSlot => exact hSlot.safe_own hg hWindow rfl

end

/-- The loop of a read that started in `s` stands before byte `done` in state `t`. -/
inductive ReadAt (env : Env) (ctx off len : ℕ) (s : PageCache) : ℕ → PageCache → Prop
  | start : ReadAt env ctx off len s 0 s
  | next {done p : ℕ} {t t' : PageCache} (h : ReadAt env ctx off len s done t) (hLt : done < len)
      (hLookup : t.lookup env ctx (pageOf (add64 off done)) = (some p, t')) :
      ReadAt env ctx off len s (done + min (len - done) (pcPage - add64 off done % pcPage))
        (t'.readahead env ctx p (pageOf (add64 off done) / pcPage))

/-- The bytes of device `ctx` from `off` on. -/
def flatBytes (flat : ℕ → Bytes) (ctx off len : ℕ) : List (BitVec 8) :=
  (List.range len).map fun i => flat ctx (add64 off i)

theorem Good.page_bytes (hg : Good s lru chain flat) {done : ℕ}
    (hFind : s.hashFind ctx (pageOf (add64 off done)) = some p)
    (hn : add64 off done % pcPage + n ≤ pcPage) :
    ((range n).map fun i => (s.gPool p).data (add64 off done % pcPage + i)) =
      (range n).map fun i => flat ctx (add64 off (done + i)) := by
  obtain ⟨hp, hCtx, hOff⟩ := hg.inv.hashFind_eq_some.mp hFind
  refine map_congr_left fun i hi => ?_
  have hi' := mem_range.mp hi
  have hSum := pageOf_add_mod (add64 off done)
  rw [hg.data.page p hp _ (by omega), hCtx, hOff]
  congr 1
  rw [add64_eq] at *
  rw [add64_eq]
  unfold pcPage at *
  omega

theorem readLoop_flat (hRead : ∀ n, env.read n = none) (hWrite : ∀ n, env.write n = none) {len : ℕ}
    (hRoom : ∀ done t, ReadAt env ctx off len s done t → done < len →
      Roomy t ctx (pageOf (add64 off done))) (fuel done : ℕ) (t : PageCache)
    (hAt : ReadAt env ctx off len s done t) (hg : ∃ lru chain, Good t lru chain flat)
    (hFuel : len - done ≤ fuel) (bytes : List (BitVec 8))
    (hDone : (readLoop env ctx off len fuel done t).1 = some bytes) :
    bytes = (range (len - done)).map fun i => flat ctx (add64 off (done + i)) := by
  induction fuel generalizing done t bytes with
  | zero =>
    obtain rfl : [] = bytes := by simpa [readLoop] using hDone
    simp [show len - done = 0 by omega]
  | succ fuel ih =>
    rw [readLoop] at hDone
    split at hDone
    · obtain rfl : [] = bytes := by simpa using hDone
      simp [show len - done = 0 by omega]
    · dsimp only at hDone
      set n := min (len - done) (pcPage - add64 off done % pcPage) with hn
      have hMod := mod_pcPage_lt (add64 off done)
      have hPathLookup := path_lookup (D := True) env ctx (add64 off done) t flat
      cases hLookup : t.lookup env ctx (pageOf (add64 off done)) with
      | mk r u =>
        rw [hLookup] at hDone hPathLookup
        cases r with
        | none => simp at hDone
        | some p =>
          obtain ⟨lru, chain, hGood⟩ := hg
          have hFind := hGood.readPage hRead hWrite (hRoom done t hAt (by omega)) hLookup
          have hPath := hPathLookup.trans
            (path_readahead env ctx p (pageOf (add64 off done) / pcPage) u flat)
          obtain ⟨lru', chain', hGood'⟩ := Path.good hPath ⟨lru, chain, hGood⟩
          have hAt' := hAt.next (by omega) hLookup
          dsimp only at hDone
          have hRest := ih (done + n) _ hAt' ⟨lru', chain', hGood'⟩ (by omega)
          generalize readLoop env ctx off len fuel (done + n) _ = result at hDone hRest
          obtain ⟨r', t'⟩ := result
          cases r' with
          | none => simp at hDone
          | some rest =>
            have hBytes := Option.some.inj hDone
            rw [hGood'.page_bytes hFind (by omega), hRest rest rfl] at hBytes
            rw [← hBytes, show len - done = n + (len - (done + n)) by omega, range_add, map_append,
              map_map]
            simp [comp_def, Nat.add_assoc]

/-- In every run in which the device callbacks succeed, a successful read each of whose pages finds
room returns the bytes that a flat array would hold. -/
theorem read_returns_flat {allowed : PageCache → Op → Prop} (hRead : ∀ n, env.read n = none)
    (hWrite : ∀ n, env.write n = none) (h : Reach env allowed disk s flat) (ctx : ℕ) (rd : Bool)
    (off len : ℕ) (hRoom : ∀ done t, ReadAt env ctx off len s done t → done < len →
      Roomy t ctx (pageOf (add64 off done))) (hOk : 0 ≤ (s.read env ctx rd off len).1) :
    (s.read env ctx rd off len).2.1 = flatBytes flat ctx off len := by
  have hLoop := readLoop_flat hRead hWrite hRoom len 0 s .start h.good (by omega)
  unfold read at hOk ⊢
  split_ifs at hOk with hArgs
  · simp at hOk
  · rw [if_neg hArgs]
    generalize readLoop env ctx off len len 0 s = result at hLoop hOk ⊢
    obtain ⟨r, t⟩ := result
    cases r with
    | none => simp at hOk
    | some bytes =>
      have hBytes := hLoop bytes rfl
      simpa [flatBytes] using hBytes

/-- Where a read over the page boundary stands after its first page. -/
def secondPage : PageCache :=
  let (p, s) := busyCache.lookup noFailures 1 0
  s.readahead noFailures 1 (p.getD 0) 0

theorem readAt_busy {done : ℕ} {t : PageCache} (h : ReadAt noFailures 1 4095 3 busyCache done t) :
    done = 0 ∧ t = busyCache ∨ done = 1 ∧ t = secondPage ∨ 3 ≤ done := by
  induction h with
  | start => exact .inl ⟨rfl, rfl⟩
  | next _ _ hLookup ih =>
    rcases ih with ⟨hDone, ht⟩ | ⟨hDone, -⟩ | hEnd
    · rw [hDone, ht, show pageOf (add64 4095 0) = 0 by decide +kernel] at hLookup
      rw [hDone, show pageOf (add64 4095 0) = 0 by decide +kernel]
      refine .inr (.inl ⟨by decide +kernel, ?_⟩)
      unfold secondPage
      rw [hLookup]
      rfl
    · rw [hDone]
      exact .inr (.inr (by decide +kernel))
    · omega

theorem read_returns_flat_busy :
    (busyCache.read noFailures 1 true 4095 3).2.1 = [8, 9, 0] := by
  have hRoom : ∀ done t, ReadAt noFailures 1 4095 3 busyCache done t → done < 3 →
      Roomy t 1 (pageOf (add64 4095 done)) := by
    intro done t hAt hlt
    rcases readAt_busy hAt with ⟨hDone, ht⟩ | ⟨hDone, ht⟩ | hEnd
    · rw [hDone, ht]
      exact .inl (by decide +kernel)
    · rw [hDone, ht]
      exact .inl (by decide +kernel)
    · omega
  rw [read_returns_flat (fun _ => rfl) (fun _ => rfl) busyRun_reach 1 true 4095 3 hRoom
    (by decide +kernel)]
  decide +kernel

/-- Devices that never fail, over a memory whose first 4095 frame allocations fail. -/
def shortOfFrames : Env where
  read _ := none
  write _ := none
  frame n := decide (4095 ≤ n)

def numbered : ℕ → Bytes := fun _ a => BitVec.ofNat 8 (a / pcPage)

theorem read_without_frame (n : ℕ) (hn : n < 4095) :
    exec shortOfFrames { disk := numbered, gUsed := n, clock := n }
      (.read 1 true 0 1 (by decide) (by decide)) =
      { disk := numbered, gUsed := n + 1, clock := n + 1 } := by
  simp [exec, read, readLoop, lookup, hashFind, hashFindFrom, fetch, pageAlloc,
    shortOfFrames, pcPages, claim, show n < 4096 by omega, show ¬4095 ≤ n by omega]

theorem reach_without_frames (n : ℕ) (hn : n ≤ 4095) :
    Reach shortOfFrames (fun _ _ => True) numbered { disk := numbered, gUsed := n, clock := n }
      numbered := by
  induction n with
  | zero => exact .init
  | succ n ih =>
    have hStep := (ih (by omega)).step (.read 1 true 0 1 (by decide) (by decide)) trivial
    rwa [read_without_frame n (by omega)] at hStep

/-- With one slot left in circulation, the readahead of a read evicts the page that the read copies
from: the first byte of the device comes out as the first byte of its third page. -/
theorem read_of_evicted_page :
    Reach shortOfFrames (fun _ _ => True) numbered
    { disk := numbered, gUsed := 4095, clock := 4095 }
        numbered ∧
      (read { disk := numbered, gUsed := 4095, clock := 4095 } shortOfFrames 1 true 0 1).1 = 1 ∧
      (read { disk := numbered, gUsed := 4095, clock := 4095 } shortOfFrames 1 true 0 1).2.1 = [2] ∧
      flatBytes numbered 1 0 1 = [0] := by
  refine ⟨reach_without_frames 4095 le_rfl, ?_, ?_, ?_⟩ <;> decide +kernel

end Gnos.PageCache
