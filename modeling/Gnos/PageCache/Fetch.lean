import Gnos.PageCache.Data

/-! A miss: `page_alloc` finds a slot, the device fills it, and a failed read drops it again.  The
order of the recency lists decides which pages survive the readahead of a read. -/

namespace Gnos.PageCache

open ProofKit PageCache

variable {s s' : PageCache} {lru : Bool → List ℕ} {chain : ℕ → List ℕ} {flat : ℕ → Bytes}
  {p ctx off : ℕ}
  {lru' : Bool → List ℕ} {s1 : PageCache} {lru1 : Bool → List ℕ} {chain1 : ℕ → List ℕ}
  {env : Env}

/-- The cache between two operations, with its recency lists, its chains and the contents that its
clients have written. -/
structure Good (s : PageCache) (lru : Bool → List ℕ) (chain : ℕ → List ℕ) (flat : ℕ → Bytes) :
    Prop where
  inv : Inv s lru chain
  data : Data s (Listed lru) flat

/-- `s'` differs from `s` only by pages that the devices were offered. -/
structure FlushFrame (s s' : PageCache) : Prop where
  page : ∀ q, s'.gPool q = { s.gPool q with dirty := (s'.gPool q).dirty }
  rest : s' = { s with
    gPool := s'.gPool, gDirtyN := s'.gDirtyN, disk := s'.disk, clock := s'.clock,
      trace := s'.trace }
  clean : ∀ q, (s.gPool q).dirty = false → (s'.gPool q).dirty = false

theorem FlushFrame.refl (s : PageCache) : FlushFrame s s := ⟨fun _ => rfl, rfl, fun _ h => h⟩

theorem FlushFrame.trans {s s' s'' : PageCache} (h : FlushFrame s s') (h' : FlushFrame s' s'') :
    FlushFrame s s'' := by
  refine ⟨fun q => ?_, ?_, fun q hq => h'.clean q (h.clean q hq)⟩
  · rw [h'.page q, h.page q]
  · rw [h'.rest, h.rest]

theorem FlushFrame.sameLru (h : FlushFrame s s') : SameLru s s' := by
  refine ⟨fun q => ?_, fun b => ?_⟩
  · rw [h.page q]
    exact ⟨rfl, rfl, rfl⟩
  · rw [h.rest]
    exact ⟨rfl, rfl, rfl⟩

theorem FlushFrame.sameHash (h : FlushFrame s s') : SameHash s s' := by
  refine ⟨fun q => ?_, by rw [h.rest]⟩
  rw [h.page q]
  exact ⟨rfl, rfl, rfl⟩

theorem FlushFrame.inv (h : FlushFrame s s') (hi : Inv s lru chain) : Inv s' lru chain :=
  hi.of_same h.sameLru h.sameHash (by rw [h.rest])

theorem torn_frame (s : PageCache) (p : ℕ) (junk : Bytes) : FlushFrame s (s.torn p junk) :=
  ⟨fun _ => rfl, rfl, fun _ h => h⟩

theorem written_frame (s : PageCache) (p : ℕ) : FlushFrame s (s.written p) := by
  refine ⟨fun q => ?_, rfl, fun q hq => ?_⟩ <;> rw [gPool_written] <;> split
  · rename_i hq
    rw [hq]
  · rfl
  · rfl
  · exact hq

def balanced (s : PageCache) (lru : Bool → List ℕ) : Bool → List ℕ :=
  if s.gInactiveN < s.gActiveN / 2 then demoted lru (s.gActiveN / 2) else lru

theorem balance_frame (s : PageCache) : LruFrame s s.balance :=
  LruFrame.ite (demote_frame _ s) (.refl s)

theorem listed_balanced (q : ℕ) : Listed (balanced s lru) q ↔ Listed lru q := by
  unfold balanced
  split
  · exact listed_demoted _ q
  · rfl

/-- The slot `p` that `page_alloc` takes, the lists after it joined the inactive one, and the number
of slots then used. -/
inductive Slot (env : Env) (s : PageCache) (lru : Bool → List ℕ) :
    ℕ → (Bool → List ℕ) → ℕ → Prop
  | fresh (hu : s.gUsed < pcPages) : Slot env s lru s.gUsed (pushed lru s.gUsed) (s.gUsed + 1)
  | reclaimed (hu : s.gUsed = pcPages) (v : ℕ) (hv : v ∈ balanced s lru false)
      (hFirst : (∀ n, env.write n = none) → (balanced s lru false).head? = some v) :
      Slot env s lru v (pushed (fun b => (balanced s lru b).erase v) v) s.gUsed

/-- How a miss ends: with the page, the lists and the number of slots used. -/
inductive Fetched (env : Env) (s : PageCache) (lru : Bool → List ℕ) :
    Option ℕ → (Bool → List ℕ) → ℕ → Prop
  | noFrame (hu : s.gUsed < pcPages) (hf : env.frame s.clock = false) :
      Fetched env s lru none lru (s.gUsed + 1)
  | owed (hu : s.gUsed = pcPages) : Fetched env s lru none (balanced s lru) s.gUsed
  | loaded {p : ℕ} {lru' : Bool → List ℕ} {used : ℕ} (h : Slot env s lru p lru' used) :
      Fetched env s lru (some p) lru' used
  | failed {p : ℕ} {lru' : Bool → List ℕ} {used : ℕ} (h : Slot env s lru p lru' used)
      (hr : ∃ n, env.read n ≠ none) :
      Fetched env s lru none (fun b => (lru' b).erase p) used

/-- The slot `p` before and after it got the key `(ctx, off)`. -/
structure Installed (s s' : PageCache) (p ctx off : ℕ) : Prop where
  own : (s'.gPool p).ctx = ctx ∧ (s'.gPool p).off = off ∧ (s'.gPool p).ra = false ∧
    (s'.gPool p).dirty = false
  others : ∀ q ≠ p, (s'.gPool q).ctx = (s.gPool q).ctx ∧ (s'.gPool q).off = (s.gPool q).off ∧
    (s'.gPool q).dirty = (s.gPool q).dirty
  used : s'.gUsed = s.gUsed
  trace : s'.trace = s.trace
  ra : s'.gRa = s.gRa ∧ s'.gRaVictim = s.gRaVictim

theorem install_installed (s : PageCache) (p ctx off : ℕ) :
    Installed s (s.install p ctx off) p ctx off := by
  have hHash := hashInsert_frame (s.modify p fun q =>
    { q with ctx, off, active := false, dirty := false, ra := false, wr := false, next := none }) p
  have hLru := lruPush_frame (hashInsert (s.modify p fun q =>
    { q with ctx, off, active := false, dirty := false, ra := false, wr := false, next := none }) p)
    false p
  have hCore := fun q => Page.core_fields (hLru.page q)
  refine ⟨?_, fun q hq => ?_, hLru.used, hLru.trace, hLru.ra, hLru.raVictim⟩
  · obtain ⟨-, h1, h2, h3, h4, -⟩ := hCore p
    rw [hHash.fields p, gPool_modify, if_pos rfl] at h1 h2 h3 h4
    exact ⟨h1, h2, h4, h3⟩
  · obtain ⟨-, h1, h2, h3, -⟩ := hCore q
    rw [hHash.fields q, gPool_modify, if_neg hq] at h1 h2 h3
    exact ⟨h1, h2, h3⟩

theorem Installed.drop (h : Installed s s' p ctx off) : Installed s (s'.drop p) p ctx off := by
  have hHash := hashRemove_frame s' p
  have hLru := lruUnlink_frame (s'.hashRemove p) p
  have hCore := fun q => Page.core_fields (hLru.page q)
  obtain ⟨hUsed, hRa, hRaVictim⟩ := rest_drop s' p
  refine ⟨?_, fun q hq => ?_, hUsed.trans h.used, (drop_sameData s' p).trace.trans h.trace,
    hRa.trans h.ra.1, hRaVictim.trans h.ra.2⟩
  · obtain ⟨-, h1, h2, h3, h4, -⟩ := hCore p
    rw [hHash.fields p] at h1 h2 h3 h4
    exact ⟨h1.trans h.own.1, h2.trans h.own.2.1, h4.trans h.own.2.2.1, h3.trans h.own.2.2.2⟩
  · obtain ⟨-, h1, h2, h3, -⟩ := hCore q
    rw [hHash.fields q] at h1 h2 h3
    obtain ⟨h1', h2', h3'⟩ := h.others q hq
    exact ⟨h1.trans h1', h2.trans h2', h3.trans h3'⟩

theorem Installed.keeps (h : Installed s s' p ctx off) (hp : (s.gPool p).dirty = false) :
    Keeps s s' :=
  .of_dirty h.trace fun q hq => by
    have hqp : q ≠ p := by
      rintro rfl
      rw [hp] at hq
      cases hq
    obtain ⟨h1, h2, h3⟩ := h.others q hqp
    exact ⟨h3.trans hq, h1, h2⟩

theorem Data.disk_of_fresh (h : Data s (Listed lru) flat)
    (hi : Inv s lru' chain) (hSub : ∀ q, Listed lru q → Listed lru' q ∧ q ≠ p)
    (hp : Listed lru' p) {i : ℕ} (hlt : i < pcPage) : s.disk (s.gPool p).ctx ((s.gPool p).off + i) =
      flat (s.gPool p).ctx ((s.gPool p).off + i) := by
  refine (h.disk _ _).resolve_right ?_
  rintro ⟨q, hq⟩
  have hOff : (s.gPool q).off = (s.gPool p).off :=
    hq.2.2.trans (pageOf_eq (hi.aligned p hp) (by omega) (by omega))
  obtain ⟨hListed, hqp⟩ := hSub q (h.clean q hq.1)
  exact hqp (hi.key q p hListed hp hq.2.1 hOff)

section

variable (h : Good s lru chain flat)
include h

theorem Good.pageFlushOne (env : Env) (hd : (s.gPool p).dirty) :
    let r := s.pageFlushOne env p
    Good r.2 lru chain flat ∧ FlushFrame s r.2 ∧ (r.1 → (r.2.gPool p).dirty = false) ∧
      ((∀ n, env.write n = none) → r.1) ∧ Keeps s r.2 := by
  have hp := h.data.clean p hd
  rw [h.data.pageFlushOne_eq hd]
  cases hw : env.write s.clock with
  | some junk =>
    refine ⟨⟨(torn_frame s p junk).inv h.inv, h.data.torn hd (h.inv.aligned p hp) junk⟩,
      torn_frame s p junk, by simp, fun hAll => ?_, .of_dirty rfl fun q hq => ⟨hq, rfl, rfl⟩⟩
    rw [hAll] at hw
    cases hw
  | none =>
    refine ⟨⟨(written_frame s p).inv h.inv,
      h.data.written hd (h.inv.listed_lt hp) (h.inv.aligned p hp)⟩, written_frame s p, fun _ => ?_,
      fun _ => rfl, written_keeps s p⟩
    simp [gPool_written]

theorem Good.victim (env : Env) (fuel : ℕ) (l : List ℕ) (hl : Linked s.lruNexts l)
    (hFuel : l.length < fuel) :
    let r := victim env fuel l.head? s
    Good r.2 lru chain flat ∧ FlushFrame s r.2 ∧
    (∀ v, r.1 = some v → v ∈ l ∧ (r.2.gPool v).dirty = false) ∧
      ((∀ n, env.write n = none) → r.1 = l.head?) ∧ Keeps s r.2 := by
  have hSelf : ∀ t : PageCache, Keeps t t := fun t => .of_dirty rfl fun q hq => ⟨hq, rfl, rfl⟩
  induction l generalizing s fuel with
  | nil =>
    cases fuel with
    | zero => simp at hFuel
    | succ fuel => exact ⟨h, .refl s, by simp [victim], fun _ => rfl, hSelf s⟩
  | cons v l ih =>
    cases fuel with
    | zero => simp at hFuel
    | succ fuel =>
      rw [List.head?_cons, victim]
      by_cases hd : (s.gPool v).dirty
      · obtain ⟨hGood, hFrame, hClean, hAll, hKeeps⟩ := h.pageFlushOne env hd
        rw [if_pos hd]
        cases hFlush : s.pageFlushOne env v with
        | mk ok t =>
          rw [hFlush] at hGood hFrame hClean hAll hKeeps
          cases ok with
          | true =>
            refine ⟨hGood, hFrame, fun w hw => ?_, fun _ => rfl, hKeeps⟩
            obtain rfl : v = w := by simpa using hw
            exact ⟨by simp, hClean rfl⟩
          | false =>
            have hNext : (t.gPool v).lruNext = l.head? := by
              rw [(hFrame.sameLru.page v).1]
              exact hl.head
            have hLinked : Linked t.lruNexts l := hl.tail.congr fun x _ => (hFrame.sameLru.page x).1
            obtain ⟨hGood', hFrame', hClean', hAll', hKeeps'⟩ :=
              ih hGood fuel hLinked (by simpa using hFuel)
            simp only [hNext]
            exact ⟨hGood', hFrame.trans hFrame',
              fun w hw => ⟨by simp [(hClean' w hw).1], (hClean' w hw).2⟩,
              fun hw => absurd (hAll hw) (by simp), hKeeps.trans hKeeps'⟩
      · rw [if_neg hd]
        refine ⟨h, .refl s, fun w hw => ?_, fun _ => rfl, hSelf s⟩
        obtain rfl : v = w := by simpa using hw
        exact ⟨by simp, by simpa using hd⟩

theorem Good.of_lruFrame (hf : LruFrame s s') (hi : Inv s' lru' chain)
    (hm : ∀ q, Listed lru' q ↔ Listed lru q) : Good s' lru' chain flat :=
  ⟨hi, h.data.of_same hf.sameData (fun q => (hm q).mp) fun q hq _ => (hm q).mpr hq⟩

theorem Good.balance : Good s.balance (balanced s lru) chain flat := by
  refine h.of_lruFrame (balance_frame s) ?_ fun q => listed_balanced q
  unfold balanced PageCache.balance
  split
  · have hLen : s.gActiveN = (lru true).length := h.inv.lists.count true
    exact h.inv.demote (by omega)
  · exact h.inv

theorem Good.touch (hp : Listed lru p) : Good (s.lruTouch p) (touched lru p) chain flat := by
  obtain ⟨b, hb⟩ := hp
  exact h.of_lruFrame (lruTouch_frame s p) (h.inv.touch ⟨b, hb⟩) (listed_touched hb)

theorem Good.install (hp : ¬Listed lru p) (hu : p < s.gUsed) (hAligned : pcPage ∣ off)
    (hFresh : s.hashFind ctx off = none) :
    (∃ chain', Inv (s.install p ctx off) (pushed lru p) chain') ∧
      Data (s.install p ctx off) (Listed lru) flat := by
  refine ⟨h.inv.install hp hu hAligned hFresh, ?_⟩
  have hSet := h.data.modify hp (f := fun q =>
    { q with ctx, off, active := false, dirty := false, ra := false, wr := false, next := none })
      rfl
  refine hSet.of_same ?_ (fun _ hq => hq) fun _ hq _ => hq
  exact (hashInsert_frame _ p).sameData.trans (lruPush_frame _ false p).sameData

theorem Good.drop (hp : Listed lru p) (hd : (s.gPool p).dirty = false) :
    Good (s.drop p) (fun b => (lru b).erase p) (fun b => (chain b).erase p) flat := by
  have hListed := listed_erase (p := p) h.inv.lists.nodup
  refine ⟨h.inv.drop hp, h.data.of_same (drop_sameData s p) (fun q hq => ((hListed q).mp hq).1)
    fun q hq hDirty => (hListed q).mpr ⟨hq, ?_⟩⟩
  rintro rfl
  rw [hd] at hDirty
  cases hDirty

theorem Good.fill (env : Env) (hp : ¬Listed lru p) (hu : p < s.gUsed) (hAligned : pcPage ∣ off)
    (hFresh : s.hashFind ctx off = none) :
    (∃ chain' t, (s.install p ctx off).devRead env p ctx off = (true, t) ∧
        Good t (pushed lru p) chain' flat ∧ Installed s t p ctx off) ∨
      ∃ chain' t, (s.install p ctx off).devRead env p ctx off = (false, t) ∧
        Good (t.drop p) (fun b => (pushed lru p b).erase p) chain' flat ∧
        ¬Listed (fun b => (pushed lru p b).erase p) p ∧ Installed s (t.drop p) p ctx off ∧
        ∃ n, env.read n ≠ none := by
  obtain ⟨⟨chain', hInv⟩, hData⟩ := h.install hp hu hAligned hFresh
  have hInstalled := install_installed s p ctx off
  generalize s.install p ctx off = t at hInv hData hInstalled
  obtain ⟨⟨hCtx, hOff, hRa, hDirty⟩, hOthers, hUsed, hTrace, hTable⟩ := hInstalled
  have hMem : Listed (pushed lru p) p := (listed_pushed p).mpr (.inr rfl)
  have hFilled : ∀ d : Bytes, Inv { t.modify p fun q => { q with data := d } with
        clock := t.clock + 1 } (pushed lru p) chain' ∧
      Data { t.modify p fun q => { q with data := d } with clock := t.clock + 1 }
        (Listed lru) flat ∧
      Installed s { t.modify p fun q => { q with data := d } with clock := t.clock + 1 } p ctx
        off := fun d => by
    refine ⟨?_, ?_, ⟨?_, fun q hq => ?_, hUsed, hTrace, hTable⟩⟩
    · have hLru := sameLru_modify t p (f := fun q => { q with data := d }) fun _ => ⟨rfl, rfl, rfl⟩
      have hHash := sameHash_modify t p (f := fun q => { q with data := d })
        fun _ => ⟨rfl, rfl, rfl⟩
      exact hInv.of_same ⟨hLru.page, hLru.ends⟩ ⟨hHash.page, hHash.bucket⟩ rfl
    · have hSet := hData.modify hp (f := fun q => { q with data := d }) hDirty
      exact { hSet with }
    · simp [modify, hCtx, hOff, hRa, hDirty]
    · simpa [modify, hq] using hOthers q hq
  unfold devRead
  cases hRead : env.read t.clock with
  | none =>
    obtain ⟨hi, hd, hOwn⟩ := hFilled fun i => t.disk ctx (off + i)
    refine .inl ⟨chain', _, rfl, ⟨hi, hd.add listed_pushed fun i hlt => ?_⟩, hOwn⟩
    have hDisk := hData.disk_of_fresh (p := p) hInv (fun q hq =>
      ⟨(listed_pushed q).mpr (.inl hq), fun hEq => hp (hEq ▸ hq)⟩) hMem hlt
    simpa [modify, hCtx, hOff] using hDisk
  | some junk =>
    obtain ⟨hi, hd, hOwn⟩ := hFilled junk
    have hListed := listed_erase (p := p) hi.lists.nodup
    refine .inr ⟨_, _, rfl, ⟨hi.drop hMem, hd.of_same (drop_sameData _ p) (fun q hq => ?_)
      fun q hq _ => ?_⟩, fun hEq => ((hListed p).mp hEq).2 rfl, hOwn.drop, t.clock, by simp [hRead]⟩
    · obtain ⟨hq', hqp⟩ := (hListed q).mp hq
      exact ((listed_pushed q).mp hq').resolve_right hqp
    · have hqp : q ≠ p := fun hEq => hp (hEq ▸ hq)
      exact (hListed q).mpr ⟨(listed_pushed q).mpr (.inl hq), hqp⟩

end

structure FetchSpec (env : Env) (s : PageCache) (lru : Bool → List ℕ) (flat : ℕ → Bytes)
    (ctx off : ℕ) (r : Option ℕ) (s' : PageCache) : Prop where
  lists : ∃ lru' chain', Good s' lru' chain' flat ∧ Fetched env s lru r lru' s'.gUsed
  others : ∀ q, Listed lru q → s'.Cached q → r ≠ some q →
    (s'.gPool q).ctx = (s.gPool q).ctx ∧ (s'.gPool q).off = (s.gPool q).off
  own : ∀ p, r = some p → s'.hashFind ctx off = some p ∧ (s'.gPool p).ra = false
  ra : s'.gRa = s.gRa ∧ s'.gRaVictim = s.gRaVictim
  keeps : Keeps s s'

theorem Good.fill_spec
    (h : Good s1 lru1 chain1 flat) (hSlot : Slot env s lru p (pushed lru1 p) s1.gUsed)
    (hp : ¬Listed lru1 p) (hu : p < s1.gUsed) (hAligned : pcPage ∣ off)
    (hFresh : s1.hashFind ctx off = none)
    (hKeys : ∀ q, (s1.gPool q).ctx = (s.gPool q).ctx ∧ (s1.gPool q).off = (s.gPool q).off)
    (hRa : s1.gRa = s.gRa ∧ s1.gRaVictim = s.gRaVictim) (hKeeps : Keeps s s1) :
    match (s1.install p ctx off).devRead env p ctx off with
    | (true, t) => FetchSpec env s lru flat ctx off (some p) t
    | (false, t) => FetchSpec env s lru flat ctx off none (t.drop p) := by
  have hClean : (s1.gPool p).dirty = false := by
    by_contra hd
    exact hp (h.data.clean p (by simpa using hd))
  rcases h.fill env hp hu hAligned hFresh with
    ⟨chain', t, hRead, hGood, hOwn⟩ | ⟨chain', t, hRead, hGood, hOut, hOwn, hFail⟩
  · rw [hRead]
    refine ⟨⟨_, _, hGood, hOwn.used ▸ .loaded hSlot⟩, fun q _ _ hq => ?_, fun q hq => ?_, ?_,
      hKeeps.trans (hOwn.keeps hClean)⟩
    · have hqp : q ≠ p := fun hEq => hq (by rw [hEq])
      rw [(hOwn.others q hqp).1, (hOwn.others q hqp).2.1]
      exact hKeys q
    · obtain rfl : p = q := by simpa using hq
      refine ⟨hGood.inv.hashFind_eq_some.mpr ⟨(listed_pushed p).mpr (.inr rfl), ?_⟩, hOwn.own.2.2.1⟩
      exact ⟨hOwn.own.1, hOwn.own.2.1⟩
    · exact ⟨hOwn.ra.1.trans hRa.1, hOwn.ra.2.trans hRa.2⟩
  · rw [hRead]
    refine ⟨⟨_, _, hGood, hOwn.used ▸ .failed hSlot hFail⟩, fun q _ hq _ => ?_, by simp, ?_,
      hKeeps.trans (hOwn.keeps hClean)⟩
    · have hqp : q ≠ p := fun hEq => hOut (hEq ▸ hGood.inv.cached_iff.mp hq)
      rw [(hOwn.others q hqp).1, (hOwn.others q hqp).2.1]
      exact hKeys q
    · exact ⟨hOwn.ra.1.trans hRa.1, hOwn.ra.2.trans hRa.2⟩

theorem Inv.hashFind_congr
    (h : Inv s lru chain) (h1 : Inv s1 lru1 chain1) (hSub : ∀ q, Listed lru1 q → Listed lru q)
    (hKeys : ∀ q, (s1.gPool q).ctx = (s.gPool q).ctx ∧ (s1.gPool q).off = (s.gPool q).off)
    (hMiss : s.hashFind ctx off = none) : s1.hashFind ctx off = none := by
  rw [h.hashFind_eq_none] at hMiss
  rw [h1.hashFind_eq_none]
  intro q hq
  rw [(hKeys q).1, (hKeys q).2]
  exact hMiss q (hSub q hq)

theorem Inv.lists_short (h : Inv s lru chain) (b : Bool) : (lru b).length ≤ pcPages := by
  have hSub : lru b ⊆ List.range pcPages := fun q hq => List.mem_range.mpr (h.listed_lt ⟨b, hq⟩)
  have hLen := ((h.lists.nodup b).subperm hSub).length_le
  rwa [List.length_range] at hLen

theorem keys_modify_data (s : PageCache) (p : ℕ) (d : Bytes) (q : ℕ) :
    ((s.modify p fun x => { x with data := d }).gPool q).dirty = (s.gPool q).dirty ∧
      ((s.modify p fun x => { x with data := d }).gPool q).ctx = (s.gPool q).ctx ∧
      ((s.modify p fun x => { x with data := d }).gPool q).off = (s.gPool q).off := by
  rw [gPool_modify]
  split_ifs with hq
  · rw [hq]
    exact ⟨rfl, rfl, rfl⟩
  · exact ⟨rfl, rfl, rfl⟩

theorem Good.fetch (h : Good s lru chain flat) (env : Env) (hAligned : pcPage ∣ off)
    (hMiss : s.hashFind ctx off = none) :
    FetchSpec env s lru flat ctx off (s.fetch env ctx off).1 (s.fetch env ctx off).2 := by
  unfold PageCache.fetch pageAlloc
  by_cases hu : s.gUsed < pcPages
  · rw [if_pos hu]
    have hClaim : Good s.claim lru chain flat := ⟨h.inv.claim hu, { h.data with }⟩
    have hp : ¬Listed lru s.gUsed := fun hm => Nat.lt_irrefl _ (h.inv.used _ hm)
    cases hf : env.frame s.clock with
    | false =>
      exact ⟨⟨lru, chain, hClaim, .noFrame hu hf⟩, fun q _ _ _ => ⟨rfl, rfl⟩, by simp, ⟨rfl, rfl⟩,
        .of_dirty rfl fun q hq => ⟨hq, rfl, rfl⟩⟩
    | true =>
      have hClean : (s.gPool s.gUsed).dirty = false := by
        by_contra hd
        exact hp (h.data.clean _ (by simpa using hd))
      have hZero : Good (s.claim.modify s.gUsed fun q => { q with data := fun _ => 0 }) lru chain
          flat := ⟨hClaim.inv.modify hp _, hClaim.data.modify hp hClean⟩
      have hKept := keys_modify_data s.claim s.gUsed fun _ => 0
      have hKeys := fun q => (hKept q).2
      have hSpec := hZero.fill_spec (.fresh hu : Slot env s lru _ _ _) hp
        (Nat.lt_succ_self _) hAligned
        (h.inv.hashFind_congr hZero.inv (fun _ hq => hq) hKeys hMiss) hKeys ⟨rfl, rfl⟩
        (.of_dirty rfl fun q hq => ⟨(hKept q).1.trans hq, hKeys q⟩)
      simp only [if_true]
      generalize (PageCache.install _ _ ctx off).devRead env _ ctx off = result at hSpec ⊢
      obtain ⟨ok, t⟩ := result
      cases ok <;> exact hSpec
  · rw [if_neg hu]
    have hFull : s.gUsed = pcPages := le_antisymm h.inv.bound (not_lt.mp hu)
    have hBal := h.balance
    have hHead : s.balance.gInactiveHead = (balanced s lru false).head? := hBal.inv.lists.head false
    obtain ⟨hGood, hFrame, hVictim, hFirst, hKeeps⟩ := hBal.victim env (pcPages + 1)
      (balanced s lru false) (hBal.inv.lists.linked false).linked
      (Nat.lt_succ_of_le (hBal.inv.lists_short false))
    simp only [hHead]
    generalize PageCache.victim env (pcPages + 1) (balanced s lru false).head? s.balance =
      result at *
    obtain ⟨r, t⟩ := result
    dsimp only at hGood hFrame hVictim hFirst hKeeps ⊢
    replace hKeeps := (balance_frame s).sameData.keeps.trans hKeeps
    have hCore := fun q => Page.core_fields ((balance_frame s).page q)
    have hKeys : ∀ q, (t.gPool q).ctx = (s.gPool q).ctx ∧
        (t.gPool q).off = (s.gPool q).off := fun q => by
        rw [hFrame.page q]
        exact ⟨(hCore q).2.1, (hCore q).2.2.1⟩
    have hUsed : t.gUsed = s.gUsed := by
      rw [hFrame.rest]
      exact (balance_frame s).used
    have hRa : t.gRa = s.gRa ∧ t.gRaVictim = s.gRaVictim := by
      rw [hFrame.rest]
      exact ⟨(balance_frame s).ra, (balance_frame s).raVictim⟩
    cases r with
    | none =>
      exact ⟨⟨_, _, hGood, hUsed ▸ .owed hFull⟩, fun q _ _ _ => hKeys q, by simp, hRa, hKeeps⟩
    | some v =>
      obtain ⟨hMem, hClean⟩ := hVictim v rfl
      have hDrop := hGood.drop ⟨false, hMem⟩ hClean
      have hListed := listed_erase (p := v) hGood.inv.lists.nodup
      have hSame := drop_sameData t v
      have hKeys' : ∀ q, ((t.drop v).gPool q).ctx = (s.gPool q).ctx ∧
          ((t.drop v).gPool q).off = (s.gPool q).off := fun q =>
        ⟨(hSame.page q).1.trans (hKeys q).1, (hSame.page q).2.1.trans (hKeys q).2⟩
      obtain ⟨hUsed', hRa', hRaVictim'⟩ := rest_drop t v
      have hOut : ¬Listed (fun b => (balanced s lru b).erase v) v :=
        fun hm => ((hListed v).mp hm).2 rfl
      have hSlot : Slot env s lru v (pushed (fun b => (balanced s lru b).erase v) v)
          (t.drop v).gUsed := by
        rw [hUsed', hUsed]
        exact .reclaimed hFull v hMem fun hw => (hFirst hw).symm
      have hSpec := hDrop.fill_spec hSlot hOut
        (by rw [hUsed', hUsed, hFull]; exact hGood.inv.listed_lt ⟨false, hMem⟩) hAligned
        (h.inv.hashFind_congr hDrop.inv
          (fun q hq => (listed_balanced q).mp ((hListed q).mp hq).1) hKeys' hMiss) hKeys'
        ⟨hRa'.trans hRa.1, hRaVictim'.trans hRa.2⟩ (hKeeps.trans hSame.keeps)
      dsimp only
      generalize ((t.drop v).install v ctx off).devRead env v ctx off = result at hSpec ⊢
      obtain ⟨ok, t'⟩ := result
      cases ok <;> exact hSpec

end Gnos.PageCache
