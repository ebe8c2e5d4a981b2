import Gnos.PageCache.Invariant

/-! What the cached pages and the devices hold.  `flat ctx` is the byte array that the clients of
the device `ctx` have written.  `Data s C flat` is stated for the set `C` of the pages whose content
counts: a page that is being filled is on the lists but not in `C`. -/

namespace Gnos.PageCache

open ProofKit Finset

variable {s s' : PageCache} {C C' : ℕ → Prop} {flat : ℕ → Bytes} {p : ℕ} {env : Env}
  {bytes : List (BitVec 8)} {ctx pos : ℕ}

theorem pageOf_eq {off a : ℕ} (hAligned : pcPage ∣ off) (h : off ≤ a) (h' : a < off + pcPage) :
    pageOf a = off := by
  obtain ⟨k, rfl⟩ := hAligned
  have hDiv : a / pcPage = k := by
    unfold pcPage at *
    omega
  rw [pageOf, hDiv, Nat.mul_comm]

theorem pageOf_add_mod (a : ℕ) : pageOf a + a % pcPage = a := by
  rw [pageOf, Nat.mul_comm]
  exact Nat.div_add_mod a pcPage

theorem pcPage_dvd_pageOf (a : ℕ) : pcPage ∣ pageOf a := Nat.dvd_mul_left _ _

theorem mod_pcPage_lt (a : ℕ) : a % pcPage < pcPage := Nat.mod_lt a (by decide)

/-- `flat` with `bytes` written to the device `ctx` from `pos` on; offsets wrap at 64 bits. -/
def overlay (flat : ℕ → Bytes) (ctx pos : ℕ) (bytes : List (BitVec 8)) : ℕ → Bytes := fun c a =>
  if c = ctx ∧ a < 2 ^ 64 then (bytes[sub64 a pos]?).getD (flat c a) else flat c a

theorem overlay_page (flat : ℕ → Bytes) (ctx : ℕ) {pos : ℕ} (hPos : pos < 2 ^ 64)
    (hLen : pos % pcPage + bytes.length ≤ pcPage) (c a : ℕ) : overlay flat ctx pos bytes c a =
      if c = ctx ∧ pos ≤ a then (bytes[a - pos]?).getD (flat c a) else flat c a := by
  have hEnd : pos + bytes.length ≤ 2 ^ 64 := by
    unfold pcPage at hLen
    omega
  unfold overlay
  by_cases hc : c = ctx
  · by_cases ha : a < 2 ^ 64 <;> by_cases hle : pos ≤ a
    · rw [if_pos ⟨hc, ha⟩, if_pos ⟨hc, hle⟩, sub64_of_le hle ha]
    · have hOut : bytes.length ≤ sub64 a pos := by
        rw [sub64_eq]
        omega
      rw [if_pos ⟨hc, ha⟩, if_neg fun h => hle h.2, List.getElem?_eq_none hOut]
      rfl
    · have hOut : bytes.length ≤ a - pos := by omega
      rw [if_neg fun h => ha h.2, if_pos ⟨hc, hle⟩, List.getElem?_eq_none hOut]
      rfl
    · omega
  · rw [if_neg fun h => hc h.1, if_neg fun h => hc h.1]

/-- The event stored a byte of device `ctx` at offset `a`. -/
def Event.Stores : Event → ℕ → ℕ → Prop
  | .stored c pos bytes, ctx, a => c = ctx ∧ pos ≤ a ∧ a < pos + bytes.length
  | .wrote _ _ _, _, _ => False

/-- The page `q` is dirty and holds the byte of device `ctx` at offset `a`. -/
def DirtyAt (s : PageCache) (ctx a q : ℕ) : Prop :=
  (s.gPool q).dirty ∧ (s.gPool q).ctx = ctx ∧ (s.gPool q).off = pageOf a

structure Data (s : PageCache) (C : ℕ → Prop) (flat : ℕ → Bytes) : Prop where
  wr : ∀ q, (s.gPool q).dirty → (s.gPool q).wr
  clean : ∀ q, (s.gPool q).dirty → C q
  dirtyN : s.gDirtyN = ((Finset.range pcPages).filter fun q => (s.gPool q).dirty).card
  page : ∀ q, C q → ∀ i < pcPage, (s.gPool q).data i = flat (s.gPool q).ctx ((s.gPool q).off + i)
  disk : ∀ ctx a, s.disk ctx a = flat ctx a ∨ ∃ q, s.DirtyAt ctx a q
  /-- A byte stored, and not overwritten since, is in a dirty page or was part of a successful
  device write since. -/
  held : ∀ newer older ctx pos bytes i b, s.trace = newer ++ .stored ctx pos bytes :: older →
    bytes[i]? = some b → (∀ e ∈ newer, ¬e.Stores ctx (pos + i)) →
    (∃ q, s.DirtyAt ctx (pos + i) q ∧ (s.gPool q).data ((pos + i) % pcPage) = b) ∨
      ∃ page, .wrote ctx (pageOf (pos + i)) page ∈ newer ∧ page ((pos + i) % pcPage) = b

structure SameData (s s' : PageCache) : Prop where
  page : ∀ q, (s'.gPool q).ctx = (s.gPool q).ctx ∧ (s'.gPool q).off = (s.gPool q).off ∧
    (s'.gPool q).dirty = (s.gPool q).dirty ∧ (s'.gPool q).wr = (s.gPool q).wr ∧
    (s'.gPool q).data = (s.gPool q).data
  dirtyN : s'.gDirtyN = s.gDirtyN
  disk : s'.disk = s.disk
  trace : s'.trace = s.trace

theorem SameData.trans {s s' s'' : PageCache} (h : SameData s s') (h' : SameData s' s'') :
    SameData s s'' := by
  refine ⟨fun q => ?_, h'.dirtyN.trans h.dirtyN, h'.disk.trans h.disk, h'.trace.trans h.trace⟩
  obtain ⟨h1, h2, h3, h4, h5⟩ := h.page q
  obtain ⟨h1', h2', h3', h4', h5'⟩ := h'.page q
  exact ⟨h1'.trans h1, h2'.trans h2, h3'.trans h3, h4'.trans h4, h5'.trans h5⟩

theorem LruFrame.sameData (h : LruFrame s s') : SameData s s' := by
  refine ⟨fun q => ?_, h.dirtyN, h.disk, h.trace⟩
  obtain ⟨-, h1, h2, h3, -, h4, h5⟩ := Page.core_fields (h.page q)
  exact ⟨h1, h2, h3, h4, h5⟩

theorem HashFrame.sameData (h : HashFrame s s') : SameData s s' := by
  refine ⟨fun q => ?_, ?_, ?_, ?_⟩
  · rw [h.fields q]
    exact ⟨rfl, rfl, rfl, rfl, rfl⟩
  all_goals rw [h.rest]

theorem drop_sameData (s : PageCache) (p : ℕ) : SameData s (s.drop p) :=
  (hashRemove_frame s p).sameData.trans (lruUnlink_frame _ p).sameData

theorem SameData.dirtyAt (h : SameData s s') (ctx a q : ℕ) :
    s'.DirtyAt ctx a q ↔ s.DirtyAt ctx a q := by
  obtain ⟨h1, h2, h3, -⟩ := h.page q
  rw [DirtyAt, h1, h2, h3, DirtyAt]

/-- Every dirty page of `s` is still dirty in `s'`, or the device took it on the way. -/
def Keeps (s s' : PageCache) : Prop :=
  ∃ newer, s'.trace = newer ++ s.trace ∧ ∀ q, (s.gPool q).dirty →
    (∃ q', (s'.gPool q').dirty ∧ (s'.gPool q').ctx = (s.gPool q).ctx ∧
      (s'.gPool q').off = (s.gPool q).off) ∨
    ∃ page, .wrote (s.gPool q).ctx (s.gPool q).off page ∈ newer

theorem Keeps.trans {s s' s'' : PageCache} (h : Keeps s s') (h' : Keeps s' s'') : Keeps s s'' := by
  obtain ⟨newer, hTrace, hKept⟩ := h
  obtain ⟨newer', hTrace', hKept'⟩ := h'
  refine ⟨newer' ++ newer, by rw [hTrace', hTrace, List.append_assoc], fun q hq => ?_⟩
  rcases hKept q hq with ⟨r, hr, hCtx, hOff⟩ | ⟨page, hPage⟩
  · rw [← hCtx, ← hOff]
    refine (hKept' r hr).imp_right ?_
    rintro ⟨page, hPage⟩
    exact ⟨page, List.mem_append_left _ hPage⟩
  · exact .inr ⟨page, List.mem_append_right _ hPage⟩

theorem Keeps.of_dirty (hTrace : s'.trace = s.trace)
    (hDirty : ∀ q, (s.gPool q).dirty → (s'.gPool q).dirty ∧
      (s'.gPool q).ctx = (s.gPool q).ctx ∧ (s'.gPool q).off = (s.gPool q).off) : Keeps s s' :=
  ⟨[], hTrace, fun q hq => .inl ⟨q, hDirty q hq⟩⟩

theorem SameData.keeps (h : SameData s s') : Keeps s s' :=
  .of_dirty h.trace fun q hq => by
    obtain ⟨h1, h2, h3, -⟩ := h.page q
    exact ⟨h3.trans hq, h1, h2⟩

theorem update_putPage (d : ℕ → Bytes) (page : Bytes) {off : ℕ} (hAligned : pcPage ∣ off)
    (c ctx a : ℕ) : Function.update d c (putPage (d c) off page) ctx a =
      if c = ctx ∧ off = pageOf a then page (a % pcPage) else d ctx a := by
  rcases eq_or_ne ctx c with rfl | hc
  · rw [Function.update_self, putPage]
    have hMod := mod_pcPage_lt a
    have hSum := pageOf_add_mod a
    by_cases ha : off ≤ a ∧ a < off + pcPage
    · have hPage := pageOf_eq hAligned ha.1 ha.2
      rw [if_pos ha, if_pos ⟨rfl, hPage.symm⟩]
      congr 1
      omega
    · rw [if_neg ha, if_neg fun hEq => ha ⟨by omega, by omega⟩]
  · rw [Function.update_of_ne hc, if_neg fun hEq => hc hEq.1.symm]

theorem gPool_written (s : PageCache) (p q : ℕ) :
    (s.written p).gPool q = if q = p then { s.gPool p with dirty := false } else s.gPool q :=
  gPool_modify s p q fun q => { q with dirty := false }

theorem written_keeps (s : PageCache) (p : ℕ) : Keeps s (s.written p) := by
  refine ⟨[.wrote (s.gPool p).ctx (s.gPool p).off (s.gPool p).data], rfl, fun q hq => ?_⟩
  by_cases hqp : q = p
  · exact .inr ⟨(s.gPool p).data, by simp [hqp]⟩
  · refine .inl ⟨q, ?_⟩
    rw [gPool_written, if_neg hqp]
    exact ⟨hq, rfl, rfl⟩

theorem card_dirty_written (hd : (s.gPool p).dirty) (hp : p < pcPages) :
    ((range pcPages).filter fun q => ((s.written p).gPool q).dirty).card =
      ((range pcPages).filter fun q => (s.gPool q).dirty).card - 1 := by
  rw [← card_erase_of_mem (a := p) (by simp [hd, hp])]
  refine congrArg card (ext fun q => ?_)
  by_cases hq : q = p <;> simp [gPool_written, hq]

section

variable (h : Data s C flat)
include h

theorem Data.of_same (hs : SameData s s') (hSub : ∀ q, C' q → C q)
    (hDirty : ∀ q, C q → (s.gPool q).dirty → C' q) : Data s' C' flat where
  wr q hq := by
    obtain ⟨-, -, h3, h4, -⟩ := hs.page q
    rw [h4]
    exact h.wr q (h3 ▸ hq)
  clean q hq := by
    have hq' : (s.gPool q).dirty := (hs.page q).2.2.1 ▸ hq
    exact hDirty q (h.clean q hq') hq'
  dirtyN := by
    rw [hs.dirtyN, h.dirtyN]
    exact congrArg card (filter_congr fun q _ => by rw [(hs.page q).2.2.1])
  page q hq i hi := by
    obtain ⟨h1, h2, -, -, h5⟩ := hs.page q
    rw [h1, h2, h5]
    exact h.page q (hSub q hq) i hi
  disk ctx a := by
    simp only [hs.dirtyAt, hs.disk]
    exact h.disk ctx a
  held newer older ctx pos bytes i b := by
    simp only [hs.dirtyAt, hs.trace, fun q => (hs.page q).2.2.2.2]
    exact h.held newer older ctx pos bytes i b

theorem Data.modify (hp : ¬C p) {f : Page → Page} (hf : (f (s.gPool p)).dirty = false) :
    Data (s.modify p f) C flat := by
  have hClean : (s.gPool p).dirty = false := by
    by_contra hd
    exact hp (h.clean p (by simpa using hd))
  have hPage : ∀ q, C q → (s.modify p f).gPool q = s.gPool q := fun q hq => by
    have hqp : q ≠ p := fun hEq => hp (hEq ▸ hq)
    rw [gPool_modify, if_neg hqp]
  have hDirty : ∀ q, ((s.modify p f).gPool q).dirty = (s.gPool q).dirty := fun q => by
    rw [gPool_modify]
    split_ifs with hq
    · rw [hf, hq, hClean]
    · rfl
  have hAt : ∀ ctx a q, (s.modify p f).DirtyAt ctx a q ↔ s.DirtyAt ctx a q := fun ctx a q => by
    rw [DirtyAt, DirtyAt, hDirty]
    refine and_congr_right fun hd => ?_
    rw [hPage q (h.clean q hd)]
  refine ⟨fun q hq => ?_, fun q hq => h.clean q (hDirty q ▸ hq), ?_, fun q hq => ?_,
    fun ctx a => ?_, fun newer older ctx pos bytes i b ht hb hn => ?_⟩
  · have hq' : (s.gPool q).dirty := hDirty q ▸ hq
    rw [hPage q (h.clean q hq')]
    exact h.wr q hq'
  · exact h.dirtyN.trans (congrArg card (filter_congr fun q _ => by rw [hDirty]))
  · rw [hPage q hq]
    exact h.page q hq
  · simp only [hAt]
    exact h.disk ctx a
  · refine (h.held newer older ctx pos bytes i b ht hb hn).imp_left ?_
    rintro ⟨q, hq, hData⟩
    exact ⟨q, (hAt _ _ q).mpr hq, by rw [hPage q (h.clean q hq.1), hData]⟩

theorem Data.add (hSub : ∀ q, C' q ↔ C q ∨ q = p)
    (hData : ∀ i < pcPage, (s.gPool p).data i = flat (s.gPool p).ctx ((s.gPool p).off + i)) :
    Data s C' flat :=
  { h with
    clean := fun q hq => (hSub q).mpr (.inl (h.clean q hq))
    page := fun q hq => by
      rcases (hSub q).mp hq with hq | rfl
      · exact h.page q hq
      · exact hData }

section

variable (hd : (s.gPool p).dirty)
include hd

theorem Data.pageFlushOne_eq : s.pageFlushOne env p = match env.write s.clock with
      | some junk => (false, s.torn p junk)
      | none => (true, s.written p) :=
  if_neg (by simp [hd, h.wr p hd])

theorem Data.torn (hAligned : pcPage ∣ (s.gPool p).off) (junk : Bytes) :
    Data (s.torn p junk) C flat := by
  refine { h with disk := fun ctx a => ?_ }
  have hDisk := update_putPage s.disk junk hAligned (s.gPool p).ctx ctx a
  by_cases hAt : s.DirtyAt ctx a p
  · exact .inr ⟨p, hAt⟩
  · rw [if_neg fun hEq => hAt ⟨hd, hEq⟩] at hDisk
    exact (h.disk ctx a).imp_left hDisk.trans

theorem Data.written (hp : p < pcPages) (hAligned : pcPage ∣ (s.gPool p).off) :
    Data (s.written p) C flat := by
  have hPage := gPool_written s p
  have hSame : ∀ q ≠ p, (s.written p).gPool q = s.gPool q := fun q hq => by
    rw [hPage, if_neg hq]
  have hDirty : ∀ q, ((s.written p).gPool q).dirty ↔ q ≠ p ∧ (s.gPool q).dirty :=
    fun q => by by_cases hq : q = p <;> simp [hPage, hq]
  have hAt : ∀ ctx a q, (s.written p).DirtyAt ctx a q ↔ q ≠ p ∧ s.DirtyAt ctx a q :=
    fun ctx a q => by by_cases hq : q = p <;> simp [DirtyAt, hPage, hq]
  refine ⟨fun q hq => ?_, fun q hq => h.clean q ((hDirty q).mp hq).2, ?_, fun q hq i hi => ?_,
    fun ctx a => ?_, fun newer older ctx pos bytes i b ht hb hn => ?_⟩
  · obtain ⟨hqp, hq⟩ := (hDirty q).mp hq
    rw [hSame q hqp]
    exact h.wr q hq
  · rw [card_dirty_written hd hp, ← h.dirtyN]
    rfl
  · have hKept : ((s.written p).gPool q).data = (s.gPool q).data ∧
        ((s.written p).gPool q).ctx = (s.gPool q).ctx ∧
        ((s.written p).gPool q).off = (s.gPool q).off := by
      by_cases hqp : q = p <;> simp [hPage, hqp]
    rw [hKept.1, hKept.2.1, hKept.2.2]
    exact h.page q hq i hi
  · have hDisk := update_putPage s.disk (s.gPool p).data hAligned (s.gPool p).ctx ctx a
    by_cases hIn : s.DirtyAt ctx a p
    · -- The byte is in the page that the device just took.
      obtain ⟨-, rfl, hOff⟩ := hIn
      rw [if_pos ⟨rfl, hOff⟩] at hDisk
      refine .inl (hDisk.trans ?_)
      rw [h.page p (h.clean p hd) _ (mod_pcPage_lt a), hOff, pageOf_add_mod]
    · rw [if_neg fun hEq => hIn ⟨hd, hEq⟩] at hDisk
      refine (h.disk ctx a).imp hDisk.trans ?_
      rintro ⟨q, hq⟩
      exact ⟨q, (hAt ctx a q).mpr ⟨fun hEq => hIn (hEq ▸ hq), hq⟩⟩
  · cases newer with
    | nil => exact absurd (List.cons.inj ht).1 (by simp)
    | cons e newer =>
      obtain ⟨rfl, ht'⟩ := List.cons.inj ht
      rcases h.held newer older ctx pos bytes i b ht' hb fun e he => hn e (by simp [he]) with
        ⟨q, hq, hData⟩ | ⟨page, hMem, hData⟩
      · by_cases hqp : q = p
        · subst hqp
          refine .inr ⟨(s.gPool q).data, ?_, hData⟩
          rw [← hq.2.1, ← hq.2.2]
          exact List.mem_cons_self
        · exact .inl ⟨q, (hAt _ _ q).mpr ⟨hqp, hq⟩, by rw [hSame q hqp, hData]⟩
      · exact .inr ⟨page, by simp [hMem], hData⟩

end

end

theorem gPool_storeBytes (s : PageCache) (ctx p pos : ℕ) (bytes : List (BitVec 8)) (q : ℕ) :
    (s.storeBytes ctx p pos bytes).gPool q = if q = p then { s.gPool p with
        data := patch (s.gPool p).data (pos % pcPage) bytes, wr := true, dirty := true }
      else s.gPool q := by
  unfold storeBytes
  dsimp only
  split
  · rename_i hd
    rw [gPool_modify, if_pos rfl] at hd
    rw [gPool_modify]
    split
    · rw [show (s.gPool p).dirty from hd]
    · rfl
  · by_cases hq : q = p <;> simp [gPool_modify, hq]

theorem rest_storeBytes (s : PageCache) (ctx p pos : ℕ) (bytes : List (BitVec 8)) :
    s.storeBytes ctx p pos bytes = { s with
      gPool := (s.storeBytes ctx p pos bytes).gPool
      gDirtyN := if (s.gPool p).dirty then s.gDirtyN else s.gDirtyN + 1
      trace := .stored ctx pos bytes :: s.trace } := by
  have hDirty : ((s.modify p fun q =>
      { q with data := patch q.data (pos % pcPage) bytes, wr := true }).gPool p).dirty =
      (s.gPool p).dirty := by rw [gPool_modify, if_pos rfl]
  unfold storeBytes
  simp only [hDirty]
  split <;> rfl

theorem storeBytes_keeps (s : PageCache) (ctx p pos : ℕ) (bytes : List (BitVec 8)) :
    Keeps s (s.storeBytes ctx p pos bytes) := by
  refine ⟨[.stored ctx pos bytes], by rw [rest_storeBytes]; rfl, fun q hq => .inl ⟨q, ?_⟩⟩
  by_cases hqp : q = p <;> simp [gPool_storeBytes, hqp, hq]

theorem card_dirty_storeBytes (hp : p < pcPages) :
    ((range pcPages).filter fun q => ((s.storeBytes ctx p pos bytes).gPool q).dirty).card =
      (if (s.gPool p).dirty then ((range pcPages).filter fun q => (s.gPool q).dirty).card
        else ((range pcPages).filter fun q => (s.gPool q).dirty).card + 1) := by
  have hInsert : ((range pcPages).filter fun q => ((s.storeBytes ctx p pos bytes).gPool q).dirty) =
      insert p ((range pcPages).filter fun q => (s.gPool q).dirty) := by
    refine ext fun q => ?_
    by_cases hq : q = p <;> simp [gPool_storeBytes, hq, hp]
  rw [hInsert]
  split_ifs with hd
  · rw [insert_eq_of_mem (by simp [hd, hp])]
  · exact card_insert_of_notMem (by simp [hd])

theorem pageOf_ne {off off' i j : ℕ} (h : pcPage ∣ off) (h' : pcPage ∣ off') (hi : i < pcPage)
    (hj : j < pcPage) (hne : off ≠ off') : off + i ≠ off' + j := fun hEq =>
  hne ((pageOf_eq h (by omega) (by omega)).symm.trans
    (pageOf_eq (a := off + i) h' (by omega) (by omega)))

theorem Data.store (h : Data s C flat) (hp : C p)
    (hUsed : p < pcPages) (hCtx : (s.gPool p).ctx = ctx) (hOff : (s.gPool p).off = pageOf pos)
    (hPos : pos < 2 ^ 64) (hLen : pos % pcPage + bytes.length ≤ pcPage)
    (hAligned : ∀ q, C q → pcPage ∣ (s.gPool q).off)
    (hKey : ∀ q, C q → (s.gPool q).ctx = (s.gPool p).ctx → (s.gPool q).off = (s.gPool p).off →
      q = p) : Data (s.storeBytes ctx p pos bytes) C (overlay flat ctx pos bytes) := by
  have hPage := gPool_storeBytes s ctx p pos bytes
  have hOther : ∀ q ≠ p, (s.storeBytes ctx p pos bytes).gPool q = s.gPool q := fun q hq => by
    rw [hPage, if_neg hq]
  have hFlat := overlay_page flat ctx hPos hLen
  have hSum := pageOf_add_mod pos
  have hAt : ∀ c a q, s.DirtyAt c a q → (s.storeBytes ctx p pos bytes).DirtyAt c a q := by
    intro c a q hq
    by_cases hqp : q = p
    · subst hqp
      simpa [DirtyAt, hPage] using hq.2
    · rwa [DirtyAt, hOther q hqp]
  have hIn : ∀ a, pos ≤ a → a < pos + bytes.length →
      (s.storeBytes ctx p pos bytes).DirtyAt ctx a p := by
    intro a ha ha'
    have hPageOf : pageOf a = (s.gPool p).off := pageOf_eq (hAligned p hp) (by omega) (by omega)
    simp [DirtyAt, hPage, hPageOf, hCtx]
  refine ⟨fun q hq => ?_, fun q hq => ?_, ?_, fun q hq i hi => ?_, fun c a => ?_,
    fun newer older c pos' bytes' i b ht hb hn => ?_⟩
  · by_cases hqp : q = p
    · simp [hPage, hqp]
    · rw [hOther q hqp] at hq ⊢
      exact h.wr q hq
  · by_cases hqp : q = p
    · exact hqp ▸ hp
    · rw [hOther q hqp] at hq
      exact h.clean q hq
  · rw [card_dirty_storeBytes hUsed, ← h.dirtyN, rest_storeBytes]
  · by_cases hqp : q = p
    · subst hqp
      rw [hPage, if_pos rfl, hFlat]
      simp only [patch, h.page q hp i hi, hCtx, true_and]
      by_cases hle : pos % pcPage ≤ i
      · rw [if_pos hle, if_pos (by omega),
          show (s.gPool q).off + i - pos = i - pos % pcPage by omega]
      · rw [if_neg hle, if_neg (by omega)]
    · rw [hOther q hqp, h.page q hq i hi, hFlat, ite_eq_right_iff.mpr]
      rintro ⟨hc, hle⟩
      have hne : (s.gPool q).off ≠ (s.gPool p).off :=
        fun hEq => hqp (hKey q hq (hc.trans hCtx.symm) hEq)
      rw [List.getElem?_eq_none, Option.getD_none]
      -- The bytes written are all in the page of `p`.
      by_contra hlt
      refine pageOf_ne (j := (s.gPool q).off + i - (s.gPool p).off) (hAligned q hq)
        (hAligned p hp) hi ?_ hne ?_ <;> omega
  · by_cases hStored : c = ctx ∧ pos ≤ a ∧ a < pos + bytes.length
    · obtain ⟨rfl, ha, ha'⟩ := hStored
      exact .inr ⟨p, hIn a ha ha'⟩
    · refine (h.disk c a).imp (fun hDisk => ?_) fun ⟨q, hq⟩ => ⟨q, hAt c a q hq⟩
      rw [rest_storeBytes, hFlat]
      simp only [hDisk]
      rw [ite_eq_right_iff.mpr]
      rintro ⟨hc, hle⟩
      rw [List.getElem?_eq_none, Option.getD_none]
      by_contra hlt
      exact hStored ⟨hc, hle, by omega⟩
  · rw [rest_storeBytes] at ht
    cases newer with
    | nil =>
      -- The byte is one of those just stored.
      obtain ⟨hEvent, -⟩ := List.cons.inj ht
      obtain ⟨rfl, rfl, rfl⟩ := Event.stored.inj hEvent
      have hi : i < bytes.length := (List.getElem?_eq_some_iff.mp hb).1
      have hMod : (pos + i) % pcPage = pos % pcPage + i := by
        unfold pcPage at *
        omega
      refine .inl ⟨p, hIn (pos + i) (by omega) (by omega), ?_⟩
      rw [hPage, if_pos rfl, hMod]
      simp [patch, hb]
    | cons e newer =>
      obtain ⟨rfl, ht'⟩ := List.cons.inj ht
      rcases h.held newer older c pos' bytes' i b ht' hb fun e he => hn e (by simp [he]) with
        ⟨q, hq, hData⟩ | ⟨page, hMem, hData⟩
      · refine .inl ⟨q, hAt _ _ q hq, ?_⟩
        by_cases hqp : q = p
        · subst hqp
          have hNot := hn _ List.mem_cons_self
          have hSum' := pageOf_add_mod (pos' + i)
          have hOff' : pageOf (pos' + i) = pageOf pos := hq.2.2.symm.trans hOff
          rw [hPage, if_pos rfl, ← hData]
          simp only [patch]
          rw [ite_eq_right_iff.mpr]
          intro hle
          rw [List.getElem?_eq_none, Option.getD_none]
          by_contra hlt
          exact hNot ⟨hCtx.symm.trans hq.2.1, by omega, by omega⟩
        · rw [hOther q hqp, hData]
      · exact .inr ⟨page, by simp [hMem], hData⟩

end Gnos.PageCache
