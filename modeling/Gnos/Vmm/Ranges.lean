import Gnos.Vmm.Charges

/-! The operations on ranges of pages, page by page: `vmm_protect`, `vmm_unmap`, `vmm_alloc_range`.
Frames that `vmm_unmap` collects for the other processors are let go just as without them. -/

namespace Gnos.Vmm

open ProofKit Function Nat

variable {s'' : Vmm} {n size v : ℕ}

section Ranges

variable {s s' : Vmm} {role : Roles} {base : Set ℕ} {loose : ℕ → ℕ} {sp va f : ℕ}

theorem pageCount_mul_le (a b : ℕ) : pageCount a b * pageSize ≤ b - a := div_mul_le_self _ _

theorem first_page (h : va + (n + 1) * pageSize ≤ userLimit) :
    va < userLimit ∧ va + pageSize + n * pageSize ≤ userLimit := by
  unfold pageSize at h ⊢
  omega

theorem next_page (va : ℕ) : (va + pageSize) / pageSize = va / pageSize + 1 :=
  add_div_right va (by decide)

/-- Pages other than the `n + 1` from `v` on stay. -/
theorem outside_succ (hSame : ∀ x, x ≠ (sp, v) → s'.leaves x = s.leaves x)
    (h : ∀ x : ℕ × ℕ, ¬(x.1 = sp ∧ v + 1 ≤ x.2 ∧ x.2 < v + 1 + n) → s''.leaves x = s'.leaves x)
    (x : ℕ × ℕ) (hx : ¬(x.1 = sp ∧ v ≤ x.2 ∧ x.2 < v + (n + 1))) : s''.leaves x = s.leaves x := by
  rw [h x (by omega), hSame x]
  rintro rfl
  exact hx ⟨rfl, le_refl _, by omega⟩

structure Kept (role : Roles) (base : Set ℕ) (loose : ℕ → ℕ) (s s' : Vmm) : Prop where
  inv : Inv s' role base loose
  stays : Local base s s'
  settled : Settled s → Settled s'

theorem Kept.refl (h : Inv s role base loose) : Kept role base loose s s :=
  ⟨h, .refl base s, id⟩

theorem Kept.trans {role' : Roles} (h : Kept role base loose s s')
    (h' : Kept role' base loose s' s'') : Kept role' base loose s s'' :=
  ⟨h'.inv, h.stays.trans h'.stays, h'.settled ∘ h.settled⟩

theorem Books.accounting {s1 s2 : Vmm} {n : ℕ → ℕ} (h : Books s1 n) (hAccount : Accounting s1 s2)
    (hCgs : s2.gCgs = s1.gCgs) : Books s2 n := by
  refine h.congr ⟨hAccount.gUsed, fun sp => by rw [hAccount.space], fun _ => ?_, fun _ => ?_⟩ hCgs
  · rw [hCgs]
  · rw [hCgs]

/-- What `vmm_protect` makes of an entry that is not copy-on-write. -/
def withBits (bits e : Pte) : Pte := if e.p then { e with rw := bits.rw, nx := bits.nx } else e

/-- The `n` pages from `v` on have the permissions of `bits`. -/
structure Retagged (bits : Pte) (sp v n : ℕ) (s s' : Vmm) : Prop where
  inside : ∀ w, v ≤ w → w < v + n → s'.leaves (sp, w) = withBits bits (s.leaves (sp, w))
  outside : ∀ x : ℕ × ℕ, ¬(x.1 = sp ∧ v ≤ x.2 ∧ x.2 < v + n) → s'.leaves x = s.leaves x

theorem Retagged.zero (bits : Pte) (sp v : ℕ) (s : Vmm) : Retagged bits sp v 0 s s :=
  ⟨fun w _ _ => by omega, fun _ _ => rfl⟩

theorem Retagged.succ {bits : Pte}
    (hFirst : s'.leaves = update s.leaves (sp, v) (withBits bits (s.leaves (sp, v))))
    (h : Retagged bits sp (v + 1) n s' s'') : Retagged bits sp v (n + 1) s s'' := by
  have hSame : ∀ x, x ≠ (sp, v) → s'.leaves x = s.leaves x := by
    intro x hx
    rw [hFirst, update_of_ne hx]
  refine ⟨?_, outside_succ hSame h.outside⟩
  intro w hLow hHigh
  rcases eq_or_lt_of_le hLow with rfl | hLow
  · rw [h.outside _ (by simp), hFirst, update_self]
  · rw [h.inside w hLow (by omega), hSame (sp, w) (by simp; omega)]

/-- An entry that `vmm_protect` neither breaks out nor refuses. -/
def Pliant (e : Pte) : Prop := e.p → e.cow = false ∧ e.ps = false

theorem release_comm (g : Vmm → Vmm)
    (hg : ∀ s p m u, g { s with pmm := p, gShm := m, gFrameSlotsUsed := u } =
      { g s with pmm := p, gShm := m, gFrameSlotsUsed := u }) (s : Vmm) (b : Bool) (f : ℕ) :
    (g s).release b f = g (s.release b f) := by
  have hSelf : g s = { g s with
      pmm := s.pmm, gShm := s.gShm, gFrameSlotsUsed := s.gFrameSlotsUsed } := hg s s.pmm s.gShm _
  have hPmm : (g s).pmm = s.pmm := by rw [hSelf]
  have hShm : (g s).gShm = s.gShm := by rw [hSelf]
  have hSlots : (g s).gFrameSlotsUsed = s.gFrameSlotsUsed := by rw [hSelf]
  unfold release
  cases b with
  | false =>
    show { g s with pmm := (g s).pmm.free (f * pageSize) } =
      g { s with pmm := s.pmm.free (f * pageSize) }
    rw [hPmm, show g { s with pmm := s.pmm.free (f * pageSize) } = _ from
      hg s (s.pmm.free (f * pageSize)) s.gShm s.gFrameSlotsUsed, ← hShm, ← hSlots]
  | true =>
    simp only [if_true]
    unfold shareUnref
    have hFind : (g s).shmFind f = s.shmFind f := by rw [shmFind, shmFind, hShm]
    rw [hFind]
    cases s.shmFind f with
    | none => rfl
    | some j =>
      have hAt : (g s).refsAt j = s.refsAt j := by rw [refsAt, refsAt, hShm]
      simp only [hAt]
      split
      · show { g s with
            pmm := (g s).pmm.free (f * pageSize), gShm := update (g s).gShm j .tomb
            gFrameSlotsUsed := (g s).gFrameSlotsUsed - 1 } = g ((s.forget j).pmmFree f)
        rw [hPmm, hShm, hSlots]
        exact (hg s (s.pmm.free (f * pageSize)) (update s.gShm j .tomb) _).symm
      · generalize (s.refsAt j + 2 ^ 32 - 1) % 2 ^ 32 = r
        show { g s with gShm := update (g s).gShm j (.used f r) } = g (s.setSlot j (.used f r))
        rw [show g (s.setSlot j (.used f r)) = _ from
          hg s s.pmm (update s.gShm j (.used f r)) s.gFrameSlotsUsed, ← hPmm, ← hShm, ← hSlots]

/-- What `vmm_unmap` does to the page before it lets go of the frame. -/
def clearPage (s : Vmm) (sp t i : ℕ) : Vmm :=
  ((s.setEntry t i {}).modifySpace sp fun a => { a with pages := a.pages - 1 }).discharge sp

theorem discharge_books (sp : ℕ) (s : Vmm) (p : Pmm) (m : ℕ → Slot ℕ ℕ) (u : ℕ) :
    discharge { s with pmm := p, gShm := m, gFrameSlotsUsed := u } sp =
      { discharge s sp with pmm := p, gShm := m, gFrameSlotsUsed := u } := by
  unfold discharge
  cases hcg : (s.gSpaces sp).cg with
  | none => rfl
  | some cg =>
    simp only
    unfold cgMemDischarge
    by_cases hCond : maxCgs ≤ cg ∨ ¬(s.gCgs cg).live ∨ pageSize = 0
    · rw [if_pos hCond, if_pos hCond]
    · rw [if_neg hCond, if_neg hCond]
      rfl

theorem release_clearPage (s : Vmm) (sp t i : ℕ) (b : Bool) (f : ℕ) :
    (s.clearPage sp t i).release b f = (s.release b f).clearPage sp t i :=
  release_comm (fun s => s.clearPage sp t i) (fun s p m u =>
    discharge_books sp ((s.setEntry t i {}).modifySpace sp fun a => { a with pages := a.pages - 1 })
      p m u) s b f

theorem releaseAll_clearPage (sp t i : ℕ) (batch : List (ℕ × Bool)) :
    ∀ s : Vmm, (s.clearPage sp t i).releaseAll batch = (s.releaseAll batch).clearPage sp t i := by
  induction batch with
  | nil => exact fun _ => rfl
  | cons x batch ih =>
    intro s
    show ((s.clearPage sp t i).release x.2 x.1).releaseAll batch = _
    rw [release_clearPage, ih]
    rfl

theorem bookFrame_releaseAll (batch : List (ℕ × Bool)) :
    ∀ s : Vmm, BookFrame s (s.releaseAll batch) := by
  induction batch with
  | nil => exact .refl
  | cons x batch ih => exact fun s => (bookFrame_release s x.2 x.1).trans (ih _)

theorem accounting_clearPage (s : Vmm) (sp t i : ℕ) :
    Accounting (s.setEntry t i {}) (s.clearPage sp t i) :=
  (accounting_setPages _ sp fun n => n - 1).trans (accounting_discharge _ sp)

theorem SameTree.probe (hTree : SameTree s s') (h : Typed s role) (hsp : s.gUsed sp)
    (hva : va < userLimit) : s'.probe sp va = ((s.probe sp va).1, s') := by
  rw [probe_eq h hsp hva, probe_eq (hTree.typed h) (by rwa [hTree.used]) hva, leafTable, leafTable,
    hTree.rootOf, hTree.child]

theorem typed_clearPage (h : Typed s role) {t p : ℕ} (ht : role t = some ⟨sp, 1, p⟩) (i : ℕ) :
    Typed (s.clearPage sp t i) role :=
  (accounting_clearPage s sp t i).sameTree.typed (h.setLeaf ht _)

theorem unmapFrom_succ (sp n va : ℕ) (cross : Bool) (batch : List (ℕ × Bool)) (s : Vmm) :
    unmapFrom sp cross (n + 1) va batch s = match s.probe sp va with
      | (none, s) => unmapFrom sp cross n (va + pageSize) batch s
      | (some (t, i), s) =>
        let old := s.tables t i
        if !old.p then unmapFrom sp cross n (va + pageSize) batch s
        else if cross then
          let batch := batch ++ [(old.frame, old.avl || old.cow)]
          if batch.length = tlbBatch then
            unmapFrom sp cross n (va + pageSize) [] ((s.clearPage sp t i).releaseAll batch)
          else unmapFrom sp cross n (va + pageSize) batch (s.clearPage sp t i)
        else unmapFrom sp cross n (va + pageSize) batch
          ((s.clearPage sp t i).release (old.avl || old.cow) old.frame) := rfl

theorem unmapFrom_cross (n : ℕ) :
    ∀ {s : Vmm} {va : ℕ} {batch : List (ℕ × Bool)}, Typed s role → s.gUsed sp →
      va + n * pageSize ≤ userLimit →
      unmapFrom sp true n va batch s = unmapFrom sp false n va [] (s.releaseAll batch) := by
  induction n with
  | zero => exact fun _ _ _ => rfl
  | succ n ih =>
    intro s va batch h hsp hva
    obtain ⟨hFirst, hRest⟩ := first_page hva
    have hBook := bookFrame_releaseAll batch s
    have hProbe' := hBook.sameTree.probe h hsp hFirst
    rw [unmapFrom_succ, unmapFrom_succ]
    rcases probe_cases h hsp hFirst with ⟨hProbe, -⟩ | ⟨t, hProbe, ht, hLeaf⟩
    · rw [hProbe] at hProbe' ⊢
      rw [hProbe']
      exact ih h hsp hRest
    · rw [hProbe] at hProbe' ⊢
      rw [hProbe']
      simp only [hBook.tables]
      by_cases hp : (s.tables t (va / pageSize % 512)).p
      · have hTyped := typed_clearPage h ht (va / pageSize % 512)
        have hUsed : (s.clearPage sp t (va / pageSize % 512)).gUsed sp := by
          rw [(accounting_clearPage s sp t _).gUsed]
          exact hsp
        have hLast : ∀ x : ℕ × Bool,
            (s.clearPage sp t (va / pageSize % 512)).releaseAll (batch ++ [x]) =
              ((s.releaseAll batch).clearPage sp t (va / pageSize % 512)).release x.2 x.1 := by
          intro x
          rw [← releaseAll_clearPage]
          exact List.foldl_append
        rw [hp]
        simp only [Bool.not_true, Bool.false_eq_true, if_false, if_true]
        split
        · have hBook' := bookFrame_releaseAll (batch ++ [((s.tables t (va / pageSize % 512)).frame,
              (s.tables t (va / pageSize % 512)).avl || (s.tables t (va / pageSize % 512)).cow)])
            (s.clearPage sp t (va / pageSize % 512))
          rw [ih (hBook'.sameTree.typed hTyped) (by rwa [hBook'.gUsed]) hRest, hLast]
          rfl
        · rw [ih hTyped hUsed hRest, hLast]
      · rw [Bool.eq_false_iff.mpr hp]
        exact ih h hsp hRest

/-- The pages `v`, ..., `v + n - 1` of `sp` are gone, and no others. -/
structure Cleared (sp v n : ℕ) (s s' : Vmm) : Prop where
  inside : ∀ w, v ≤ w → w < v + n → (s'.leaves (sp, w)).p = false
  outside : ∀ x : ℕ × ℕ, ¬(x.1 = sp ∧ v ≤ x.2 ∧ x.2 < v + n) → s'.leaves x = s.leaves x

theorem Cleared.zero (sp v : ℕ) (s : Vmm) : Cleared sp v 0 s s :=
  ⟨fun w _ _ => by omega, fun _ _ => rfl⟩

theorem Cleared.succ (hNone : (s'.leaves (sp, v)).p = false)
    (hSame : ∀ x, x ≠ (sp, v) → s'.leaves x = s.leaves x) (h : Cleared sp (v + 1) n s' s'') :
    Cleared sp v (n + 1) s s'' := by
  refine ⟨?_, outside_succ hSame h.outside⟩
  intro w hLow hHigh
  rcases eq_or_lt_of_le hLow with rfl | hLow
  · rw [h.outside _ (by simp)]
    exact hNone
  · exact h.inside w hLow (by omega)

theorem rangePages_le (hRange : va + size ≤ userLimit) :
    pageDown va + pageCount (pageDown va) (rangeEnd va size) * pageSize ≤ userLimit := by
  have hEnd : rangeEnd va size ≤ userLimit := by
    unfold userLimit at hRange ⊢
    have hSum : add64 va size = va + size := add64_of_lt (by omega)
    unfold rangeEnd pageDown pageSize
    rw [hSum, add64_of_lt (by omega)]
    omega
  have hCount := pageCount_mul_le (pageDown va) (rangeEnd va size)
  have hDown := pageDown_le va
  omega

def mapFresh (s : Vmm) (sp va : ℕ) (flags : VmFlags) : Bool × Vmm :=
  let (frame, s) := s.pmmAllocZeroed
  if frame = 0 then (false, s)
  else
    match s.vmmMap sp va frame flags with
    | (false, s) => (false, s.pmmFree frame)
    | (true, s) => (true, s)

theorem Inv.unmapPage (h : Inv s role base loose) (hMax : ∀ f, loose f < 2 ^ 30) (hsp : s.gUsed sp)
    {vpn t : ℕ} (hv : vpn < userPages) (ht : role t = some ⟨sp, 1, vpn / 512⟩) {b : Bool}
    (hx : s.holds (sp, vpn) = some (f, b)) (hs' : s' = (s.clearPage sp t (vpn % 512)).release b f) :
    Kept role base loose s s' ∧ s'.leaves = update s.leaves (sp, vpn) {} := by
  have hAccount := accounting_clearPage (s.release b f) sp t (vpn % 512)
  rw [← release_clearPage, ← release_setEntry, ← hs'] at hAccount
  have hLeaves : s'.leaves = update s.leaves (sp, vpn) {} := by
    rw [hAccount.sameTree.leaves, h.leaves_release hv ht]
  have hp : (s.leaves (sp, vpn)).p := (Pte.hold_eq_some.mp hx).1
  obtain ⟨hPos, hResident⟩ := resident_clear hLeaves hv hp rfl
  have hBook := bookFrame_release (s.setEntry t (vpn % 512) {}) b f
  refine ⟨⟨hAccount.inv (h.release hMax hv ht hx), ?_, fun hSettled => ?_⟩, hLeaves⟩
  · exact ((Local.of_setLeaf h ht _ _).trans (.of_book hBook)).trans (hAccount.stays base)
  · have hFewer : Books ((s.setEntry t (vpn % 512) {}).modifySpace sp fun a =>
        { a with pages := a.pages - 1 }) s.resident := by
      exact ((paging_setEntry s t (vpn % 512) {}).books hSettled).accounting
        (accounting_setPages _ sp fun n => n - 1) rfl
    have hBooks := hFewer.discharge hsp (h.slots sp hsp) hPos
    rw [← hResident] at hBooks
    rw [hs']
    rw [hs'] at hBooks
    exact (PagingFrame.of_book (bookFrame_release _ b f)).books hBooks

section

variable (h : Inv s role base loose) (hsp : s.gUsed sp) (hva : va < userLimit)
include h hsp hva

theorem Inv.mapFresh (hOld : s.holds (sp, va / pageSize) = none) {flags : VmFlags}
    (hFlags : flags.extshm = false) :
    ∃ s' role', Inv s' role' base loose ∧ Local base s s' ∧ s.pmm.gFree ≤ s'.pmm.gFree + 4 ∧
      ((s.mapFresh sp va flags = (false, s') ∧ s.pmm.gFree < 4 ∧ s'.leaves = s.leaves) ∨
        (s.mapFresh sp va flags = (true, s') ∧
          ∃ f, s'.leaves = update s.leaves (sp, va / pageSize) (mapEntry f flags))) := by
  unfold Vmm.mapFresh
  rcases h.pmmAllocZeroed with ⟨hFail, hNoFrame⟩ | ⟨n, hn, hne, hAlloc⟩
  · refine ⟨s, role, h, .refl base s, by omega, .inl ⟨?_, by omega, rfl⟩⟩
    rw [hFail]
    rfl
  · obtain ⟨hz, hzLeaves⟩ := h.zeroFrame hn
    have hzFrames := h.gFree_zeroFrame hn
    have hzHolds : (s.zeroFrame n).holds = s.holds := holds_congr hzLeaves
    have hBase := h.not_base_of_not_taken (isFree_not_taken hn)
    have hBack : insert n base \ {n} = base := Set.insert_sdiff_self_of_notMem hBase
    obtain ⟨s', role', hLocal, hFrames, hEnd⟩ := hz.vmmMap_alone hsp hva (by rwa [hzHolds])
      (Set.mem_insert n base) hne hFlags
    have hStays := (Local.of_zeroFrame h hn).trans (hLocal.mono (Set.subset_insert n base))
    rcases hEnd with ⟨hMap, hFew, hInv, hLeaves⟩ | ⟨hMap, hInv, hLeaves⟩
    · have hFree := hInv.pmmFree (Set.mem_insert n base) hne
      rw [hBack] at hFree
      refine ⟨s'.pmmFree n, role', hFree, hStays.trans (.of_book (bookFrame_pmmFree s' n)),
        by omega, .inl ⟨?_, by omega, ?_⟩⟩
      · simp only [hAlloc, if_neg hne, hMap]
      · rw [(bookFrame_pmmFree s' n).sameTree.leaves, hLeaves, hzLeaves]
    · rw [hBack] at hInv
      refine ⟨s', role', hInv, hStays, by omega, .inr ⟨?_, n, ?_⟩⟩
      · simp only [hAlloc, if_neg hne, hMap]
      · rw [hLeaves, hzLeaves]

theorem Inv.protectPage (hPliant : Pliant (s.leaves (sp, va / pageSize))) (bits : Pte) :
    (s.protectPage sp va bits).1 ∧ Kept role base loose s (s.protectPage sp va bits).2 ∧
      (s.protectPage sp va bits).2.leaves = update s.leaves (sp, va / pageSize)
        (withBits bits (s.leaves (sp, va / pageSize))) := by
  have hv := userPage_lt hva
  unfold Vmm.protectPage
  rcases probe_cases h.typed hsp hva with ⟨hProbe, hEmpty⟩ | ⟨t, hProbe, ht, hLeaf⟩
  · have hSame : withBits bits (s.leaves (sp, va / pageSize)) = s.leaves (sp, va / pageSize) := by
      rw [hEmpty]
      rfl
    rw [hProbe, hSame, update_eq_self]
    exact ⟨rfl, .refl h, rfl⟩
  · simp only [hProbe, hLeaf]
    by_cases hp : (s.leaves (sp, va / pageSize)).p
    · obtain ⟨hCow, hps⟩ := hPliant hp
      simp only [hp, hps, hCow, Bool.not_true, Bool.false_eq_true, if_false, Bool.and_false, hLeaf]
      refine ⟨trivial, ⟨h.retag hv ht ?_ (Pte.sane_of_cow rfl), .of_setLeaf h ht _ _,
        (paging_setEntry _ _ _ _).settled (resident_keep (h.typed.leaves_setLeaf hv ht _) hp.symm)⟩,
        ?_⟩
      · rw [holds, Pte.hold_of_p hp, hCow, Pte.hold_of_p rfl]
      · rw [h.typed.leaves_setLeaf hv ht, withBits, if_pos hp, hp, hps, hCow]
    · have hSame : withBits bits (s.leaves (sp, va / pageSize)) = s.leaves (sp, va / pageSize) :=
        if_neg hp
      rw [Bool.eq_false_iff.mpr hp, hSame, update_eq_self]
      exact ⟨rfl, .refl h, rfl⟩

theorem Inv.vmmResolve_ne_zero : s.vmmResolve sp va = ((s.vmmResolve sp va).1, s) ∧
      ((s.vmmResolve sp va).1 ≠ 0 ↔ (s.leaves (sp, va / pageSize)).p) := by
  rw [vmmResolve_eq h.typed hsp hva]
  refine ⟨rfl, ?_⟩
  by_cases hp : (s.leaves (sp, va / pageSize)).p
  · have hne := (h.holds_not_role (Pte.hold_of_p hp)).2.2
    have hPos : 0 < (s.leaves (sp, va / pageSize)).frame * pageSize :=
      mul_pos (pos_of_ne_zero hne) (by decide)
    rw [if_pos hp]
    exact ⟨fun _ => hp, fun _ => by omega⟩
  · rw [if_neg hp]
    exact ⟨fun hne => absurd rfl hne, fun hp' => absurd hp' hp⟩

end

theorem paging_mapFresh (s : Vmm) (sp va : ℕ) (flags : VmFlags) :
    PagingFrame s (s.mapFresh sp va flags).2 := by
  have hAlloc := paging_pmmAllocZeroed s
  unfold mapFresh
  generalize s.pmmAllocZeroed = r at hAlloc ⊢
  obtain ⟨frame, s1⟩ := r
  dsimp only at hAlloc ⊢
  split
  · exact hAlloc
  · have hMap := paging_vmmMap s1 sp va frame flags
    generalize s1.vmmMap sp va frame flags = r at hMap ⊢
    obtain ⟨_ | _, s2⟩ := r
    · exact (hAlloc.trans hMap).trans ⟨rfl⟩
    · exact hAlloc.trans hMap

theorem allocPage_eq (s : Vmm) (sp va : ℕ) (flags : VmFlags) : s.allocPage sp va flags =
      let (phys, s) := s.vmmResolve sp va
      if phys ≠ 0 then (true, s)
      else
        match s.charge sp with
        | (false, s) => (false, s)
        | (true, s) =>
          match s.mapFresh sp va flags with
          | (false, s) => (false, s.discharge sp)
          | (true, s) =>
            (true, s.modifySpace sp fun a => { a with pages := (a.pages + 1) % 2 ^ 32 }) := by
  unfold allocPage mapFresh
  generalize s.vmmResolve sp va = r
  obtain ⟨phys, s1⟩ := r
  dsimp only
  split
  · rfl
  · generalize s1.charge sp = r
    obtain ⟨_ | _, s2⟩ := r
    · rfl
    · dsimp only
      generalize s2.pmmAllocZeroed = r
      obtain ⟨frame, s3⟩ := r
      split
      · rfl
      · generalize s3.vmmMap sp va frame flags = r
        obtain ⟨_ | _, s4⟩ := r <;> rfl

/-- The pages from `v` on that were not there are backed, as far as memory reached. -/
structure Backed (flags : VmFlags) (sp v n : ℕ) (s s' : Vmm) : Prop where
  kept : ∀ x, (s.leaves x).p → s'.leaves x = s.leaves x
  outside : ∀ x : ℕ × ℕ, ¬(x.1 = sp ∧ v ≤ x.2 ∧ x.2 < v + n) → s'.leaves x = s.leaves x
  fresh : ∀ x, (s.leaves x).p = false → (s'.leaves x).p → ∃ f, s'.leaves x = mapEntry f flags

theorem Backed.of_leaves {flags : VmFlags} (h : s'.leaves = s.leaves) :
    Backed flags sp v n s s' := by
  refine ⟨fun x _ => by rw [h], fun x _ => by rw [h], fun x hOld hNew => ?_⟩
  rw [h, hOld] at hNew
  cases hNew

theorem Backed.page {flags : VmFlags} (hOld : (s.leaves (sp, v)).p = false)
    (hLeaves : s'.leaves = update s.leaves (sp, v) (mapEntry f flags)) :
    Backed flags sp v 1 s s' := by
  have hSame : ∀ x, x ≠ (sp, v) → s'.leaves x = s.leaves x := by
    intro x hx
    rw [hLeaves, update_of_ne hx]
  refine ⟨fun x hx => hSame x ?_, fun x hx => hSame x ?_, fun x hBefore hAfter => ?_⟩
  · rintro rfl
    rw [hOld] at hx
    cases hx
  · rintro rfl
    exact hx ⟨rfl, le_refl _, lt_succ_self _⟩
  · rcases eq_or_ne x (sp, v) with rfl | hne
    · exact ⟨f, by rw [hLeaves, update_self]⟩
    · rw [hSame x hne, hBefore] at hAfter
      cases hAfter

theorem Backed.mono {flags : VmFlags} {m : ℕ} (h : Backed flags sp v n s s') (hle : n ≤ m) :
    Backed flags sp v m s s' :=
  ⟨h.kept, fun x hx => h.outside x (by omega), h.fresh⟩

theorem Backed.succ {flags : VmFlags} (h : Backed flags sp v 1 s s')
    (h' : Backed flags sp (v + 1) n s' s'') : Backed flags sp v (n + 1) s s'' := by
  refine ⟨fun x hx => ?_, fun x hx => ?_, fun x hBefore hAfter => ?_⟩
  · have hKept := h.kept x hx
    rw [h'.kept x (by rw [hKept]; exact hx), hKept]
  · rw [h'.outside x (by omega), h.outside x (by omega)]
  · by_cases hMid : (s'.leaves x).p
    · rw [h'.kept x hMid]
      exact h.fresh x hBefore hMid
    · exact h'.fresh x (Bool.eq_false_iff.mpr hMid) hAfter

/-- Every cgroup above the address space can be charged for `n` more pages. -/
def Room (s : Vmm) (sp n : ℕ) : Prop :=
  ∀ c, (s.gSpaces sp).cg = some c → ∀ g ∈ cgChain s.gCgs maxCgs c,
    (s.gCgs g).memBytes + n * pageSize ≤ (s.gCgs g).memMax ∧ (s.gCgs g).memMax < 2 ^ 64

/-- Memory for `n` more pages: each needs a frame and at most three tables. -/
structure Supply (s : Vmm) (sp n : ℕ) : Prop where
  frames : 4 * n ≤ s.pmm.gFree
  room : Room s sp n

theorem Room.of_eq (h : Room s sp n) (hCgs : s'.gCgs = s.gCgs)
    (hCg : (s'.gSpaces sp).cg = (s.gSpaces sp).cg) : Room s' sp n := by
  intro c hc g hg
  rw [hCg] at hc
  rw [hCgs] at hg ⊢
  exact h c hc g hg

theorem Room.mono {m : ℕ} (h : Room s sp n) (hle : m ≤ n) : Room s sp m := by
  intro c hc g hg
  obtain ⟨hFits, hMax⟩ := h c hc g hg
  have hMul := mul_le_mul_right pageSize hle
  exact ⟨by omega, hMax⟩

theorem cgChain_congr {cgs cgs' : ℕ → Cgroup} (h : ∀ c, (cgs' c).parent = (cgs c).parent) (n : ℕ) :
    ∀ c, cgChain cgs' n c = cgChain cgs n c := by
  induction n with
  | zero => exact fun _ => rfl
  | succ n ih =>
    intro c
    unfold cgChain
    rw [h]
    split
    · rfl
    · cases (cgs c).parent with
      | none => rfl
      | some p => exact congrArg (c :: ·) (ih p)

theorem Room.charge (h : Room s sp (n + 1)) : (s.charge sp).1 ∧ Room (s.charge sp).2 sp n := by
  have hLess := h.mono (le_succ n)
  unfold Vmm.charge
  cases hc : (s.gSpaces sp).cg with
  | none => exact ⟨rfl, hLess⟩
  | some c =>
    have hFits := h c hc
    dsimp only
    unfold cgMemCharge
    split
    · exact ⟨rfl, hLess⟩
    · have hAny : ¬((cgChain s.gCgs maxCgs c).any fun g =>
          decide ((s.gCgs g).memMax < add64 (s.gCgs g).memBytes pageSize)) := by
        rw [List.any_eq_true]
        rintro ⟨g, hg, hOver⟩
        obtain ⟨hSum, hMax⟩ := hFits g hg
        rw [decide_eq_true_eq, add64_of_lt (by rw [succ_mul] at hSum; omega)] at hOver
        rw [succ_mul] at hSum
        omega
      rw [if_neg hAny]
      refine ⟨rfl, ?_⟩
      have hGroups := sameGroups_setMemBytes s (cgChain s.gCgs maxCgs c) fun n => add64 n pageSize
      intro c' hc' g hg
      rw [hGroups.cg, hc, Option.some.injEq] at hc'
      rw [cgChain_congr hGroups.parent, ← hc'] at hg
      obtain ⟨hSum, hMax⟩ := hFits g hg
      have hSame :
          ((s.setMemBytes (cgChain s.gCgs maxCgs c) fun n => add64 n pageSize).gCgs g).memMax =
          (s.gCgs g).memMax := by
        unfold setMemBytes
        dsimp only
        split <;> rfl
      rw [hSame, memBytes_setMemBytes, if_pos hg]
      rw [succ_mul] at hSum
      rw [add64_of_lt (by omega)]
      exact ⟨by omega, hMax⟩

theorem Inv.allocPage (h : Inv s role base loose) (hsp : s.gUsed sp) (hva : va < userLimit)
    {flags : VmFlags} (hFlags : flags.extshm = false) :
    let r := s.allocPage sp va flags
    ∃ role', Kept role' base loose s r.2 ∧ Backed flags sp (va / pageSize) 1 s r.2 ∧
      (r.1 → (r.2.leaves (sp, va / pageSize)).p) ∧
      ∀ n, Supply s sp (n + 1) → r.1 ∧ Supply r.2 sp n := by
  obtain ⟨hResolve, hPresent⟩ := h.vmmResolve_ne_zero hsp hva
  rw [allocPage_eq, hResolve]
  dsimp only
  by_cases hp : (s.leaves (sp, va / pageSize)).p
  · rw [if_pos (hPresent.mpr hp)]
    refine ⟨role, .refl h, .of_leaves rfl, fun _ => hp, fun n hSupply => ⟨rfl, ?_⟩⟩
    have hFrames := hSupply.frames
    exact ⟨by dsimp only; omega, hSupply.room.mono (le_succ n)⟩
  · rw [if_neg fun hne => hp (hPresent.mp hne)]
    have hOld := Bool.eq_false_iff.mpr hp
    have hNone : s.holds (sp, va / pageSize) = none := Pte.hold_eq_none.mpr hOld
    have hCharge := accounting_charge s sp
    have hRefused : (s.charge sp).1 = false → (s.charge sp).2 = s := charge_refused
    have hBilled : Settled s → (s.charge sp).1 →
        Books (s.charge sp).2 (update s.resident sp (s.resident sp + 1)) :=
      fun hSettled => hSettled.charge hsp (h.slots sp hsp) s.resident_le
    have hRoom : ∀ n, Room s sp (n + 1) → (s.charge sp).1 ∧ Room (s.charge sp).2 sp n :=
      fun n hn => hn.charge
    generalize s.charge sp = r at hCharge hRefused hBilled hRoom ⊢
    obtain ⟨_ | _, s1⟩ := r
    · have hSame : s1 = s := hRefused rfl
      rw [hSame]
      refine ⟨role, .refl h, .of_leaves rfl, Bool.noConfusion, fun n hSupply => ?_⟩
      cases (hRoom n hSupply.room).1
    · dsimp only at hCharge hBilled hRoom ⊢
      have hHolds1 : s1.holds = s.holds := holds_congr hCharge.sameTree.leaves
      have hsp1 : s1.gUsed sp := by rwa [hCharge.gUsed]
      have hPmm1 : s1.pmm = s.pmm := by rw [hCharge.rest]
      have hFrame := paging_mapFresh s1 sp va flags
      obtain ⟨s2, role2, hInv, hLocal, hFrames, hEnd⟩ := (hCharge.inv h).mapFresh hsp1 hva
        (by rw [hHolds1, hNone]) hFlags
      rw [hPmm1] at hFrames hEnd
      have hStays := (hCharge.stays base).trans hLocal
      refine ⟨role2, ?_⟩
      rcases hEnd with ⟨hMap, hFew, hLeaves⟩ | ⟨hMap, f, hLeaves⟩
      · -- The charge is taken back.
        rw [hMap] at hFrame ⊢
        have hBack := accounting_discharge s2 sp
        have hSame : (s2.discharge sp).leaves = s.leaves := by
          rw [hBack.sameTree.leaves, hLeaves, hCharge.sameTree.leaves]
        refine ⟨⟨hBack.inv hInv, hStays.trans (hBack.stays base), fun hSettled => ?_⟩,
          .of_leaves hSame, Bool.noConfusion, fun n hSupply => ?_⟩
        · have hBooks := (hFrame.books (hBilled hSettled rfl)).discharge
            (by rwa [hFrame.gUsed]) (h.slots sp hsp) (by rw [update_self]; omega)
          rw [update_self, Nat.add_sub_cancel, update_idem, update_eq_self] at hBooks
          unfold Settled
          rw [resident_of_leaves hSame]
          exact hBooks
        · have := hSupply.frames
          omega
      · rw [hMap] at hFrame ⊢
        have hPages := accounting_setPages s2 sp fun n => (n + 1) % 2 ^ 32
        have hFill : s2.leaves = update s.leaves (sp, va / pageSize) (mapEntry f flags) := by
          rw [hLeaves, hCharge.sameTree.leaves]
        have hFill' := hPages.sameTree.leaves.trans hFill
        refine ⟨⟨hPages.inv hInv, hStays.trans (hPages.stays base), fun hSettled => ?_⟩,
          .page hOld hFill', fun _ => ?_, fun n hSupply => ⟨rfl, ?_, ?_⟩⟩
        · have hResident := resident_fill hFill (userPage_lt hva) hOld rfl
          have hBooks := hFrame.books (hBilled hSettled rfl)
          rw [← hResident] at hBooks
          unfold Settled
          rw [resident_of_leaves hPages.sameTree.leaves]
          exact hBooks.accounting hPages rfl
        · rw [hFill', update_self]
          rfl
        · have := hSupply.frames
          show 4 * n ≤ s2.pmm.gFree
          omega
        · refine (hRoom n hSupply.room).2.of_eq ?_ ?_
          · exact hFrame.gCgs
          · rw [hPages.space, hFrame.gSpaces]

theorem protectFrom_succ (bits : Pte) (n va : ℕ) (s : Vmm) : Vmm.protectFrom sp bits (n + 1) va s =
      let first := s.protectPage sp va bits
      let rest := Vmm.protectFrom sp bits n (va + pageSize) first.2
      (first.1 && rest.1, rest.2) := rfl

theorem Inv.protectFrom (bits : Pte) (n : ℕ) :
    ∀ {s : Vmm} {va : ℕ}, Inv s role base loose → s.gUsed sp →
      va + n * pageSize ≤ userLimit → (∀ w, Pliant (s.leaves (sp, w))) →
      let r := Vmm.protectFrom sp bits n va s
      r.1 ∧ Kept role base loose s r.2 ∧ Retagged bits sp (va / pageSize) n s r.2 := by
  induction n with
  | zero => exact fun h _ _ _ => ⟨rfl, .refl h, .zero _ _ _ _⟩
  | succ n ih =>
    intro s va h hsp hva hPliant
    obtain ⟨hFirst, hRest⟩ := first_page hva
    obtain ⟨hOk, hPage, hLeaves⟩ := h.protectPage hsp hFirst (hPliant _) bits
    have hPliant' : ∀ w, Pliant ((s.protectPage sp va bits).2.leaves (sp, w)) := by
      intro w
      rw [hLeaves, update_apply]
      split
      · have hOld := hPliant (va / pageSize)
        unfold withBits
        split
        · exact hOld
        · exact hOld
      · exact hPliant w
    obtain ⟨hOks, hKept, hTags⟩ := ih hPage.inv (by rwa [hPage.stays.used]) hRest hPliant'
    rw [next_page] at hTags
    rw [protectFrom_succ]
    dsimp only
    rw [hOk, hOks]
    exact ⟨rfl, hPage.trans hKept, .succ hLeaves hTags⟩

theorem Inv.unmapFrom (hMax : ∀ f, loose f < 2 ^ 30) (n : ℕ) :
    ∀ {s : Vmm} {va : ℕ}, Inv s role base loose → s.gUsed sp → va + n * pageSize ≤ userLimit →
      Kept role base loose s (unmapFrom sp false n va [] s) ∧
        Cleared sp (va / pageSize) n s (unmapFrom sp false n va [] s) := by
  induction n with
  | zero => exact fun h _ _ => ⟨.refl h, .zero _ _ _⟩
  | succ n ih =>
    intro s va h hsp hva
    obtain ⟨hFirst, hRest⟩ := first_page hva
    rw [unmapFrom_succ]
    rcases probe_cases h.typed hsp hFirst with ⟨hProbe, hEmpty⟩ | ⟨t, hProbe, ht, hLeaf⟩
    · obtain ⟨hKept, hCleared⟩ := ih h hsp hRest
      rw [next_page] at hCleared
      rw [hProbe]
      exact ⟨hKept, .succ (by rw [hEmpty]) (fun _ _ => rfl) hCleared⟩
    · simp only [hProbe, hLeaf]
      by_cases hp : (s.leaves (sp, va / pageSize)).p
      · obtain ⟨hPage, hLeaves⟩ := h.unmapPage hMax hsp (userPage_lt hFirst) ht
          (Pte.hold_of_p hp) rfl
        obtain ⟨hKept, hCleared⟩ := ih hPage.inv (by rwa [hPage.stays.used]) hRest
        rw [next_page] at hCleared
        simp only [hp, Bool.not_true, Bool.false_eq_true, if_false]
        refine ⟨hPage.trans hKept, .succ ?_ ?_ hCleared⟩
        · rw [hLeaves, update_self]
        · intro x hx
          rw [hLeaves, update_of_ne hx]
      · have hp' := Bool.eq_false_iff.mpr hp
        obtain ⟨hKept, hCleared⟩ := ih h hsp hRest
        rw [next_page] at hCleared
        simp only [hp', Bool.not_false, if_true]
        exact ⟨hKept, .succ hp' (fun _ _ => rfl) hCleared⟩

theorem Inv.allocFrom {flags : VmFlags} (hFlags : flags.extshm = false) (n : ℕ) :
    ∀ {s : Vmm} {role : Roles} {va : ℕ}, Inv s role base loose → s.gUsed sp →
      va + n * pageSize ≤ userLimit → let r := allocFrom sp flags n va s
      ∃ role', Kept role' base loose s r.2 ∧ Backed flags sp (va / pageSize) n s r.2 ∧
        (r.1 → ∀ w, va / pageSize ≤ w → w < va / pageSize + n → (r.2.leaves (sp, w)).p) ∧
        (Supply s sp n → r.1) := by
  induction n with
  | zero =>
    intro s role va h _ _
    exact ⟨role, .refl h, .of_leaves rfl, fun _ w _ _ => by omega, fun _ => rfl⟩
  | succ n ih =>
    intro s role va h hsp hva
    obtain ⟨hFirst, hRest⟩ := first_page hva
    obtain ⟨role1, hPage, hBacked, hThere, hSupply⟩ := h.allocPage hsp hFirst hFlags
    rw [Vmm.allocFrom]
    generalize s.allocPage sp va flags = r at hPage hBacked hThere hSupply ⊢
    obtain ⟨_ | _, s1⟩ := r
    · refine ⟨role1, hPage, hBacked.mono (by omega), Bool.noConfusion, fun hFed => ?_⟩
      cases (hSupply n hFed).1
    · obtain ⟨role2, hKept, hBacked', hAll, hSupply'⟩ :=
        ih hPage.inv (by rw [hPage.stays.used]; exact hsp) hRest
      rw [next_page] at hBacked' hAll
      refine ⟨role2, hPage.trans hKept, hBacked.succ hBacked', fun hOk w hLow hHigh => ?_,
        fun hFed => hSupply' (hSupply n hFed).2⟩
      rcases eq_or_lt_of_le hLow with rfl | hLow
      · rw [hBacked'.kept _ (hThere rfl)]
        exact hThere rfl
      · exact hAll hOk w hLow (by omega)

section

variable (h : Inv s role base loose) (hsp : s.gUsed sp) (hRange : va + size ≤ userLimit)
include h hsp hRange

theorem Inv.vmmProtect (hva : va % pageSize = 0) (hSize : size % pageSize = 0)
    (hPliant : ∀ w, Pliant (s.leaves (sp, w))) (write exec : Bool) :
    (s.vmmProtect sp va size write exec).1 ∧
      Kept role base loose s (s.vmmProtect sp va size write exec).2 ∧
      Retagged (pteFlags { user := true, write := write, exec := exec }) sp (va / pageSize)
        (size / pageSize) s (s.vmmProtect sp va size write exec).2 := by
  have hSum : add64 va size = va + size := add64_of_lt (by unfold userLimit at hRange; omega)
  have hCount : pageCount va (va + size) = size / pageSize := by
    unfold pageCount
    rw [Nat.add_sub_cancel_left]
  have hEnd : va + size / pageSize * pageSize ≤ userLimit := by
    rw [Nat.div_mul_cancel (Nat.dvd_of_mod_eq_zero hSize)]
    exact hRange
  unfold Vmm.vmmProtect
  rw [if_neg (by omega), hSum, hCount]
  exact h.protectFrom _ _ hsp hEnd hPliant

theorem Inv.vmmUnmap (hMax : ∀ f, loose f < 2 ^ 30) :
    Kept role base loose s (s.vmmUnmap sp va size) ∧
      Cleared sp (va / pageSize) (pageCount (pageDown va) (rangeEnd va size)) s
        (s.vmmUnmap sp va size) := by
  have hPages := rangePages_le hRange
  unfold Vmm.vmmUnmap
  have hLoop := Inv.unmapFrom hMax _ h hsp hPages
  rw [pageDown_div] at hLoop
  cases s.needsShootdown sp with
  | false => exact hLoop
  | true =>
    rw [unmapFrom_cross _ h.typed hsp hPages]
    exact hLoop

theorem Inv.vmmAllocRange (flags : VmFlags) (hFlags : flags.extshm = false) :
    let n := pageCount (pageDown va) (rangeEnd va size)
    let r := s.vmmAllocRange sp va size flags
    ∃ role', Kept role' base loose s r.2 ∧ Backed flags sp (va / pageSize) n s r.2 ∧
      (r.1 → ∀ w, va / pageSize ≤ w → w < va / pageSize + n → (r.2.leaves (sp, w)).p) ∧
      (Supply s sp n → r.1) := by
  have hAlloc := Inv.allocFrom hFlags _ h hsp (rangePages_le hRange)
  rwa [pageDown_div] at hAlloc

end

end Ranges

end Gnos.Vmm
