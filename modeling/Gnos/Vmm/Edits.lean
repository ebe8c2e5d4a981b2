import Gnos.Vmm.Invariant

/-! The elementary steps of the virtual memory manager and what each does to its invariant: a frame
is taken or given back, a reference is counted, an entry of a leaf table is written. -/

namespace Gnos.Vmm

open ProofKit Function Pmm

/-- `s'` differs from `s` in the allocator and in the table of shared frames only. -/
structure BookFrame (s s' : Vmm) : Prop where
  rest : s' = { s with pmm := s'.pmm, gShm := s'.gShm, gFrameSlotsUsed := s'.gFrameSlotsUsed }

namespace BookFrame

variable {s s' s'' : Vmm}

theorem refl (s : Vmm) : BookFrame s s := ⟨rfl⟩

section

variable (h : BookFrame s s')
include h

theorem trans (h' : BookFrame s' s'') : BookFrame s s'' := by
  refine ⟨?_⟩
  rw [h'.rest, h.rest]

theorem sameTree : SameTree s s' := by
  rw [h.rest]
  exact ⟨rfl, rfl, fun _ => rfl⟩

theorem tables : s'.tables = s.tables := h.sameTree.tables

theorem gSpaces : s'.gSpaces = s.gSpaces := by rw [h.rest]

theorem gUsed : s'.gUsed = s.gUsed := by rw [h.rest]

end

end BookFrame

section

variable (s f)

theorem bookFrame_pmmFree : BookFrame s (s.pmmFree f) := ⟨rfl⟩

theorem bookFrame_shareUnref : BookFrame s (s.shareUnref f) := by
  unfold shareUnref
  split
  · exact .refl s
  · dsimp only
    split <;> exact ⟨rfl⟩

end

theorem bookFrame_release (s : Vmm) (shared : Bool) (f : ℕ) : BookFrame s (s.release shared f) := by
  unfold release
  split
  · exact bookFrame_shareUnref s f
  · exact bookFrame_pmmFree s f

/-- The state once `pmm_alloc` has taken frame `f`. -/
def takeFrame (s : Vmm) (f : ℕ) : Vmm := { s with pmm := s.pmm.take f }

/-- The state once `pmm_alloc_zeroed` has taken frame `f`. -/
def zeroFrame (s : Vmm) (f : ℕ) : Vmm :=
  { s with
    pmm := s.pmm.take f
    data := s.data.fill (f * pageSize) pageSize 0
    tables := Function.update s.tables f fun _ => {} }

theorem taken_take (s : Vmm) {f : ℕ} (hf : f < s.pmm.gTotal) :
    {g | g < (s.pmm.take f).gTotal ∧ (s.pmm.take f).bitTest g} = insert f s.taken := by
  ext g
  simp only [gTotal_take, bitTest_take, Set.mem_ofPred_eq, Set.mem_insert_iff, taken,
    Bool.or_eq_true, decide_eq_true_eq]
  constructor
  · rintro ⟨hg, hEq | hBit⟩
    · exact .inl hEq
    · exact .inr ⟨hg, hBit⟩
  · rintro (rfl | ⟨hg, hBit⟩)
    · exact ⟨hf, .inl rfl⟩
    · exact ⟨hg, .inr hBit⟩

theorem taken_pmmFree (s : Vmm) (f : ℕ) : (s.pmmFree f).taken = s.taken \ {f} := by
  ext g
  simp only [taken, pmmFree, gTotal_free, Set.mem_ofPred_eq, Set.mem_sdiff, Set.mem_singleton_iff]
  constructor
  · rintro ⟨hg, hBit⟩
    rw [bitTest_free g hg, frame_mul_div, Bool.and_eq_true, Bool.not_eq_true',
      decide_eq_false_iff_not] at hBit
    exact ⟨⟨hg, hBit.2⟩, hBit.1⟩
  · rintro ⟨⟨hg, hBit⟩, hne⟩
    refine ⟨hg, ?_⟩
    rw [bitTest_free g hg, frame_mul_div, hBit]
    simp [hne]

theorem zeroFrame_data (s : Vmm) (f a : ℕ) :
    (s.zeroFrame f).data a = if a / pageSize = f then 0 else s.data a := by
  have hDiv : a / pageSize = f ↔ f * pageSize ≤ a ∧ a < f * pageSize + pageSize := by
    unfold pageSize
    omega
  rw [if_congr hDiv rfl rfl]
  rfl

namespace Inv

variable {s s' : Vmm} {role : Roles} {base base' : Set ℕ} {loose loose' : ℕ → ℕ}
  {sp vpn t f r : ℕ} {e : Pte}

section

variable (h : Inv s role base loose)
include h

theorem books (hTree : SameTree s s') (hPmm : s'.pmm.Inv) (hShm : Shm s')
    (hLedger : Ledger userKeys s.holds s'.refs s'.taken (base' ∪ tableFrames role) loose')
    (hApart : ∀ f ∈ base', role f = none) (hZero : 0 ∈ base') : Inv s' role base' loose' := by
  have hHolds : s'.holds = s.holds := holds_congr hTree.leaves
  refine ⟨hPmm, hShm, hTree.typed h.typed, ?_, ?_, hApart, hZero, ?_, ?_⟩
  · rw [hTree.used]
    exact h.slots
  · rw [hHolds]
    exact hLedger
  · rw [hHolds]
    exact h.once
  · rw [hTree.leaves]
    exact h.sane

theorem quiet (hTree : SameTree s s') (hPmm : s'.pmm = s.pmm) (hShm : s'.gShm = s.gShm)
    (hUsed : s'.gFrameSlotsUsed = s.gFrameSlotsUsed) : Inv s' role base loose := by
  have hRefs : s'.refs = s.refs := by
    funext f
    rw [Vmm.refs, Vmm.refs, hShm]
  refine h.books hTree (by rw [hPmm]; exact h.pmm) ⟨?_, ?_, ?_⟩ ?_ h.apart h.zero
  · rw [hShm]
    exact h.shm.probed
  · rw [hUsed, hShm]
    exact h.shm.count
  · rw [hRefs]
    exact h.shm.pos
  · rw [hRefs, taken, hPmm]
    exact h.ledger

theorem insert_apart (hf : role f = none) : ∀ g ∈ insert f base, role g = none := by
  rintro g (rfl | hg)
  · exact hf
  · exact h.apart g hg

end

theorem isFree_not_taken (hf : s.pmm.IsFree f) : f ∉ s.taken := by
  rintro ⟨-, hBit⟩
  rw [hf.2] at hBit
  cases hBit

section

variable (h : Inv s role base loose)
include h

theorem takeFrame (hf : s.pmm.IsFree f) : Inv (s.takeFrame f) role (insert f base) loose := by
  have hTaken := isFree_not_taken hf
  refine h.books ⟨rfl, rfl, fun _ => rfl⟩ (h.pmm.take hf) ⟨h.shm.probed, h.shm.count, h.shm.pos⟩ ?_
    (h.insert_apart (h.role_of_not_taken hTaken)) (.inr h.zero)
  show Ledger userKeys s.holds s.refs {g | g < (s.pmm.take f).gTotal ∧
    (s.pmm.take f).bitTest g} _ loose
  rw [taken_take s hf.1, reserved_insert]
  exact h.ledger.take hTaken

theorem typed_of_not_role (hf : role f = none) (hSpaces : s'.gSpaces = s.gSpaces)
    (hUsed : s'.gUsed = s.gUsed) (hEq : ∀ u ≠ f, s'.tables u = s.tables u) :
    Typed s' role ∧ s'.leaves = s.leaves := by
  have hne : ∀ u r, role u = some r → u ≠ f := by
    rintro u r hu rfl
    rw [hf] at hu
    cases hu
  have hTyped : Typed s' role := by
    refine h.typed.congr ?_ ?_ ?_
    · funext sp
      rw [rootOf, rootOf, hSpaces, hUsed]
    · rintro u i ⟨r, l, p, hu, -, -⟩
      rw [child, child, hEq u (hne u _ hu)]
    · rintro u i ⟨r, l, p, hu, -, -⟩
      rw [hEq u (hne u _ hu)]
  refine ⟨hTyped, h.typed.leaves_congr hTyped ?_⟩
  intro u sp p i hu _
  rw [hEq u (hne u _ hu)]

theorem zeroFrame (hf : s.pmm.IsFree f) :
    Inv (s.zeroFrame f) role (insert f base) loose ∧ (s.zeroFrame f).leaves = s.leaves := by
  have hTake := h.takeFrame hf
  have hRole := h.role_of_not_taken (isFree_not_taken hf)
  obtain ⟨hTyped, hLeaves⟩ : Typed (s.zeroFrame f) role ∧ (s.zeroFrame f).leaves = s.leaves :=
    h.typed_of_not_role hRole rfl rfl fun u hu => update_of_ne hu _ _
  have hHolds : (s.zeroFrame f).holds = s.holds := holds_congr hLeaves
  refine ⟨⟨hTake.pmm, ⟨h.shm.probed, h.shm.count, h.shm.pos⟩, hTyped, h.slots, ?_, hTake.apart,
    hTake.zero, ?_, ?_⟩, hLeaves⟩
  · rw [hHolds]
    exact hTake.ledger
  · rw [hHolds]
    exact h.once
  · rw [hLeaves]
    exact h.sane

theorem frame_lt (hf : f < s.pmm.gTotal) : f < addrFrames :=
  Nat.lt_of_lt_of_le hf h.pmm.total

theorem pmmAllocZeroed : (s.pmmAllocZeroed = (0, s) ∧ s.pmm.gFree = 0) ∨
      ∃ f, s.pmm.IsFree f ∧ f ≠ 0 ∧ s.pmmAllocZeroed = (f, s.zeroFrame f) := by
  unfold Vmm.pmmAllocZeroed allocZeroed
  rcases alloc_spec h.pmm with ⟨f, hf, hAlloc⟩ | ⟨hAlloc, hNone⟩
  · have hne := h.zero_ne (isFree_not_taken hf)
    have hPhys : f * pageSize ≠ 0 := Nat.mul_ne_zero hne (by decide)
    refine .inr ⟨f, hf, hne, ?_⟩
    simp only [hAlloc, if_pos hPhys, frame_mul_div]
    rfl
  · rw [hAlloc]
    exact .inl ⟨rfl, h.pmm.gFree_eq_zero hNone⟩

theorem gFree_zeroFrame (hf : s.pmm.IsFree f) :
    s.pmm.gFree = (s.zeroFrame f).pmm.gFree + 1 := h.pmm.gFree_take hf

theorem pmmFree (hf : f ∈ base) (hne : f ≠ 0) : Inv (s.pmmFree f) role (base \ {f}) loose := by
  refine h.books ⟨rfl, rfl, fun _ => rfl⟩ (h.pmm.free _) ⟨h.shm.probed, h.shm.count, h.shm.pos⟩ ?_
    (fun g hg => h.apart g hg.1) ⟨h.zero, Ne.symm hne⟩
  rw [taken_pmmFree, reserved_diff (h.apart f hf)]
  exact h.ledger.give (.inl hf)

end

theorem taken_of_refFrame (h : RefFrame s s') : s'.taken = s.taken := by
  rw [h.rest]
  rfl

section

variable (h : Inv s role base loose)
include h

theorem refSet {v : Option ℕ} (hSet : RefSet s f v s')
    (hLedger : Ledger userKeys s.holds (update s.refs f v) s.taken
      (base' ∪ tableFrames role) loose') (hApart : ∀ f ∈ base', role f = none) (hZero : 0 ∈ base') :
    Inv s' role base' loose' := by
  refine h.books (SameTree.of_refFrame hSet.frame) ?_ hSet.shm ?_ hApart hZero
  · rw [hSet.frame.rest]
    exact h.pmm
  · rw [hSet.refs, taken_of_refFrame hSet.frame]
    exact hLedger

theorem refs_of_loose (hLoose : 0 < loose f) : ∃ r, s.refs f = some (r + 1) ∧ loose f ≤ r + 1 := by
  have hCount := h.ledger.count f
  cases hRefs : s.refs f with
  | none =>
    rw [hRefs, Option.getD_none] at hCount
    omega
  | some r =>
    rw [hRefs, Option.getD_some] at hCount
    cases r with
    | zero => exact absurd hRefs (h.ledger.pos f)
    | succ r => exact ⟨r, rfl, by omega⟩

theorem not_base_of_refs (hRefs : s.refs f = some r) : f ∉ base ∧ role f = none := by
  refine ⟨fun hf => ?_, ?_⟩
  · rw [h.ledger.refs_of_reserved (.inl hf)] at hRefs
    cases hRefs
  · by_contra hne
    rw [h.ledger.refs_of_reserved (.inr hne)] at hRefs
    cases hRefs

theorem shareUnref (hLoose : 0 < loose f) (hMax : loose f < 2 ^ 31) :
    Inv (s.shareUnref f) role base (update loose f (loose f - 1)) := by
  obtain ⟨r, hRefs, hle⟩ := h.refs_of_loose hLoose
  obtain ⟨hBase, hRole⟩ := h.not_base_of_refs hRefs
  have hBound : r + 1 ≤ 32 + loose f := h.refs_le hRefs
  rcases Nat.eq_zero_or_pos r with rfl | hr
  · -- The last reference: the frame leaves the books and goes back to the allocator.
    obtain ⟨s', hSet, hEq⟩ := h.shm.shareUnref_last hRefs
    have hOne : loose f = 1 := by omega
    have hUntrack : Inv s' role (insert f base) (update loose f 0) := by
      refine h.refSet hSet ?_ (h.insert_apart hRole) (.inr h.zero)
      rw [reserved_insert]
      exact h.ledger.untrack hRefs hOne
    have hne : f ≠ 0 := by
      rintro rfl
      exact hBase h.zero
    have hFree := hUntrack.pmmFree (.inl rfl) hne
    rw [Set.insert_sdiff_self_of_notMem hBase] at hFree
    rw [hEq, hOne]
    exact hFree
  · exact h.refSet (h.shm.shareUnref_more hRefs hr (by omega)) (h.ledger.decr hRefs hr hLoose)
      h.apart h.zero

end

section

variable (h : Inv s role base loose) (hv : vpn < userPages) (ht : role t = some ⟨sp, 1, vpn / 512⟩)
include h hv ht

theorem holds_setLeaf (e : Pte) :
    (s.setEntry t (vpn % 512) e).holds = update s.holds (sp, vpn) e.hold := by
  funext x
  rw [holds, h.typed.leaves_setLeaf hv ht, update_apply, update_apply]
  split <;> rfl

theorem edit (hTree : SameTree (s.setEntry t (vpn % 512) e) s') (hPmm : s'.pmm.Inv) (hShm : Shm s')
    (hLedger : Ledger userKeys (update s.holds (sp, vpn) e.hold) s'.refs s'.taken
      (base' ∪ tableFrames role) loose') (hApart : ∀ f ∈ base', role f = none) (hZero : 0 ∈ base')
    (hOnce : Once (update s.holds (sp, vpn) e.hold)) (hSane : e.Sane) :
    Inv s' role base' loose' := by
  have hHolds : s'.holds = update s.holds (sp, vpn) e.hold := by
    rw [← h.holds_setLeaf hv ht]
    exact holds_congr hTree.leaves
  refine ⟨hPmm, hShm, hTree.typed (h.typed.setLeaf ht e), ?_, ?_, hApart, hZero, ?_, ?_⟩
  · rw [hTree.used]
    exact h.slots
  · rw [hHolds]
    exact hLedger
  · rw [hHolds]
    exact hOnce
  · intro x
    rw [hTree.leaves, h.typed.leaves_setLeaf hv ht, update_apply]
    split
    · exact hSane
    · exact h.sane x

theorem setLeaf (hLedger : Ledger userKeys (update s.holds (sp, vpn) e.hold) s.refs s.taken
      (base' ∪ tableFrames role) loose') (hApart : ∀ f ∈ base', role f = none) (hZero : 0 ∈ base')
    (hOnce : Once (update s.holds (sp, vpn) e.hold)) (hSane : e.Sane) :
    Inv (s.setEntry t (vpn % 512) e) role base' loose' :=
  h.edit hv ht ⟨rfl, rfl, fun _ => rfl⟩ h.pmm ⟨h.shm.probed, h.shm.count, h.shm.pos⟩ hLedger hApart
    hZero hOnce hSane

theorem retag (he : e.hold = s.holds (sp, vpn)) (hSane : e.Sane) :
    Inv (s.setEntry t (vpn % 512) e) role base loose := by
  have hSame : update s.holds (sp, vpn) e.hold = s.holds := by
    rw [he, update_eq_self]
  refine h.setLeaf hv ht ?_ h.apart h.zero ?_ hSane
  · rw [hSame]
    exact h.ledger
  · rw [hSame]
    exact h.once

end

theorem holds_not_role (h : Inv s role base loose) {x : ℕ × ℕ} {b : Bool}
    (hx : s.holds x = some (f, b)) : f ∉ base ∧ role f = none ∧ f ≠ 0 := by
  have hNot := h.ledger.not_reserved_of_holds hx
  rw [Set.mem_union, not_or] at hNot
  refine ⟨hNot.1, not_not.mp hNot.2, ?_⟩
  rintro rfl
  exact hNot.1 h.zero

section

variable (h : Inv s role base loose) (hv : vpn < userPages) (ht : role t = some ⟨sp, 1, vpn / 512⟩)
include h hv ht

theorem clearAlone (hx : s.holds (sp, vpn) = some (f, false)) :
    Inv (s.setEntry t (vpn % 512) {}) role (insert f base) loose := by
  refine h.setLeaf hv ht ?_ (h.insert_apart (h.holds_not_role hx).2.1) (.inr h.zero)
    (h.once.update_none _) (Pte.sane_of_cow rfl)
  rw [reserved_insert]
  exact h.ledger.clearAlone hx

theorem clearShared (hx : s.holds (sp, vpn) = some (f, true)) :
    Inv (s.setEntry t (vpn % 512) {}) role base (update loose f (loose f + 1)) :=
  h.setLeaf hv ht (h.ledger.clearShared hx) h.apart h.zero (h.once.update_none _)
    (Pte.sane_of_cow rfl)

end

theorem fillAlone (h : Inv s role base loose) (hsp : s.gUsed sp) (hv : vpn < userPages)
    (ht : role t = some ⟨sp, 1, vpn / 512⟩) (hNone : s.holds (sp, vpn) = none)
    (he : e.hold = some (f, false)) (hSane : e.Sane) (hf : f ∈ base) (hne : f ≠ 0) :
    Inv (s.setEntry t (vpn % 512) e) role (base \ {f}) loose := by
  refine h.setLeaf hv ht ?_ (fun g hg => h.apart g hg.1) ⟨h.zero, Ne.symm hne⟩ ?_ hSane
  · rw [he, reserved_diff (h.apart f hf)]
    exact h.ledger.fillAlone (mem_userKeys.mpr ⟨h.slots sp hsp, hv⟩) hNone (.inl hf)
  · rw [he]
    exact h.once.update_some fun w c hw => absurd hw (h.base_free hf _ c)

end Inv

end Gnos.Vmm
