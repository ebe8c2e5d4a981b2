import Gnos.ProofKit.Chain
import Gnos.Vmm.Ops

/-! What the memory controller charges for.  The books are settled when `mem_bytes` of every cgroup
is one page for each resident page of the address spaces in its subtree. -/

namespace Gnos.Vmm

open ProofKit Function Finset

def cgParent (cgs : ℕ → Cgroup) (c : ℕ) : Option ℕ := (cgs c).parent

/-- The live cgroups form a tree below slot 0. -/
def CgTree (cgs : ℕ → Cgroup) : Prop :=
  Rooted maxCgs (fun c => (cgs c).live) (cgParent cgs) 0

theorem cgChain_eq {cgs : ℕ → Cgroup} (h : (cgs 0).parent = none) (n c : ℕ) :
    cgChain cgs n c = chain (cgParent cgs) n c := by
  induction n generalizing c with
  | zero => rfl
  | succ n ih =>
    unfold cgChain chain cgParent
    by_cases hc : c = 0
    · subst hc
      simp only [if_true, h]
    · rw [if_neg hc]
      cases (cgs c).parent with
      | none => rfl
      | some p => exact congrArg (c :: ·) (ih p)

theorem CgTree.mem_cgChain {cgs : ℕ → Cgroup} (h : CgTree cgs) {c : ℕ} (hc : (cgs c).live)
    (g : ℕ) : g ∈ cgChain cgs maxCgs c ↔ Under (cgParent cgs) g c := by
  rw [cgChain_eq h.root.2]
  exact h.mem_chain hc

def residentPages (s : Vmm) (sp : ℕ) : Finset ℕ :=
  (Finset.range userPages).filter fun v => (s.leaves (sp, v)).p

def resident (s : Vmm) (sp : ℕ) : ℕ := (s.residentPages sp).card

/-- A live address space whose cgroup is in the subtree of `g`. -/
def InGroup (s : Vmm) (g sp : ℕ) : Prop :=
  s.gUsed sp ∧ ∃ c, (s.gSpaces sp).cg = some c ∧ Under (cgParent s.gCgs) g c

open Classical in
/-- The pages of the subtree of `g` when address space `sp` has `n sp` of them. -/
noncomputable def subtreePages (s : Vmm) (n : ℕ → ℕ) (g : ℕ) : ℕ :=
  ∑ sp ∈ Finset.range maxAddrspaces with s.InGroup g sp, n sp

/-- The cgroups are charged for `n sp` pages of every address space `sp`. -/
structure Books (s : Vmm) (n : ℕ → ℕ) : Prop where
  tree : CgTree s.gCgs
  member : ∀ sp c, s.gUsed sp → (s.gSpaces sp).cg = some c → (s.gCgs c).live
  bytes : ∀ g, (s.gCgs g).live → (s.gCgs g).memBytes = pageSize * s.subtreePages n g

def Settled (s : Vmm) : Prop := Books s s.resident

section Books

variable {s s' : Vmm} {n : ℕ → ℕ} {sp v g : ℕ} {e : Pte}

theorem resident_le (s : Vmm) (sp : ℕ) : s.resident sp ≤ userPages :=
  (card_filter_le _ _).trans_eq (card_range _)

theorem resident_congr (h : ∀ v, (s'.leaves (sp, v)).p = (s.leaves (sp, v)).p) :
    s'.resident sp = s.resident sp := by
  unfold resident residentPages
  simp only [h]

section

variable (hLeaves : s'.leaves = Function.update s.leaves (sp, v) e)
include hLeaves

theorem residentPages_update : s'.residentPages sp =
      if e.p ∧ v < userPages then insert v (s.residentPages sp)
      else (s.residentPages sp).erase v := by
  ext w
  unfold residentPages
  rw [hLeaves]
  by_cases hw : w = v
  · subst hw
    by_cases he : e.p ∧ w < userPages
    · simp [he.1, he.2]
    · rw [if_neg he]
      simp only [update_self, mem_filter, mem_range, mem_erase,
        ne_eq, not_true_eq_false, false_and, iff_false]
      rw [and_comm]
      exact he
  · split <;> simp [hw]

theorem resident_other {sp' : ℕ} (hne : sp' ≠ sp) : s'.resident sp' = s.resident sp' := by
  apply resident_congr
  intro w
  rw [hLeaves, update_of_ne]
  simp [hne]

theorem resident_fill (hv : v < userPages) (hOld : (s.leaves (sp, v)).p = false) (he : e.p) :
    s'.resident = update s.resident sp (s.resident sp + 1) := by
  funext sp'
  rcases eq_or_ne sp' sp with rfl | hne
  · rw [update_self, resident, residentPages_update hLeaves, if_pos ⟨he, hv⟩,
      card_insert_of_notMem, resident]
    simp [residentPages, hOld]
  · rw [update_of_ne hne, resident_other hLeaves hne]

theorem resident_clear (hv : v < userPages) (hOld : (s.leaves (sp, v)).p) (he : e.p = false) :
    0 < s.resident sp ∧ s'.resident = update s.resident sp (s.resident sp - 1) := by
  have hMem : v ∈ s.residentPages sp := by simp [residentPages, hv, hOld]
  refine ⟨card_pos.mpr ⟨v, hMem⟩, ?_⟩
  funext sp'
  rcases eq_or_ne sp' sp with rfl | hne
  · rw [update_self, resident, residentPages_update hLeaves, if_neg (by simp [he]),
      card_erase_of_mem hMem, resident]
  · rw [update_of_ne hne, resident_other hLeaves hne]

theorem resident_keep (he : e.p = (s.leaves (sp, v)).p) : s'.resident = s.resident := by
  funext sp'
  apply resident_congr
  intro w
  rw [hLeaves, update_apply]
  split_ifs with hEq
  · rw [hEq, he]
  · rfl

end

theorem resident_of_leaves (hLeaves : s'.leaves = s.leaves) : s'.resident = s.resident := by
  funext sp
  apply resident_congr
  intro v
  rw [hLeaves]

theorem subtreePages_le (s : Vmm) (hn : ∀ sp, n sp ≤ userPages) (g : ℕ) :
    s.subtreePages n g ≤ maxAddrspaces * userPages := by
  classical
  refine (sum_le_card_nsmul _ _ userPages fun sp _ => hn sp).trans ?_
  refine Nat.mul_le_mul_right _ ?_
  exact (card_filter_le _ _).trans_eq (card_range _)

theorem subtreePages_update_of_not (h : ¬s.InGroup g sp) (k : ℕ) :
    s.subtreePages (update n sp k) g = s.subtreePages n g := by
  classical
  refine sum_congr rfl fun sp' hsp' => ?_
  rw [update_of_ne]
  rintro rfl
  exact h (mem_filter.mp hsp').2

theorem subtreePages_update (h : s.InGroup g sp) (hsp : sp < maxAddrspaces) (k : ℕ) :
    s.subtreePages (update n sp k) g + n sp = s.subtreePages n g + k := by
  classical
  unfold subtreePages
  have hMem : sp ∈ (range maxAddrspaces).filter (s.InGroup g) :=
    mem_filter.mpr ⟨mem_range.mpr hsp, h⟩
  rw [sum_update_of_mem hMem, ← add_sum_erase _ n hMem, sdiff_singleton_eq_erase]
  omega

/-- `s'` has the cgroups and the members of `s`; the charges may differ. -/
structure SameGroups (s s' : Vmm) : Prop where
  used : s'.gUsed = s.gUsed
  cg : ∀ sp, (s'.gSpaces sp).cg = (s.gSpaces sp).cg
  live : ∀ c, (s'.gCgs c).live = (s.gCgs c).live
  parent : ∀ c, (s'.gCgs c).parent = (s.gCgs c).parent

namespace SameGroups

section

variable (h : SameGroups s s')
include h

theorem cgParent : cgParent s'.gCgs = Vmm.cgParent s.gCgs :=
  funext h.parent

theorem inGroup : s'.InGroup = s.InGroup := by
  funext g sp
  rw [InGroup, InGroup, h.used, h.cg, h.cgParent]

theorem subtreePages : s'.subtreePages = s.subtreePages := by
  funext n g
  rw [Vmm.subtreePages, Vmm.subtreePages, h.inGroup]

theorem books (hBooks : Books s n) {n' : ℕ → ℕ}
    (hBytes : ∀ g, (s.gCgs g).live → (s'.gCgs g).memBytes = pageSize * s.subtreePages n' g) :
    Books s' n' := by
  refine ⟨?_, ?_, ?_⟩
  · unfold CgTree
    simp only [h.live, h.cgParent]
    exact hBooks.tree
  · intro sp c hsp hc
    rw [h.used] at hsp
    rw [h.cg] at hc
    rw [h.live]
    exact hBooks.member sp c hsp hc
  · intro g hg
    rw [h.live] at hg
    rw [h.subtreePages]
    exact hBytes g hg

end

end SameGroups

theorem Books.congr (h : Books s n) (hGroups : SameGroups s s') (hCgs : s'.gCgs = s.gCgs) :
    Books s' n := by
  refine hGroups.books h fun g hg => ?_
  rw [hCgs]
  exact h.bytes g hg

theorem sameGroups_setMemBytes (s : Vmm) (chain : List ℕ) (f : ℕ → ℕ) :
    SameGroups s (s.setMemBytes chain f) := by
  refine ⟨rfl, fun _ => rfl, fun c => ?_, fun c => ?_⟩
  · unfold setMemBytes
    dsimp only
    split <;> rfl
  · unfold setMemBytes
    dsimp only
    split <;> rfl

theorem memBytes_setMemBytes (s : Vmm) (chain : List ℕ) (f : ℕ → ℕ) (g : ℕ) :
    ((s.setMemBytes chain f).gCgs g).memBytes =
      if g ∈ chain then f (s.gCgs g).memBytes else (s.gCgs g).memBytes := by
  unfold setMemBytes
  dsimp only
  split <;> rfl

theorem Books.unbilled (h : Books s n) (hc : (s.gSpaces sp).cg = none) (k : ℕ) :
    Books s (update n sp k) := by
  refine ⟨h.tree, h.member, fun g hg => ?_⟩
  rw [subtreePages_update_of_not]
  · exact h.bytes g hg
  · rintro ⟨-, c, hc', -⟩
    rw [hc] at hc'
    cases hc'

section

variable (h : Books s n) (hUsed : s.gUsed sp)
include h hUsed

theorem Books.inGroup {c : ℕ} (hc : (s.gSpaces sp).cg = some c) :
    s.InGroup g sp ↔ g ∈ cgChain s.gCgs maxCgs c := by
  rw [h.tree.mem_cgChain (h.member sp c hUsed hc)]
  constructor
  · rintro ⟨-, c', hc', hUnder⟩
    rw [hc] at hc'
    rw [Option.some.inj hc']
    exact hUnder
  · exact fun hUnder => ⟨hUsed, c, hc, hUnder⟩

theorem Books.charged {c : ℕ} (hc : (s.gSpaces sp).cg = some c) :
    ¬(maxCgs ≤ c ∨ ¬(s.gCgs c).live ∨ pageSize = 0) := by
  have hLive := h.member sp c hUsed hc
  have hBound := h.tree.bound c hLive
  rintro (hLe | hDead | hZero)
  · omega
  · exact hDead hLive
  · exact absurd hZero (by decide)

theorem Books.rebill {c k : ℕ} (hc : (s.gSpaces sp).cg = some c) {f : ℕ → ℕ}
    (hf : ∀ g, s.InGroup g sp →
      f (pageSize * s.subtreePages n g) = pageSize * s.subtreePages (update n sp k) g) :
    Books (s.setMemBytes (cgChain s.gCgs maxCgs c) f) (update n sp k) := by
  refine (sameGroups_setMemBytes s _ _).books h fun g hg => ?_
  rw [memBytes_setMemBytes, h.bytes g hg]
  by_cases hIn : s.InGroup g sp
  · rw [if_pos ((h.inGroup hUsed hc).mp hIn), hf g hIn]
  · rw [if_neg fun hMem => hIn ((h.inGroup hUsed hc).mpr hMem), subtreePages_update_of_not hIn]

theorem Books.charge (hsp : sp < maxAddrspaces) (hn : ∀ sp, n sp ≤ userPages)
    (hOk : (s.charge sp).1) : Books (s.charge sp).2 (update n sp (n sp + 1)) := by
  unfold Vmm.charge at hOk ⊢
  cases hc : (s.gSpaces sp).cg with
  | none => exact h.unbilled hc _
  | some c =>
    rw [hc] at hOk
    unfold cgMemCharge at hOk ⊢
    simp only [if_neg (h.charged hUsed hc)] at hOk ⊢
    split at hOk
    · cases hOk
    · rename_i hAny
      rw [if_neg hAny]
      dsimp only
      refine h.rebill hUsed hc fun g hIn => ?_
      have hLe := s.subtreePages_le hn g
      have hUpdate := subtreePages_update hIn hsp (n := n) (n sp + 1)
      have hOne : s.subtreePages (update n sp (n sp + 1)) g = s.subtreePages n g + 1 := by
        omega
      rw [hOne, Nat.mul_add, Nat.mul_one, add64_of_lt]
      unfold maxAddrspaces userPages at hLe
      unfold pageSize
      omega

theorem Books.discharge (hsp : sp < maxAddrspaces) (hPos : 0 < n sp) :
    Books (s.discharge sp) (update n sp (n sp - 1)) := by
  unfold Vmm.discharge
  cases hc : (s.gSpaces sp).cg with
  | none => exact h.unbilled hc _
  | some c =>
    unfold cgMemDischarge
    simp only [if_neg (h.charged hUsed hc)]
    refine h.rebill hUsed hc fun g hIn => ?_
    have hUpdate := subtreePages_update hIn hsp (n := n) (n sp - 1)
    have hOne : s.subtreePages n g = s.subtreePages (update n sp (n sp - 1)) g + 1 := by
      omega
    rw [hOne, Nat.mul_add, Nat.mul_one, Nat.add_sub_cancel]

end

theorem charge_refused (h : (s.charge sp).1 = false) : (s.charge sp).2 = s := by
  unfold charge cgMemCharge at h ⊢
  split at h
  · split at h
    · cases h
    · dsimp only at h
      split at h
      · rename_i hCond hAny
        rw [if_neg hCond]
        rw [if_pos hAny]
      · cases h
  · cases h

/-- `s'` differs from `s` in page tables, page contents and the books of the frames only. -/
structure PagingFrame (s s' : Vmm) : Prop where
  rest : s' = { s with
    tables := s'.tables, data := s'.data, pmm := s'.pmm, gShm := s'.gShm
    gFrameSlotsUsed := s'.gFrameSlotsUsed }

namespace PagingFrame

theorem refl (s : Vmm) : PagingFrame s s := ⟨rfl⟩

theorem trans {s'' : Vmm} (h : PagingFrame s s') (h' : PagingFrame s' s'') : PagingFrame s s'' := by
  refine ⟨?_⟩
  rw [h'.rest, h.rest]

theorem of_book (h : BookFrame s s') : PagingFrame s s' := by
  refine ⟨?_⟩
  rw [h.rest]

section

variable (h : PagingFrame s s')
include h

theorem gCgs : s'.gCgs = s.gCgs := by rw [h.rest]

theorem gSpaces : s'.gSpaces = s.gSpaces := by rw [h.rest]

theorem gUsed : s'.gUsed = s.gUsed := by rw [h.rest]

theorem sameGroups : SameGroups s s' :=
  ⟨h.gUsed, fun _ => by rw [h.gSpaces], fun _ => by rw [h.gCgs], fun _ => by rw [h.gCgs]⟩

theorem books (hBooks : Books s n) : Books s' n :=
  hBooks.congr h.sameGroups h.gCgs

theorem settled (hResident : s'.resident = s.resident) (hSettled : Settled s) : Settled s' := by
  unfold Settled
  rw [hResident]
  exact h.books hSettled

end

end PagingFrame

section

variable (s)

theorem paging_setEntry (t i : ℕ) (e : Pte) : PagingFrame s (s.setEntry t i e) := ⟨rfl⟩

theorem paging_pmmAllocZeroed : PagingFrame s s.pmmAllocZeroed.2 := by
  unfold pmmAllocZeroed
  dsimp only
  split <;> exact ⟨rfl⟩

theorem paging_shareUnref (f : ℕ) : PagingFrame s (s.shareUnref f) :=
  .of_book (bookFrame_shareUnref s f)

theorem paging_openEntry (t i : ℕ) (create : Bool) : PagingFrame s (s.openEntry t i create).2 := by
  unfold openEntry
  split
  · exact .refl s
  · split
    · exact .refl s
    · dsimp only
      split
      · exact paging_pmmAllocZeroed s
      · exact (paging_pmmAllocZeroed s).trans (paging_setEntry _ _ _ _)

theorem paging_splitLarge (t i level : ℕ) : PagingFrame s (s.splitLarge t i level).2 := by
  unfold splitLarge
  dsimp only
  split
  · exact .refl s
  · split
    · exact paging_pmmAllocZeroed s
    · refine (paging_pmmAllocZeroed s).trans ?_
      exact ⟨rfl⟩

end

theorem paging_walkFrom (va : ℕ) (create : Bool) (flags : VmFlags) (n : ℕ) :
    ∀ (t : ℕ) (s : Vmm), PagingFrame s (walkFrom va create flags n t s).2 := by
  induction n with
  | zero => exact fun _ s => .refl s
  | succ n ih =>
    intro t s
    rw [walkFrom]
    have hOpen := paging_openEntry s t (pteIndex va (n + 2)) create
    generalize s.openEntry t (pteIndex va (n + 2)) create = r at hOpen ⊢
    obtain ⟨ok, s1⟩ := r
    cases ok with
    | false => exact hOpen
    | true =>
      dsimp only at hOpen ⊢
      generalize hs2 : (if create then s1.setEntry t (pteIndex va (n + 2))
        (permit flags (s1.tables t (pteIndex va (n + 2)))) else s1) = s2
      have hPermit : PagingFrame s1 s2 := by
        rw [← hs2]
        split
        · exact paging_setEntry _ _ _ _
        · exact .refl s1
      have hSplit := paging_splitLarge s2 t (pteIndex va (n + 2)) (n + 2)
      generalize s2.splitLarge t (pteIndex va (n + 2)) (n + 2) = r at hSplit ⊢
      obtain ⟨ok, s3⟩ := r
      have hSoFar := (hOpen.trans hPermit).trans hSplit
      cases ok with
      | false => exact hSoFar
      | true => exact hSoFar.trans (ih _ s3)

theorem paging_walk (s : Vmm) (sp va : ℕ) (create : Bool) (flags : VmFlags) :
    PagingFrame s (s.walk sp va create flags).2 := paging_walkFrom _ _ _ _ _ _

theorem paging_vmmMap (s : Vmm) (sp va frame : ℕ) (flags : VmFlags) :
    PagingFrame s (s.vmmMap sp va frame flags).2 := by
  have hWalk := paging_walk s sp (pageDown va) true flags
  unfold vmmMap
  generalize s.walk sp (pageDown va) true flags = r at hWalk ⊢
  obtain ⟨_ | ⟨t, i⟩, s1⟩ := r
  · exact hWalk
  · refine hWalk.trans ?_
    dsimp only
    split
    · exact (paging_setEntry s1 t i _).trans (paging_shareUnref _ _)
    · exact paging_setEntry s1 t i _

end Books

end Gnos.Vmm
