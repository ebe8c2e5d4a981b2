import Gnos.Vmm.Walk

/-! What `vmm_map` of one page of the user half, and the release of a page, do: they keep the
invariant and touch that page only. -/

namespace Gnos.Vmm

open ProofKit Function Pte Nat

/-- The address spaces of `s'` are those of `s` except for their pages in the user half, and the
frames of `base` are the same as tables. -/
structure Local (base : Set ℕ) (s s' : Vmm) : Prop where
  used : s'.gUsed = s.gUsed
  space : ∀ sp, s'.gSpaces sp = { s.gSpaces sp with pages := (s'.gSpaces sp).pages }
  tables : ∀ t ∈ base, s'.tables t = s.tables t
  top : ∀ sp i, s.gUsed sp → 256 ≤ i →
    s'.tables (s.gSpaces sp).pml4 i = s.tables (s.gSpaces sp).pml4 i

namespace Local

variable {base base' : Set ℕ} {s s' s'' : Vmm}

theorem refl (base : Set ℕ) (s : Vmm) : Local base s s :=
  ⟨rfl, fun _ => rfl, fun _ _ => rfl, fun _ _ _ _ => rfl⟩

theorem pml4 (h : Local base s s') (sp : ℕ) : (s'.gSpaces sp).pml4 = (s.gSpaces sp).pml4 := by
  rw [h.space]

theorem trans (h : Local base s s') (h' : Local base s' s'') : Local base s s'' := by
  refine ⟨h'.used.trans h.used, ?_, fun t ht => (h'.tables t ht).trans (h.tables t ht), ?_⟩
  · intro sp
    rw [h'.space, h.space]
  · intro sp i hsp hi
    have hsp' : s'.gUsed sp := by rwa [h.used]
    have hTop := h'.top sp i hsp' hi
    rw [h.pml4] at hTop
    rw [hTop, h.top sp i hsp hi]

theorem mono (h : Local base s s') (hSub : base' ⊆ base) : Local base' s s' :=
  ⟨h.used, h.space, fun t ht => h.tables t (hSub ht), h.top⟩

theorem of_tables (hUsed : s'.gUsed = s.gUsed)
    (hSpace : ∀ sp, s'.gSpaces sp = { s.gSpaces sp with pages := (s'.gSpaces sp).pages })
    (hTables : s'.tables = s.tables) : Local base s s' :=
  ⟨hUsed, hSpace, fun _ _ => by rw [hTables], fun _ _ _ _ => by rw [hTables]⟩

theorem of_book (h : BookFrame s s') : Local base s s' :=
  of_tables h.gUsed (fun _ => by rw [h.gSpaces]) h.tables

variable {role role' : Roles} {loose : ℕ → ℕ} {sp t p : ℕ} (h : Inv s role base loose)
include h

theorem of_grown (h' : Inv s' role' base loose) (hGrown : Grown s role s' role') :
    Local base s s' := by
  refine ⟨hGrown.gUsed, fun sp => by rw [hGrown.gSpaces], ?_, ?_⟩
  · intro t ht
    exact hGrown.tables t (h'.apart t ht)
  · intro sp i hsp hi
    exact hGrown.top _ sp i (h.typed.root hsp) hi

theorem of_setLeaf (ht : role t = some ⟨sp, 1, p⟩) (i : ℕ) (e : Pte) :
    Local base s (s.setEntry t i e) := by
  refine ⟨rfl, fun _ => rfl, ?_, ?_⟩
  · intro u hu
    refine update_of_ne ?_ _ _
    rintro rfl
    rw [h.apart u hu] at ht
    cases ht
  · intro sp' j hsp _
    rw [Typed.tables_setEntry, if_neg]
    rintro ⟨hEq, -⟩
    have hRoot := h.typed.root hsp
    rw [hEq, ht, Option.some.injEq, Role.mk.injEq] at hRoot
    omega

theorem of_zeroFrame {n : ℕ} (hn : s.pmm.IsFree n) : Local base s (s.zeroFrame n) := by
  have hTaken := Inv.isFree_not_taken hn
  refine ⟨rfl, fun _ => rfl, ?_, ?_⟩
  · intro t ht
    refine update_of_ne ?_ _ _
    rintro rfl
    exact h.not_base_of_not_taken hTaken ht
  · intro sp i hsp _
    have hne : (s.gSpaces sp).pml4 ≠ n := by
      rintro rfl
      have hRoot := h.typed.root hsp
      rw [h.role_of_not_taken hTaken] at hRoot
      cases hRoot
    exact congrFun (update_of_ne hne _ _) i

end Local

/-- `s'` differs from `s` in the cgroups and in the page counts. -/
structure Accounting (s s' : Vmm) : Prop where
  rest : s' = { s with gCgs := s'.gCgs, gSpaces := s'.gSpaces }
  space : ∀ sp, s'.gSpaces sp = { s.gSpaces sp with pages := (s'.gSpaces sp).pages }

namespace Accounting

variable {s s' s'' : Vmm}

theorem refl (s : Vmm) : Accounting s s := ⟨rfl, fun _ => rfl⟩

section

variable (h : Accounting s s')
include h

theorem trans (h' : Accounting s' s'') : Accounting s s'' := by
  refine ⟨?_, fun sp => ?_⟩
  · rw [h'.rest, h.rest]
  · rw [h'.space, h.space]

theorem tables : s'.tables = s.tables := by rw [h.rest]

theorem gUsed : s'.gUsed = s.gUsed := by rw [h.rest]

theorem sameTree : SameTree s s' :=
  ⟨h.tables, h.gUsed, fun sp => by rw [h.space]⟩

theorem stays (base : Set ℕ) : Local base s s' :=
  .of_tables h.gUsed h.space h.tables

theorem inv {role : Roles} {base : Set ℕ} {loose : ℕ → ℕ} (hInv : Inv s role base loose) :
    Inv s' role base loose := by
  refine hInv.quiet h.sameTree ?_ ?_ ?_ <;> rw [h.rest]

end

end Accounting

section

variable (s sp)

theorem accounting_setPages (f : ℕ → ℕ) :
    Accounting s (s.modifySpace sp fun a => { a with pages := f a.pages }) := by
  refine ⟨rfl, fun sp' => ?_⟩
  rcases eq_or_ne sp' sp with rfl | hne
  · simp [modifySpace]
  · simp [modifySpace, hne]

theorem accounting_charge : Accounting s (s.charge sp).2 := by
  unfold charge cgMemCharge
  split
  · split
    · exact .refl s
    · dsimp only
      split
      · exact .refl s
      · exact ⟨rfl, fun _ => rfl⟩
  · exact .refl s

theorem accounting_discharge : Accounting s (s.discharge sp) := by
  unfold discharge cgMemDischarge
  split
  · split
    · exact .refl s
    · exact ⟨rfl, fun _ => rfl⟩
  · exact .refl s

end

theorem shareUnref_setEntry (s : Vmm) (t i f : ℕ) (e : Pte) :
    (s.setEntry t i e).shareUnref f = (s.shareUnref f).setEntry t i e := by
  have hFind : (s.setEntry t i e).shmFind f = s.shmFind f := rfl
  unfold shareUnref
  rw [hFind]
  cases s.shmFind f with
  | none => rfl
  | some j =>
    have hAt : (s.setEntry t i e).refsAt j = s.refsAt j := rfl
    simp only [hAt]
    split <;> rfl

theorem release_setEntry (s : Vmm) (t i f : ℕ) (b : Bool) (e : Pte) :
    (s.setEntry t i e).release b f = (s.release b f).setEntry t i e := by
  unfold release
  split
  · exact shareUnref_setEntry s t i f e
  · rfl

section Ops

variable {s s' : Vmm} {role : Roles} {base : Set ℕ} {loose : ℕ → ℕ}
  {sp vpn va t f : ℕ} {b : Bool} {e : Pte}

/-- What `vmm_map` does to the entry that it replaces: a shared frame is let go. -/
def overwrite (s : Vmm) (t i : ℕ) (e : Pte) : Vmm :=
  let old := s.tables t i
  if old.p && (old.cow || old.avl) && old.frame ≠ e.frame then
    (s.setEntry t i e).shareUnref old.frame
  else s.setEntry t i e

theorem vmmMap_eq (s : Vmm) (sp va frame : ℕ) (flags : VmFlags) : s.vmmMap sp va frame flags =
      match s.walk sp (pageDown va) true flags with
      | (none, s) => (false, s)
      | (some (t, i), s) => (true, s.overwrite t i (mapEntry frame flags)) := rfl

theorem mapEntry_hold (hf : f < addrFrames) (flags : VmFlags) :
    (mapEntry f flags).hold = some (f, flags.extshm) := by
  rw [hold_eq_some]
  exact ⟨rfl, mod_eq_of_lt hf, Bool.or_false _⟩

section

variable (h : Inv s role base loose)
include h

theorem Inv.release (hMax : ∀ f, loose f < 2 ^ 30) (hv : vpn < userPages)
    (ht : role t = some ⟨sp, 1, vpn / 512⟩) (hx : s.holds (sp, vpn) = some (f, b)) :
    Inv ((s.setEntry t (vpn % 512) {}).release b f) role base loose := by
  obtain ⟨hBase, -, hne⟩ := h.holds_not_role hx
  cases b with
  | false =>
    have hFree := (h.clearAlone hv ht hx).pmmFree (.inl rfl) hne
    rw [Set.insert_sdiff_self_of_notMem hBase] at hFree
    exact hFree
  | true =>
    have hBound := hMax f
    have hUnref := (h.clearShared hv ht hx).shareUnref (f := f)
      (by rw [update_self]; omega) (by rw [update_self]; omega)
    rw [update_self, Nat.add_sub_cancel, update_idem, update_eq_self] at hUnref
    exact hUnref

theorem Inv.leaves_release (hv : vpn < userPages) (ht : role t = some ⟨sp, 1, vpn / 512⟩) (b : Bool)
    (f : ℕ) :
    ((s.setEntry t (vpn % 512) {}).release b f).leaves = update s.leaves (sp, vpn) {} := by
  rw [(bookFrame_release _ b f).sameTree.leaves, h.typed.leaves_setLeaf hv ht]

theorem Inv.overwrite_alone (hsp : s.gUsed sp) (hv : vpn < userPages)
    (ht : role t = some ⟨sp, 1, vpn / 512⟩) (hOld : s.holds (sp, vpn) = none)
    (he : e.hold = some (f, false)) (hSane : e.Sane) (hf : f ∈ base) (hne : f ≠ 0) :
    let s' := s.overwrite t (vpn % 512) e
    Inv s' role (base \ {f}) loose ∧ s'.leaves = update s.leaves (sp, vpn) e ∧ Local base s s' ∧
      s'.pmm.gFree = s.pmm.gFree := by
  have hEq : s.overwrite t (vpn % 512) e = s.setEntry t (vpn % 512) e := by
    unfold overwrite
    dsimp only
    rw [← h.typed.leaves_eq hv ht, hold_eq_none.mp hOld]
    rfl
  rw [hEq]
  exact ⟨h.fillAlone hsp hv ht hOld he hSane hf hne, h.typed.leaves_setLeaf hv ht _,
    .of_setLeaf h ht _ _, rfl⟩

theorem Inv.vmmMap_alone (hsp : s.gUsed sp) (hva : va < userLimit)
    (hOld : s.holds (sp, va / pageSize) = none) (hf : f ∈ base) (hne : f ≠ 0)
    {flags : VmFlags} (hFlags : flags.extshm = false) :
    ∃ s' role', Local base s s' ∧ s.pmm.gFree ≤ s'.pmm.gFree + 3 ∧
      ((s.vmmMap sp va f flags = (false, s') ∧ s.pmm.gFree < 3 ∧ Inv s' role' base loose ∧
      s'.leaves = s.leaves) ∨
        (s.vmmMap sp va f flags = (true, s') ∧ Inv s' role' (base \ {f}) loose ∧
          s'.leaves = update s.leaves (sp, va / pageSize) (mapEntry f flags))) := by
  have hDown : pageDown va < userLimit := lt_of_le_of_lt (pageDown_le va) hva
  obtain ⟨s1, role1, h1, hGrown, hFrames, hEnd⟩ := h.walk hsp hDown flags
  have hLocal1 := Local.of_grown h h1 hGrown
  rw [pageDown_div] at hEnd
  rw [vmmMap_eq]
  rcases hEnd with ⟨hFail, hFew⟩ | ⟨t, hWalk, ht⟩
  · exact ⟨s1, role1, hLocal1, hFrames, .inl ⟨by rw [hFail], hFew, h1, hGrown.leaves⟩⟩
  · have he := mapEntry_hold (h.frame_lt (h.base_taken hf).1) flags
    rw [hFlags] at he
    obtain ⟨h', hLeaves, hLocal, hMore⟩ := h1.overwrite_alone (by rwa [hGrown.gUsed])
      (userPage_lt hva) ht (by rwa [hGrown.holds]) he (sane_of_cow rfl) hf hne
    rw [hGrown.leaves] at hLeaves
    exact ⟨_, role1, hLocal1.trans hLocal, by omega, .inr ⟨by rw [hWalk], h', hLeaves⟩⟩

end

end Ops

end Gnos.Vmm
