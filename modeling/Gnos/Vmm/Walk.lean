import Gnos.Vmm.Edits

/-! What `walk` does: without allocation it reads the entry of a page and changes nothing, and with
allocation it adds empty tables, which nobody sees. -/

namespace Gnos.Vmm

open ProofKit Function Option Nat

structure Grown (s : Vmm) (role : Roles) (s' : Vmm) (role' : Roles) : Prop where
  rest : s' = { s with tables := s'.tables, data := s'.data, pmm := s'.pmm }
  leaves : s'.leaves = s.leaves
  roles : ∀ t r, role t = some r → role' t = some r
  mono : s.taken ⊆ s'.taken
  data : ∀ a, a / pageSize ∈ s.taken → s'.data a = s.data a
  tables : ∀ t, role' t = none → s'.tables t = s.tables t
  top : ∀ t sp i, role t = some ⟨sp, 4, 0⟩ → 256 ≤ i → s'.tables t i = s.tables t i

namespace Grown

variable {s s' s'' : Vmm} {role role' role'' : Roles}

theorem refl (s : Vmm) (role : Roles) : Grown s role s role :=
  ⟨rfl, rfl, fun _ _ h => h, subset_rfl, fun _ _ => rfl, fun _ _ => rfl, fun _ _ _ _ _ => rfl⟩

section

variable (h : Grown s role s' role')
include h

theorem trans (h' : Grown s' role' s'' role'') : Grown s role s'' role'' := by
  refine ⟨?_, h'.leaves.trans h.leaves, fun t r ht => h'.roles t r (h.roles t r ht),
    h.mono.trans h'.mono, fun a ha => (h'.data a (h.mono ha)).trans (h.data a ha), ?_, ?_⟩
  · rw [h'.rest, h.rest]
  · intro t ht
    have ht' : role' t = none := by
      cases hRole : role' t with
      | none => rfl
      | some r =>
        rw [h'.roles t r hRole] at ht
        cases ht
    rw [h'.tables t ht, h.tables t ht']
  · intro t sp i ht hi
    rw [h'.top t sp i (h.roles t _ ht) hi, h.top t sp i ht hi]

theorem gUsed : s'.gUsed = s.gUsed := by rw [h.rest]

theorem gSpaces : s'.gSpaces = s.gSpaces := by rw [h.rest]

theorem holds : s'.holds = s.holds := holds_congr h.leaves

end

end Grown

namespace Inv

variable {s s' : Vmm} {role role' : Roles} {base : Set ℕ} {loose : ℕ → ℕ}
  {sp vpn t i l p n : ℕ} {e : Pte}

theorem tableFrames_update (role : Roles) (n : ℕ) (r : Role ℕ) :
    tableFrames (update role n (some r)) = insert n (tableFrames role) := by
  ext u
  simp only [tableFrames, Set.mem_ofPred_eq, Set.mem_insert_iff, update_apply]
  by_cases hu : u = n <;> simp [hu]

section

variable (h : Inv s role base loose) (ht : role t = some ⟨sp, l + 1, p⟩) (hl : 0 < l)
  (hi : i < levelLimit (l + 1))
include h ht hl hi

theorem setInner (hp : e.p = (s.tables t i).p) (hFrame : e.frame = (s.tables t i).frame)
    (hps : e.ps = (s.tables t i).ps) :
    Inv (s.setEntry t i e) role base loose ∧ Grown s role (s.setEntry t i e) role := by
  have hTyped := h.typed.setInner hp hFrame hps
  have hLeaves : (s.setEntry t i e).leaves = s.leaves := by
    refine h.typed.leaves_congr hTyped ?_
    intro u sp' q j hu _
    rw [Typed.tables_setEntry, if_neg]
    rintro ⟨rfl, -⟩
    rw [ht, some.injEq, Role.mk.injEq] at hu
    omega
  have hHolds : (s.setEntry t i e).holds = s.holds := holds_congr hLeaves
  refine ⟨⟨h.pmm, ⟨h.shm.probed, h.shm.count, h.shm.pos⟩, hTyped, h.slots, ?_, h.apart, h.zero, ?_,
    ?_⟩, ⟨rfl, hLeaves, fun _ _ hu => hu, subset_rfl, fun _ _ => rfl, ?_, ?_⟩⟩
  · rw [hHolds]
    exact h.ledger
  · rw [hHolds]
    exact h.once
  · rw [hLeaves]
    exact h.sane
  · intro u hu
    exact update_of_ne (ne_of_role ht hu).symm _ _
  · intro u sp' j hu hj
    rw [Typed.tables_setEntry, if_neg]
    rintro ⟨rfl, rfl⟩
    rw [ht, some.injEq, Role.mk.injEq] at hu
    rw [hu.2.1] at hi
    have : levelLimit 4 = 256 := rfl
    omega

theorem link (hAbsent : (s.tables t i).p = false) (hn : s.pmm.IsFree n) (hp : e.p)
    (hFrame : e.frame = n) (hps : e.ps = false) :
    Inv ((s.zeroFrame n).setEntry t i e) (update role n (some ⟨sp, l, p * 512 + i⟩)) base loose ∧
      Grown s role ((s.zeroFrame n).setEntry t i e)
      (update role n (some ⟨sp, l, p * 512 + i⟩)) := by
  obtain ⟨hz, hzLeaves⟩ := h.zeroFrame hn
  have hnTaken := isFree_not_taken hn
  have hnRole := h.role_of_not_taken hnTaken
  have htn : t ≠ n := ne_of_role ht hnRole
  generalize hs' : (s.zeroFrame n).setEntry t i e = s'
  have hTables : ∀ u j, s'.tables u j =
      if u = t ∧ j = i then e else if u = n then {} else s.tables u j := by
    intro u j
    rw [← hs', Typed.tables_setEntry]
    show (if _ then e else update s.tables n (fun _ => {}) u j) = _
    by_cases hu : u = n <;> simp [hu]
  have hChild : ∀ u j, s'.child u j =
      if u = t ∧ j = i then some n else if u = n then none else s.child u j := by
    intro u j
    rw [child, hTables]
    by_cases hEq : u = t ∧ j = i
    · rw [if_pos hEq, if_pos hEq, if_pos hp, hFrame]
    · rw [if_neg hEq, if_neg hEq]
      by_cases hun : u = n
      · rw [if_pos hun, if_pos hun]
        rfl
      · rw [if_neg hun, if_neg hun]
        rfl
  have hOld : ∀ u r, role u = some r → update role n (some ⟨sp, l, p * 512 + i⟩) u = some r := by
    intro u r hu
    rwa [update_of_ne (ne_of_role hu hnRole)]
  have hTyped : Typed s' (update role n (some ⟨sp, l, p * 512 + i⟩)) := by
    refine ⟨?_, ?_⟩
    · have hRoot : s'.rootOf = s.rootOf := by
        rw [← hs']
        rfl
      rw [hRoot]
      refine h.typed.forest.link ht hl hi ?_ hnRole ?_ ?_ ?_
      · rw [child, hAbsent]
        rfl
      · rw [hChild, if_pos ⟨rfl, rfl⟩]
      · intro j
        rw [hChild, if_neg (fun hEq => htn hEq.1.symm), if_pos rfl]
      · intro u j hu hne
        rw [hChild, if_neg hne, if_neg hu]
    · intro u j hInner
      rw [hTables]
      split
      · exact hps
      · split_ifs with hun
        · rfl
        · obtain ⟨r, k, q, hr, hk, hj⟩ := hInner
          rw [update_of_ne hun] at hr
          exact h.typed.small u j ⟨r, k, q, hr, hk, hj⟩
  have hLeaves : s'.leaves = s.leaves := by
    refine h.typed.leaves_grow hTyped hOld ?_
    intro u sp' q j hu _
    rw [hTables]
    rcases eq_or_ne u n with rfl | hun
    · rw [if_neg (fun hEq => htn hEq.1.symm), if_pos rfl]
      exact .inr ⟨rfl, hnRole⟩
    · rw [update_of_ne hun] at hu
      refine .inl ⟨hu, ?_⟩
      rw [if_neg, if_neg hun]
      rintro ⟨rfl, -⟩
      rw [ht, some.injEq, Role.mk.injEq] at hu
      omega
  have hHolds : s'.holds = s.holds := holds_congr hLeaves
  have hzHolds : (s.zeroFrame n).holds = s.holds := holds_congr hzLeaves
  have hTaken : s'.taken = insert n s.taken := by
    rw [← hs']
    exact taken_take s hn.1
  have hRest : s' = { s with tables := s'.tables, data := s'.data, pmm := s'.pmm } := by
    rw [← hs']
    rfl
  have hData : s'.data = (s.zeroFrame n).data := by
    rw [← hs']
    rfl
  refine ⟨⟨?_, ?_, hTyped, ?_, ?_, ?_, h.zero, ?_, ?_⟩, ⟨hRest, hLeaves, hOld, ?_, ?_, ?_, ?_⟩⟩
  · rw [← hs']
    exact hz.pmm
  · rw [hRest]
    exact ⟨h.shm.probed, h.shm.count, h.shm.pos⟩
  · rw [hRest]
    exact h.slots
  · have hLedger := hz.ledger
    rw [hzHolds, reserved_insert] at hLedger
    rw [hHolds, tableFrames_update, Set.union_insert, ← hs']
    exact hLedger
  · intro f hf
    rw [update_of_ne]
    · exact h.apart f hf
    · rintro rfl
      exact h.not_base_of_not_taken hnTaken hf
  · rw [hHolds]
    exact h.once
  · rw [hLeaves]
    exact h.sane
  · rw [hTaken]
    exact Set.subset_insert _ _
  · intro a ha
    rw [hData, zeroFrame_data, if_neg]
    rintro rfl
    exact hnTaken ha
  · intro u hu
    have hun : u ≠ n := by
      rintro rfl
      rw [update_self] at hu
      cases hu
    rw [update_of_ne hun] at hu
    funext j
    rw [hTables, if_neg, if_neg hun]
    exact fun hEq => ne_of_role ht hu hEq.1.symm
  · intro u sp' j hu hj
    rw [hTables, if_neg, if_neg (ne_of_role hu hnRole)]
    rintro ⟨rfl, rfl⟩
    rw [ht, some.injEq, Role.mk.injEq] at hu
    rw [hu.2.1] at hi
    have : levelLimit 4 = 256 := rfl
    omega

theorem openEntry : (s.openEntry t i true = (false, s) ∧ s.pmm.gFree = 0) ∨
      ∃ s' role', s.openEntry t i true = (true, s') ∧ Inv s' role' base loose ∧
        Grown s role s' role' ∧ (s'.tables t i).p ∧ s.pmm.gFree ≤ s'.pmm.gFree + 1 := by
  unfold Vmm.openEntry
  by_cases hp : (s.tables t i).p
  · exact .inr ⟨s, role, by rw [if_pos hp], h, .refl s role, hp, le_succ _⟩
  · rw [if_neg hp]
    rcases h.pmmAllocZeroed with ⟨hFail, hEmpty⟩ | ⟨n, hn, hne, hAlloc⟩
    · refine .inl ⟨?_, hEmpty⟩
      rw [hFail]
      rfl
    · obtain ⟨hInv, hGrown⟩ := h.link ht hl hi (Bool.eq_false_iff.mpr hp) hn
        (e := { p := true, rw := true, frame := n }) rfl rfl rfl
      refine .inr ⟨_, _, ?_, hInv, hGrown, ?_, (h.gFree_zeroFrame hn).le⟩
      · rw [hAlloc]
        simp only [Bool.not_true, Bool.false_eq_true, if_false, if_neg hne]
      · rw [Typed.tables_setEntry, if_pos ⟨rfl, rfl⟩]

end

theorem splitLarge_small (h : (s.tables t i).ps = false) (level : ℕ) :
    s.splitLarge t i level = (true, s) := by
  unfold splitLarge
  simp only [h, Bool.not_false, if_true]

end Inv

theorem digit_join (v n : ℕ) :
    v / 512 ^ (n + 2) * 512 + v / 512 ^ (n + 1) % 512 = v / 512 ^ (n + 1) := by
  rw [Nat.pow_succ, ← Nat.div_div_eq_div_mul]
  exact div_add_mod' _ _

section Probe

variable {s : Vmm} {role : Roles} {sp vpn va t n : ℕ}

theorem walkFrom_probe (h : Typed s role) (hva : va / pageSize = vpn) (flags : VmFlags)
    (ht : role t = some ⟨sp, n + 1, vpn / 512 ^ (n + 1)⟩)
    (hKey : ∀ m < n, vpn / 512 ^ (m + 1) % 512 < levelLimit (m + 2)) :
    walkFrom va false flags n t s =
      ((descend 512 s.child vpn n t).map fun u => (u, vpn % 512), s) := by
  induction n generalizing t with
  | zero =>
    rw [walkFrom, pteIndex_eq va 0, hva, Nat.pow_zero, Nat.div_one]
    rfl
  | succ n ih =>
    have hDigit := hKey n (lt_succ_self n)
    have hPre := digit_join vpn n
    rw [walkFrom, descend, pteIndex_eq va (n + 1), hva]
    generalize vpn / 512 ^ (n + 1) % 512 = i at hDigit hPre ⊢
    by_cases hp : (s.tables t i).p
    · have hOpen : s.openEntry t i false = (true, s) := if_pos hp
      have hChild : s.child t i = some (s.tables t i).frame := if_pos hp
      have hc := h.forest.down t sp (n + 1) _ i _ ht (succ_pos n) hDigit hChild
      rw [hPre] at hc
      have hSmall := h.small t i ⟨sp, n + 1, _, ht, succ_pos n, hDigit⟩
      simp only [hOpen, hChild, bind_some, Bool.false_eq_true, if_false,
        Inv.splitLarge_small hSmall]
      exact ih hc fun m hm => hKey m (lt_succ_of_lt hm)
    · have hOpen : s.openEntry t i false = (false, s) := by
        rw [openEntry, if_neg hp]
        rfl
      have hChild : s.child t i = none := if_neg hp
      simp only [hOpen, hChild, bind_none, map_none]

theorem userPage_lt (hva : va < userLimit) : va / pageSize < userPages := by
  unfold userLimit at hva
  unfold pageSize userPages
  omega

theorem pageDown_div (va : ℕ) : pageDown va / pageSize = va / pageSize :=
  Nat.mul_div_cancel _ (by decide)

theorem pageDown_le (va : ℕ) : pageDown va ≤ va := div_mul_le_self va pageSize

section

variable (h : Typed s role) (hsp : s.gUsed sp) (hva : va < userLimit)
include h hsp hva

theorem probe_eq : s.probe sp va =
      ((s.leafTable sp (va / pageSize)).map fun u => (u, va / pageSize % 512), s) := by
  have hv := userPage_lt hva
  have hRoot := h.root hsp
  rw [← userPages_div hv] at hRoot
  have hTable : s.leafTable sp (va / pageSize) =
      descend 512 s.child (va / pageSize) 3 (s.gSpaces sp).pml4 := by
    rw [leafTable, rootOf, if_pos hsp]
    rfl
  rw [hTable]
  exact walkFrom_probe h rfl {} hRoot (digit_lt hv)

theorem probe_cases : (s.probe sp va = (none, s) ∧ s.leaves (sp, va / pageSize) = {}) ∨
      ∃ t, s.probe sp va = (some (t, va / pageSize % 512), s) ∧
      role t = some ⟨sp, 1, va / pageSize / 512⟩ ∧
        s.tables t (va / pageSize % 512) = s.leaves (sp, va / pageSize) := by
  have hv := userPage_lt hva
  rw [probe_eq h hsp hva]
  cases hTable : s.leafTable sp (va / pageSize) with
  | none =>
    exact .inl ⟨rfl, h.leaves_eq_empty ((h.leafTable_eq_none hv).mp hTable)⟩
  | some t =>
    have ht := (h.leafTable_eq_some hv).mp hTable
    exact .inr ⟨t, rfl, ht, (h.leaves_eq hv ht).symm⟩

theorem vmmResolve_eq : s.vmmResolve sp va = (if (s.leaves (sp, va / pageSize)).p then
      (s.leaves (sp, va / pageSize)).frame * pageSize + va % pageSize else 0, s) := by
  unfold vmmResolve
  rcases probe_cases h hsp (lt_of_le_of_lt (pageDown_le va) hva) with
    ⟨hProbe, hLeaf⟩ | ⟨t, hProbe, -, hLeaf⟩
  · rw [pageDown_div] at hLeaf
    rw [hProbe, hLeaf]
    rfl
  · rw [pageDown_div] at hLeaf hProbe
    simp only [hProbe, hLeaf]

end

end Probe

theorem Inv.walkFrom {va vpn sp : ℕ} {base : Set ℕ} {loose : ℕ → ℕ} (flags : VmFlags)
    (hva : va / pageSize = vpn) (n : ℕ)
    (hKey : ∀ m < n, vpn / 512 ^ (m + 1) % 512 < levelLimit (m + 2)) :
    ∀ {s : Vmm} {role : Roles} {t : ℕ}, Inv s role base loose →
      role t = some ⟨sp, n + 1, vpn / 512 ^ (n + 1)⟩ →
      ∃ s' role', Inv s' role' base loose ∧ Grown s role s' role' ∧ s.pmm.gFree ≤ s'.pmm.gFree + n ∧
        ((walkFrom va true flags n t s = (none, s') ∧ s.pmm.gFree < n) ∨
          ∃ u, walkFrom va true flags n t s = (some (u, vpn % 512), s') ∧
            role' u = some ⟨sp, 1, vpn / 512⟩) := by
  induction n with
  | zero =>
    intro s role t h ht
    refine ⟨s, role, h, .refl s role, le_refl _, .inr ⟨t, ?_, ?_⟩⟩
    · rw [Vmm.walkFrom, pteIndex_eq va 0, hva, Nat.pow_zero, Nat.div_one]
    · rwa [zero_add, pow_one] at ht
  | succ n ih =>
    intro s role t h ht
    have hDigit := hKey n (lt_succ_self n)
    have hPre := digit_join vpn n
    rw [Vmm.walkFrom, pteIndex_eq va (n + 1), hva]
    generalize vpn / 512 ^ (n + 1) % 512 = i at hDigit hPre ⊢
    rcases h.openEntry ht (succ_pos n) hDigit with
      ⟨hOpen, hEmpty⟩ | ⟨s1, role1, hOpen, h1, hGrown1, hp1, hFree1⟩
    · exact ⟨s, role, h, .refl s role, by omega, .inl ⟨by rw [hOpen], by omega⟩⟩
    · have ht1 := hGrown1.roles t _ ht
      -- The entry is made to permit what the leaf needs.
      obtain ⟨h2, hGrown2⟩ := h1.setInner (e := permit flags (s1.tables t i)) ht1 (succ_pos n)
        hDigit rfl rfl rfl
      have hEntry : (s1.setEntry t i (permit flags (s1.tables t i))).tables t i =
          permit flags (s1.tables t i) := by
        rw [Typed.tables_setEntry, if_pos ⟨rfl, rfl⟩]
      have hChild : (s1.setEntry t i (permit flags (s1.tables t i))).child t i =
          some (s1.tables t i).frame := by
        rw [child, hEntry]
        exact if_pos hp1
      have hc := h2.typed.forest.down t sp (n + 1) _ i _ ht1 (succ_pos n) hDigit hChild
      rw [hPre] at hc
      have hSmall := h2.typed.small t i ⟨sp, n + 1, _, ht1, succ_pos n, hDigit⟩
      obtain ⟨s3, role3, h3, hGrown3, hFree3, hEnd⟩ :=
        ih (fun m hm => hKey m (lt_succ_of_lt hm)) h2 hc
      have hPmm : (s1.setEntry t i (permit flags (s1.tables t i))).pmm = s1.pmm := rfl
      rw [hPmm] at hFree3 hEnd
      refine ⟨s3, role3, h3, (hGrown1.trans hGrown2).trans hGrown3, by omega, ?_⟩
      simp only [hOpen, if_true, Inv.splitLarge_small hSmall, hEntry]
      exact hEnd.imp_left fun hFail => ⟨hFail.1, by omega⟩

/-- `walk` for a page of the user half: it runs out of frames, or finds or makes the leaf table. -/
theorem Inv.walk {s : Vmm} {role : Roles} {base : Set ℕ} {loose : ℕ → ℕ} {sp va : ℕ}
    (h : Inv s role base loose) (hsp : s.gUsed sp) (hva : va < userLimit) (flags : VmFlags) :
    ∃ s' role', Inv s' role' base loose ∧ Grown s role s' role' ∧ s.pmm.gFree ≤ s'.pmm.gFree + 3 ∧
      ((s.walk sp va true flags = (none, s') ∧ s.pmm.gFree < 3) ∨
        ∃ t, s.walk sp va true flags = (some (t, va / pageSize % 512), s') ∧
          role' t = some ⟨sp, 1, va / pageSize / 512⟩) := by
  have hv := userPage_lt hva
  have hRoot := h.typed.root hsp
  rw [← userPages_div hv] at hRoot
  exact Inv.walkFrom flags rfl 3 (digit_lt hv) h hRoot

end Gnos.Vmm
