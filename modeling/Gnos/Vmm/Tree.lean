import Gnos.Vmm.Refs
import Gnos.Vmm.Spaces
import Gnos.ProofKit.Radix

/-! The page tables of all address spaces as a forest of radix trees, and the map from user pages to
leaf entries that they stand for. -/

namespace Gnos.Vmm

open ProofKit

def userPages : ℕ := 2 ^ 35

def child (s : Vmm) (t i : ℕ) : Option ℕ :=
  if (s.tables t i).p then some (s.tables t i).frame else none

def rootOf (s : Vmm) (sp : ℕ) : Option ℕ := if s.gUsed sp then some (s.gSpaces sp).pml4 else none

def leafTable (s : Vmm) (sp vpn : ℕ) : Option ℕ :=
  (s.rootOf sp).bind (descend 512 s.child vpn 3)

/-- The leaf entry of page `x.2` of address space `x.1`, or an empty one. -/
def leaves (s : Vmm) (x : ℕ × ℕ) : Pte :=
  if x.2 < userPages then
    match s.leafTable x.1 x.2 with
    | some t => s.tables t (x.2 % 512)
    | none => {}
  else {}

abbrev Roles := ℕ → Option (Role ℕ)

theorem ne_of_role {role : Roles} {t u : ℕ} {r : Role ℕ} (ht : role t = some r)
    (hu : role u = none) : t ≠ u := by
  rintro rfl
  rw [hu] at ht
  cases ht

/-- Every table of the user halves has one place in one address space, and no entry above the leaves
is a large page. -/
structure Typed (s : Vmm) (role : Roles) : Prop where
  forest : Forest 512 4 levelLimit s.rootOf s.child role
  small : ∀ t i, Forest.Inner levelLimit role t i → (s.tables t i).ps = false

theorem pteIndex_eq (va n : ℕ) : pteIndex va (n + 1) = va / pageSize / 512 ^ n % 512 := by
  unfold pteIndex pageSize
  rw [Nat.div_div_eq_div_mul, Nat.add_sub_cancel, Nat.pow_add, Nat.pow_mul]

theorem levelLimit_le (l : ℕ) : levelLimit l ≤ 512 := by
  unfold levelLimit
  split <;> decide

theorem digit_lt {vpn : ℕ} (h : vpn < userPages) (m : ℕ) (hm : m < 3) :
    vpn / 512 ^ (m + 1) % 512 < levelLimit (m + 2) := by
  by_cases hTop : m = 2
  · subst hTop
    have hDiv : vpn / 512 ^ 3 < 256 := by
      apply Nat.div_lt_of_lt_mul
      unfold userPages at h
      omega
    show vpn / 512 ^ 3 % 512 < 256
    omega
  · rw [levelLimit, if_neg (by omega)]
    exact Nat.mod_lt _ (by decide)

theorem userPages_div {vpn : ℕ} (h : vpn < userPages) : vpn / 512 ^ 4 = 0 := by
  apply Nat.div_eq_of_lt
  unfold userPages at h
  omega

namespace Typed

variable {s s' : Vmm} {role : Roles} {sp vpn t i : ℕ}

theorem root (h : Typed s role) (hsp : s.gUsed sp) :
    role (s.gSpaces sp).pml4 = some ⟨sp, 4, 0⟩ := by
  apply h.forest.roots
  rw [rootOf, if_pos hsp]

section

variable (h : Typed s role) (hv : vpn < userPages)
include h hv

theorem leafTable_eq_some : s.leafTable sp vpn = some t ↔ role t = some ⟨sp, 1, vpn / 512⟩ := by
  unfold leafTable
  cases hRoot : s.rootOf sp with
  | some r =>
    have hr := h.forest.roots sp r hRoot
    apply h.forest.descend_eq
    · rw [userPages_div hv]
      exact hr
    · exact digit_lt hv
  | none =>
    simp only [Option.bind_none, reduceCtorEq, false_iff]
    intro ht
    obtain ⟨r, hr⟩ := h.forest.ancestor ht 3 (by decide)
    rcases h.forest.up r sp 4 _ hr with ⟨-, -, hRoot'⟩ | ⟨-, hLt, -⟩
    · rw [hRoot] at hRoot'
      cases hRoot'
    · omega

theorem leafTable_eq_none : s.leafTable sp vpn = none ↔ ∀ t, role t ≠ some ⟨sp, 1, vpn / 512⟩ := by
  rw [Option.eq_none_iff_forall_ne_some]
  refine forall_congr' fun t => ?_
  rw [ne_eq, h.leafTable_eq_some hv]

theorem leaves_eq (ht : role t = some ⟨sp, 1, vpn / 512⟩) :
    s.leaves (sp, vpn) = s.tables t (vpn % 512) := by
  unfold leaves
  rw [if_pos hv, (h.leafTable_eq_some hv).mpr ht]

end

theorem leaves_outside (hv : ¬vpn < userPages) : s.leaves (sp, vpn) = {} := if_neg hv

theorem tables_setEntry (s : Vmm) (t i u j : ℕ) (e : Pte) :
    (s.setEntry t i e).tables u j = if u = t ∧ j = i then e else s.tables u j := by
  unfold setEntry
  rcases eq_or_ne u t with rfl | hut
  · rcases eq_or_ne j i with rfl | hji
    · simp
    · simp [hji]
  · simp [hut]

theorem not_inner {p j : ℕ} (ht : role t = some ⟨sp, 1, p⟩) :
    ¬Forest.Inner levelLimit role t j := by
  rintro ⟨r, l, q, hr, hl, -⟩
  rw [ht, Option.some.injEq, Role.mk.injEq] at hr
  omega

section

variable (h : Typed s role)
include h

theorem leaves_eq_empty (hNone : ∀ t, role t ≠ some ⟨sp, 1, vpn / 512⟩) :
    s.leaves (sp, vpn) = {} := by
  unfold leaves
  split_ifs with hv
  · rw [(h.leafTable_eq_none hv).mpr hNone]
  · rfl

theorem congr (hRoot : s'.rootOf = s.rootOf)
    (hChild : ∀ t i, Forest.Inner levelLimit role t i → s'.child t i = s.child t i)
    (hSmall : ∀ t i, Forest.Inner levelLimit role t i → (s'.tables t i).ps = (s.tables t i).ps) :
    Typed s' role := by
  refine ⟨?_, ?_⟩
  · rw [hRoot]
    exact h.forest.congr hChild
  · intro t i hInner
    rw [hSmall t i hInner]
    exact h.small t i hInner

theorem leaves_congr (h' : Typed s' role)
    (hEq : ∀ t sp p i, role t = some ⟨sp, 1, p⟩ → i < 512 → s'.tables t i = s.tables t i) :
    s'.leaves = s.leaves := by
  funext ⟨sp, vpn⟩
  by_cases hv : vpn < userPages
  · by_cases hRole : ∃ t, role t = some ⟨sp, 1, vpn / 512⟩
    · obtain ⟨t, ht⟩ := hRole
      rw [h.leaves_eq hv ht, h'.leaves_eq hv ht]
      exact hEq t sp _ _ ht (Nat.mod_lt _ (by decide))
    · rw [not_exists] at hRole
      rw [h.leaves_eq_empty hRole, h'.leaves_eq_empty hRole]
  · rw [leaves_outside hv, leaves_outside hv]

theorem leaves_grow {role' : Roles} (h' : Typed s' role')
    (hOld : ∀ t r, role t = some r → role' t = some r)
    (hNew : ∀ t sp p i, role' t = some ⟨sp, 1, p⟩ → i < 512 →
      role t = some ⟨sp, 1, p⟩ ∧ s'.tables t i = s.tables t i ∨ s'.tables t i = {} ∧
      role t = none) :
    s'.leaves = s.leaves := by
  funext ⟨sp, vpn⟩
  by_cases hv : vpn < userPages
  · by_cases hRole : ∃ t, role' t = some ⟨sp, 1, vpn / 512⟩
    · obtain ⟨t, ht⟩ := hRole
      rw [h'.leaves_eq hv ht]
      rcases hNew t sp _ _ ht (Nat.mod_lt vpn (by decide)) with ⟨ht', hEq⟩ | ⟨hEmpty, hNone⟩
      · rw [h.leaves_eq hv ht', hEq]
      · rw [hEmpty, h.leaves_eq_empty]
        intro u hu
        rw [h'.forest.unique ht (hOld u _ hu), hu] at hNone
        cases hNone
    · rw [not_exists] at hRole
      rw [h'.leaves_eq_empty hRole, h.leaves_eq_empty fun t ht => hRole t (hOld t _ ht)]
  · rw [leaves_outside hv, leaves_outside hv]

theorem setLeaf {p : ℕ} (ht : role t = some ⟨sp, 1, p⟩) (e : Pte) :
    Typed (s.setEntry t i e) role := by
  have hEq : ∀ u j, Forest.Inner levelLimit role u j →
      (s.setEntry t i e).tables u j = s.tables u j := by
    intro u j hInner
    rw [tables_setEntry, if_neg]
    rintro ⟨rfl, -⟩
    exact not_inner ht hInner
  refine h.congr (show (s.setEntry t i e).rootOf = s.rootOf from rfl) ?_ ?_
  · intro u j hInner
    rw [child, child, hEq u j hInner]
  · intro u j hInner
    rw [hEq u j hInner]

theorem leaves_setLeaf (hv : vpn < userPages) (ht : role t = some ⟨sp, 1, vpn / 512⟩) (e : Pte) :
    (s.setEntry t (vpn % 512) e).leaves = Function.update s.leaves (sp, vpn) e := by
  have h' : Typed (s.setEntry t (vpn % 512) e) role := h.setLeaf ht e
  funext ⟨sp', vpn'⟩
  rcases eq_or_ne (sp', vpn') (sp, vpn) with hEq | hne
  · obtain ⟨rfl, rfl⟩ := Prod.mk.inj hEq
    rw [h'.leaves_eq hv ht, tables_setEntry, if_pos ⟨rfl, rfl⟩, Function.update_self]
  · rw [Function.update_of_ne hne]
    by_cases hv' : vpn' < userPages
    · by_cases hRole : ∃ u, role u = some ⟨sp', 1, vpn' / 512⟩
      · obtain ⟨u, hu⟩ := hRole
        rw [h.leaves_eq hv' hu, h'.leaves_eq hv' hu, tables_setEntry, if_neg]
        rintro ⟨rfl, hMod⟩
        rw [ht, Option.some.injEq, Role.mk.injEq] at hu
        apply hne
        rw [Prod.mk.injEq]
        omega
      · rw [not_exists] at hRole
        rw [h.leaves_eq_empty hRole, h'.leaves_eq_empty hRole]
    · rw [leaves_outside hv', leaves_outside hv']

theorem setInner {e : Pte} (hp : e.p = (s.tables t i).p) (hFrame : e.frame = (s.tables t i).frame)
    (hps : e.ps = (s.tables t i).ps) : Typed (s.setEntry t i e) role := by
  refine h.congr (show (s.setEntry t i e).rootOf = s.rootOf from rfl) ?_ ?_
  · intro u j _
    rw [child, child, tables_setEntry]
    split
    · rename_i hEq
      rw [hEq.1, hEq.2, hp, hFrame]
    · rfl
  · intro u j _
    rw [tables_setEntry]
    split_ifs with hEq
    · rw [hEq.1, hEq.2, hps]
    · rfl

end

end Typed

structure SameTree (s s' : Vmm) : Prop where
  tables : s'.tables = s.tables
  used : s'.gUsed = s.gUsed
  pml4 : ∀ sp, (s'.gSpaces sp).pml4 = (s.gSpaces sp).pml4

namespace SameTree

variable {s s' : Vmm} {role : Roles}

section

variable (h : SameTree s s')
include h

theorem rootOf : s'.rootOf = s.rootOf := by
  funext sp
  rw [Vmm.rootOf, Vmm.rootOf, h.used, h.pml4]

theorem child : s'.child = s.child := by
  funext t i
  rw [Vmm.child, Vmm.child, h.tables]

theorem leaves : s'.leaves = s.leaves := by
  funext x
  rw [Vmm.leaves, Vmm.leaves, leafTable, leafTable, h.rootOf, h.child, h.tables]

theorem typed (hTyped : Typed s role) : Typed s' role := by
  refine ⟨?_, ?_⟩
  · rw [h.rootOf, h.child]
    exact hTyped.forest
  · rw [h.tables]
    exact hTyped.small

end

theorem of_refFrame (h : RefFrame s s') : SameTree s s' := by
  rw [h.rest]
  exact ⟨rfl, rfl, fun _ => rfl⟩

end SameTree

end Gnos.Vmm
