import Mathlib

/-! Treaps: search trees by a strict order on their items, kept in shape by a priority of each item.
What a treap holds is its in-order list; the priorities decide the shape only, which is that of a
heap. -/

namespace Gnos.ProofKit

open List List.Pairwise

inductive Treap (α : Type*) where
  | nil
  | node (left : Treap α) (item : α) (right : Treap α)

namespace Treap

variable {α : Type*}

def toList : Treap α → List α
  | nil => []
  | node l a r => l.toList ++ a :: r.toList

def leftmost : Treap α → Option α
  | nil => none
  | node nil a _ => some a
  | node (node l b r) _ _ => leftmost (node l b r)

section Operations

variable (prio : α → ℕ)

/-- Hangs a tree with root `a` and the subtrees `l` and `r` over a tree of later items; `rest`
merges `r` with such a tree. -/
def graft (l : Treap α) (a : α) (r : Treap α) (rest : Treap α → Treap α) : Treap α → Treap α
  | nil => node l a r
  | node l' b r' =>
    if prio b < prio a then node l a (rest (node l' b r')) else node (graft l a r rest l') b r'

def merge : Treap α → Treap α → Treap α
  | nil, t => t
  | node l a r, t => graft prio l a r (merge r) t

/-- Puts `a` over the left subtree, or turns the tree to the right when the subtree's root has the
higher priority. -/
def rotateRight (a : α) (r : Treap α) : Treap α → Treap α
  | node ll b lr => if prio a < prio b then node ll b (node lr a r) else node (node ll b lr) a r
  | nil => node nil a r

def rotateLeft (l : Treap α) (a : α) : Treap α → Treap α
  | node rl b rr => if prio a < prio b then node (node l a rl) b rr else node l a (node rl b rr)
  | nil => node l a nil

variable (before : α → α → Bool)

def insert (p : α) : Treap α → Treap α
  | nil => node nil p nil
  | node l a r =>
    if before p a then rotateRight prio a r (insert p l) else rotateLeft prio l a (insert p r)

variable [DecidableEq α]

def delete (p : α) : Treap α → Treap α
  | nil => nil
  | node l a r =>
    if a = p then merge prio l r
    else if before p a then node (delete p l) a r
    else node l a (delete p r)

end Operations

variable {prio : α → ℕ} {before : α → α → Bool} {p : α} {t : Treap α}
  {rest : Treap α → Treap α} {x : α}

@[simp] theorem toList_nil : (nil : Treap α).toList = [] := rfl

@[simp] theorem toList_node (l : Treap α) (a : α) (r : Treap α) :
    (node l a r).toList = l.toList ++ a :: r.toList := rfl

theorem leftmost_eq_head? (t : Treap α) : t.leftmost = t.toList.head? := by
  induction t with
  | nil => rfl
  | node l a r ihl _ =>
    cases l with
    | nil => rfl
    | node l' b r' =>
      rw [leftmost, ihl]
      simp

theorem toList_graft {l r : Treap α} {a : α}
    (hRest : ∀ t, (rest t).toList = r.toList ++ t.toList) (t : Treap α) :
    (graft prio l a r rest t).toList = l.toList ++ a :: r.toList ++ t.toList := by
  induction t with
  | nil => simp [graft]
  | node l' b r' ihl _ =>
    rw [graft]
    split
    · simp [hRest]
    · simp [ihl]

@[simp] theorem toList_merge (s t : Treap α) : (merge prio s t).toList = s.toList ++ t.toList := by
  induction s generalizing t with
  | nil => rfl
  | node l a r _ ihr => exact toList_graft ihr t

@[simp] theorem toList_rotateRight (a : α) (r l : Treap α) :
    (rotateRight prio a r l).toList = l.toList ++ a :: r.toList := by
  cases l with
  | nil => rfl
  | node ll b lr =>
    rw [rotateRight]
    split <;> simp

@[simp] theorem toList_rotateLeft (l : Treap α) (a : α) (r : Treap α) :
    (rotateLeft prio l a r).toList = l.toList ++ a :: r.toList := by
  cases r with
  | nil => rfl
  | node rl b rr =>
    rw [rotateLeft]
    split <;> simp

theorem insert_split (p : α) (t : Treap α) : ∃ xs ys, t.toList = xs ++ ys ∧
    (insert prio before p t).toList = xs ++ p :: ys := by
  induction t with
  | nil => exact ⟨[], [], rfl, rfl⟩
  | node l a r ihl ihr =>
    rw [insert]
    split
    · obtain ⟨xs, ys, hList, hNew⟩ := ihl
      exact ⟨xs, ys ++ a :: r.toList, by simp [hList], by simp [hNew]⟩
    · obtain ⟨xs, ys, hList, hNew⟩ := ihr
      exact ⟨l.toList ++ a :: xs, ys, by simp [hList], by simp [hNew]⟩

theorem perm_insert (p : α) (t : Treap α) :
    (insert prio before p t).toList.Perm (p :: t.toList) := by
  obtain ⟨xs, ys, hList, hNew⟩ : ∃ xs ys, t.toList = xs ++ ys ∧
      (insert prio before p t).toList = xs ++ p :: ys := insert_split p t
  rw [hList, hNew]
  exact perm_middle

theorem mem_insert : x ∈ (insert prio before p t).toList ↔ x = p ∨ x ∈ t.toList := by
  rw [(perm_insert p t).mem_iff, mem_cons]

def Sorted (before : α → α → Bool) (t : Treap α) : Prop := t.toList.Pairwise fun a b => before a b

theorem sorted_node {l r : Treap α} {a : α} : Sorted before (node l a r) ↔
    Sorted before l ∧ Sorted before r ∧ (∀ x ∈ l.toList, before x a) ∧
    (∀ y ∈ r.toList, before a y) ∧
      ∀ x ∈ l.toList, ∀ y ∈ r.toList, before x y := by
  simp only [Sorted, toList_node, pairwise_append, pairwise_cons, mem_cons]
  constructor
  · rintro ⟨hl, ⟨ha, hr⟩, hx⟩
    exact ⟨hl, hr, fun x hxl => hx x hxl a (.inl rfl), ha, fun x hxl y hy => hx x hxl y (.inr hy)⟩
  · rintro ⟨hl, hr, hxa, ha, hx⟩
    refine ⟨hl, ⟨ha, hr⟩, fun x hxl y hy => ?_⟩
    rcases hy with rfl | hy
    · exact hxa x hxl
    · exact hx x hxl y hy

section Order

variable (hTrans : ∀ a b c, before a b → before b c → before a c)
include hTrans

theorem Sorted.insert (h : Sorted before t) (hTotal : ∀ a ∈ t.toList, before p a ∨ before a p) :
    Sorted before (insert prio before p t) := by
  induction t with
  | nil => simp [Sorted, Treap.insert]
  | node l a r ihl ihr =>
    obtain ⟨hl, hr, hla, har, hlr⟩ := sorted_node.mp h
    have hTotalL : ∀ x ∈ l.toList, before p x ∨ before x p := fun x hx => hTotal x (by simp [hx])
    have hTotalR : ∀ x ∈ r.toList, before p x ∨ before x p := fun x hx => hTotal x (by simp [hx])
    rw [Treap.insert]
    split
    · rename_i hBefore
      -- `p` comes before the root, and so before everything to its right
      have hSorted : Sorted before (node (Treap.insert prio before p l) a r) := by
        refine sorted_node.mpr ⟨ihl hl hTotalL, hr, fun x hx => ?_, har, fun x hx y hy => ?_⟩
        · rcases mem_insert.mp hx with rfl | hx
          · exact hBefore
          · exact hla x hx
        · rcases mem_insert.mp hx with rfl | hx
          · exact hTrans _ _ _ hBefore (har y hy)
          · exact hlr x hx y hy
      simpa only [Sorted, toList_rotateRight, toList_node] using hSorted
    · rename_i hAfter
      have hAfter : before a p := (hTotal a (by simp)).resolve_left hAfter
      have hSorted : Sorted before (node l a (Treap.insert prio before p r)) := by
        refine sorted_node.mpr ⟨hl, ihr hr hTotalR, hla, fun y hy => ?_, fun x hx y hy => ?_⟩
        · rcases mem_insert.mp hy with rfl | hy
          · exact hAfter
          · exact har y hy
        · rcases mem_insert.mp hy with rfl | hy
          · exact hTrans _ _ _ (hla x hx) hAfter
          · exact hlr x hx y hy
      simpa only [Sorted, toList_rotateLeft, toList_node] using hSorted

end Order

theorem Sorted.nodup (hIrrefl : ∀ a, before a a = false) (h : Sorted before t) : t.toList.Nodup :=
  imp (fun {a b} hab hEq => by
    rw [hEq, hIrrefl] at hab
    exact absurd hab (by decide)) h

section Irreflexive

variable [DecidableEq α] (hIrrefl : ∀ a, before a a = false)
  (hAsymm : ∀ a b, before a b → before b a = false)
include hIrrefl hAsymm

section

variable (h : Sorted before t) (hp : p ∈ t.toList)
include h hp

theorem toList_delete : (delete prio before p t).toList = t.toList.erase p := by
  induction t with
  | nil => exact absurd hp not_mem_nil
  | node l a r ihl ihr =>
    obtain ⟨hl, hr, hla, har, hlr⟩ := sorted_node.mp h
    rw [delete]
    by_cases hRoot : a = p
    · have hLeft : p ∉ l.toList := fun hpl => by
        have := hla p hpl
        rw [hRoot, hIrrefl] at this
        exact absurd this (by decide)
      rw [if_pos hRoot, toList_merge, toList_node, erase_append_right _ hLeft, hRoot,
        erase_cons_head]
    · rw [if_neg hRoot]
      have hSide : p ∈ l.toList ∨ p ∈ r.toList := by
        rcases mem_append.mp hp with hpl | hpr
        · exact .inl hpl
        · exact .inr ((mem_cons.mp hpr).resolve_left (Ne.symm hRoot))
      by_cases hBefore : before p a
      · have hpl : p ∈ l.toList := hSide.resolve_right fun hpr => by
          have := hAsymm _ _ (har p hpr)
          rw [hBefore] at this
          exact absurd this (by decide)
        rw [if_pos hBefore, toList_node, ihl hl hpl, toList_node, erase_append_left _ hpl]
      · have hpr : p ∈ r.toList := hSide.resolve_left fun hpl => hBefore (hla p hpl)
        have hpl : p ∉ l.toList := fun hpl => hBefore (hla p hpl)
        rw [if_neg hBefore, toList_node, ihr hr hpr, toList_node, erase_append_right _ hpl,
          erase_cons_tail (by simpa using hRoot)]

theorem mem_delete : x ∈ (delete prio before p t).toList ↔ x ≠ p ∧ x ∈ t.toList := by
  rw [toList_delete hIrrefl hAsymm h hp, (h.nodup hIrrefl).mem_erase_iff]

theorem Sorted.delete : Sorted before (delete prio before p t) := by
  rw [Sorted, toList_delete hIrrefl hAsymm h hp]
  exact sublist erase_sublist h

end

end Irreflexive

theorem Sorted.congr {before' : α → α → Bool} (h : Sorted before t)
    (hSame : ∀ a ∈ t.toList, ∀ b ∈ t.toList, before' a b = before a b) : Sorted before' t :=
  imp_of_mem (fun ha hb hab => (hSame _ ha _ hb).trans hab) h

/-- No item is under one of a lower priority. -/
def Heaped (prio : α → ℕ) : Treap α → Prop
  | nil => True
  | node l a r => Heaped prio l ∧ Heaped prio r ∧ ∀ x ∈ l.toList ++ r.toList, prio x ≤ prio a

section Heaped

variable {l r : Treap α} {a b : α} {xs : List α}

theorem Heaped.congr {prio' : α → ℕ} (h : Heaped prio t)
    (hSame : ∀ x ∈ t.toList, prio' x = prio x) : Heaped prio' t := by
  induction t with
  | nil => trivial
  | node l a r ihl ihr => grind [Heaped, toList_node]

/-- In a subtree that `p` came into, under the item `a`, the root is over `a` only if it is `p`. -/
theorem Heaped.under (h : Heaped prio (node l b r)) (hPerm : (node l b r).toList.Perm (p :: xs))
    (hxs : ∀ x ∈ xs, prio x ≤ prio a) : ∀ x ∈ l.toList ++ r.toList, prio x ≤ prio a := by
  intro x hx
  by_cases hb : prio a < prio b
  · have hbp : b = p := (mem_cons.mp (hPerm.mem_iff.mp (by simp))).resolve_right fun hMem =>
      Nat.not_le.mpr hb (hxs b hMem)
    rw [← hbp] at hPerm
    exact hxs x (((perm_middle.symm.trans hPerm).cons_inv.mem_iff).mp hx)
  · exact Nat.le_trans (h.2.2 x hx) (Nat.le_of_not_lt hb)

theorem Heaped.graft (h : Heaped prio (node l a r))
    (hList : ∀ t, (rest t).toList = r.toList ++ t.toList)
    (hRest : ∀ {t}, Heaped prio t → Heaped prio (rest t)) (ht : Heaped prio t) :
    Heaped prio (graft prio l a r rest t) := by
  induction t with
  | nil => exact h
  | node l' b r' ihl _ =>
    have hLeft : (Treap.graft prio l a r rest l').toList = _ := toList_graft hList l'
    rw [Treap.graft]
    split_ifs <;> grind [Heaped, toList_node]

section

variable (hl : Heaped prio l) (hr : Heaped prio r)
include hl hr

theorem Heaped.rotateRight (ha : ∀ x ∈ xs ++ r.toList, prio x ≤ prio a)
    (hPerm : l.toList.Perm (p :: xs)) : Heaped prio (rotateRight prio a r l) := by
  cases l with
  | nil => simp at hPerm
  | node ll b lr =>
    have hUnder := hl.under hPerm fun x hx => ha x (mem_append_left _ hx)
    rw [rotateRight]
    split_ifs <;> grind [Heaped, toList_node]

theorem Heaped.rotateLeft (ha : ∀ x ∈ l.toList ++ xs, prio x ≤ prio a)
    (hPerm : r.toList.Perm (p :: xs)) : Heaped prio (rotateLeft prio l a r) := by
  cases r with
  | nil => simp at hPerm
  | node rl b rr =>
    have hUnder := hr.under hPerm fun x hx => ha x (mem_append_right _ hx)
    rw [rotateLeft]
    split_ifs <;> grind [Heaped, toList_node]

theorem Heaped.merge : Heaped prio (merge prio l r) := by
  induction l generalizing r with
  | nil => exact hr
  | node ll a lr _ ih => exact hl.graft (toList_merge lr) (ih hl.2.1) hr

end

theorem Heaped.insert (h : Heaped prio t) : Heaped prio (insert prio before p t) := by
  induction t with
  | nil => simp [Heaped, Treap.insert]
  | node l a r ihl ihr =>
    obtain ⟨hl, hr, ha⟩ := h
    rw [Treap.insert]
    split
    · exact (ihl hl).rotateRight hr ha (perm_insert p l)
    · exact hl.rotateLeft (ihr hr) ha (perm_insert p r)

variable [DecidableEq α]

theorem mem_of_mem_delete (hx : x ∈ (delete prio before p t).toList) : x ∈ t.toList := by
  induction t with
  | nil => exact hx
  | node l a r ihl ihr => grind [delete, toList_node, toList_merge]

theorem Heaped.delete (h : Heaped prio t) : Heaped prio (delete prio before p t) := by
  induction t with
  | nil => trivial
  | node l a r ihl ihr => grind [delete, Heaped, Heaped.merge, mem_of_mem_delete]

end Heaped

end Treap

end Gnos.ProofKit
