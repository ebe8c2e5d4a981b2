import Mathlib

/-! Linked lists through partial successor and predecessor functions.  `Linked next l` says that
`next` runs through `l` and stops at its end; `DLinked next prev l` adds that `prev` runs back. -/

namespace Gnos.ProofKit

open Function List

variable {α : Type*} {next next' prev prev' : α → Option α} {l : List α} {x : α} {a b : List α}

/-- `next` maps every element of `l` to the one after it, and the last one to nothing. -/
def Linked (next : α → Option α) (l : List α) : Prop :=
  ∀ a x b, l = a ++ x :: b → next x = b.head?

/-- `Linked`, and `prev` maps every element of `l` to the one before it. -/
def DLinked (next prev : α → Option α) (l : List α) : Prop :=
  ∀ a x b, l = a ++ x :: b → prev x = a.getLast? ∧ next x = b.head?

/-- The way back is a list linked the other way round. -/
theorem dlinked_iff : DLinked next prev l ↔ Linked next l ∧ Linked prev l.reverse := by
  refine ⟨fun h => ⟨fun a x b hl => (h a x b hl).2, fun a x b hl => ?_⟩,
    fun h a x b hl => ⟨?_, h.1 a x b hl⟩⟩
  · rw [(h b.reverse x a.reverse (by simpa using congrArg reverse hl)).1, getLast?_reverse]
  · rw [h.2 b.reverse x a.reverse (by simp [hl]), head?_reverse]

theorem DLinked.linked (h : DLinked next prev l) : Linked next l :=
  fun a x b hl => (h a x b hl).2

theorem linked_nil (next : α → Option α) : Linked next [] := fun a x b h => by
  simp at h

theorem dlinked_nil (next prev : α → Option α) : DLinked next prev [] := fun a x b h => by
  simp at h

theorem Linked.congr (h : Linked next l) (hn : ∀ x ∈ l, next' x = next x) : Linked next' l := by
  intro a x b hl
  rw [hn x (by simp [hl])]
  exact h a x b hl

theorem DLinked.congr (h : DLinked next prev l) (hn : ∀ x ∈ l, next' x = next x)
    (hp : ∀ x ∈ l, prev' x = prev x) : DLinked next' prev' l := by
  intro a x b hl
  rw [hn x (by simp [hl]), hp x (by simp [hl])]
  exact h a x b hl

theorem Linked.tail (h : Linked next (x :: l)) : Linked next l :=
  fun a y b hl => h (x :: a) y b (by simp [hl])

theorem Linked.head (h : Linked next (x :: l)) : next x = l.head? :=
  h [] x l rfl

theorem Linked.cons (h : Linked next l) (hx : next x = l.head?) : Linked next (x :: l) := by
  intro a y b hl
  cases a with
  | nil =>
    obtain ⟨rfl, rfl⟩ := cons.inj hl
    exact hx
  | cons z a => exact h a y b (cons.inj hl).2

theorem dlinked_singleton (hn : next x = none) (hp : prev x = none) : DLinked next prev [x] :=
  dlinked_iff.mpr ⟨(linked_nil next).cons hn, (linked_nil prev).cons hp⟩

/-- The elements from `o` on, at most `fuel` of them. -/
def walk (next : α → Option α) : ℕ → Option α → List α
  | 0, _ => []
  | _ + 1, none => []
  | fuel + 1, some x => x :: walk next fuel (next x)

theorem Linked.walk_eq (h : Linked next l) {fuel : ℕ} (hFuel : l.length ≤ fuel) :
    walk next fuel l.head? = l := by
  induction l generalizing fuel with
  | nil => cases fuel <;> rfl
  | cons x l ih =>
    cases fuel with
    | zero => simp at hFuel
    | succ fuel => rw [head?_cons, walk, h.head, ih h.tail (by simpa using hFuel)]

theorem getLast?_ne_of_notMem (h : x ∉ l) : l.getLast? ≠ some x := fun hx =>
  h (mem_of_getLast? hx)

/-- The element before `x` is the first whose successor is `x`. -/
theorem Linked.find_before [DecidableEq α] {r : α}
    (h : Linked next (a ++ r :: x :: b)) (hl : (a ++ r :: x :: b).Nodup) :
    (a ++ r :: x :: b).find? (fun y => next y = some x) = some r := by
  induction a with
  | nil => exact find?_cons_of_pos (decide_eq_true h.head)
  | cons y a ih =>
    have hTail := (nodup_cons.mp hl).2
    have hy : next y ≠ some x := by
      rw [h.head]
      cases a with
      | nil => exact fun hEq => (nodup_cons.mp hTail).1 (by simp [Option.some.inj hEq])
      | cons z a => exact fun hEq => (nodup_cons.mp hTail).1 (by simp [Option.some.inj hEq])
    rw [cons_append, find?_cons_of_neg (by simpa using hy), ih h.tail hTail]

section Edits

variable [DecidableEq α]

/-- `f` with the value at `o` replaced by `v`, when there is an element `o`. -/
def updateAt (f : α → Option α) (o : Option α) (v : Option α) : α → Option α :=
  match o with
  | some y => Function.update f y v
  | none => f

theorem updateAt_of_ne {f : α → Option α} {o v : Option α} {y : α} (h : o ≠ some y) :
    updateAt f o v y = f y := by
  cases o with
  | none => rfl
  | some z => exact update_of_ne (fun hEq => h (by rw [hEq])) _ _

@[simp] theorem updateAt_some (f : α → Option α) (y : α) (v : Option α) :
    updateAt f (some y) v y = v := by simp [updateAt]

@[simp] theorem updateAt_none (f : α → Option α) (v : Option α) : updateAt f none v = f := rfl

theorem updateAt_congr {f g : α → Option α} {y : α} (h : f y = g y) (o v : Option α) :
    updateAt f o v y = updateAt g o v y := by
  by_cases ho : o = some y
  · rw [ho, updateAt_some, updateAt_some]
  · rw [updateAt_of_ne ho, updateAt_of_ne ho, h]

theorem Linked.pushFront (h : Linked next l) (hx : x ∉ l) :
    Linked (update next x l.head?) (x :: l) :=
  (h.congr fun _ hy => update_of_ne (ne_of_mem_of_not_mem hy hx) _ _).cons (update_self ..)

theorem Linked.unlink {a c : List α} {r : α} (h : Linked next (a ++ r :: x :: c))
    (hl : (a ++ r :: x :: c).Nodup) : Linked (update next r c.head?) (a ++ r :: c) := by
  induction a with
  | nil =>
    have hr : r ∉ c := fun hMem => (nodup_cons.mp hl).1 (mem_cons_of_mem x hMem)
    exact h.tail.tail.pushFront hr
  | cons y a ih =>
    obtain ⟨hy, hl⟩ := nodup_cons.mp hl
    refine (ih h.tail hl).cons ?_
    rw [update_of_ne (fun hEq => hy (by simp [hEq])), h.head]
    cases a <;> rfl

theorem Linked.pushBack (h : Linked next l) (hl : l.Nodup) (hx : x ∉ l) :
    Linked (updateAt (update next x none) l.getLast? (some x)) (l ++ [x]) := by
  induction l with
  | nil => exact (linked_nil _).cons (update_self ..)
  | cons y l ih =>
    obtain ⟨hy, hl⟩ := nodup_cons.mp hl
    have hyx : y ≠ x := fun hEq => hx (by simp [hEq])
    have hEnd := ih h.tail hl fun hMem => hx (mem_cons_of_mem y hMem)
    cases l with
    | nil =>
      refine ((linked_nil _).cons ?_).cons (updateAt_some ..)
      rw [getLast?_singleton, updateAt_of_ne (hyx ∘ Option.some.inj), update_self]
      rfl
    | cons z l =>
      rw [getLast?_cons_cons]
      refine hEnd.cons ?_
      rw [updateAt_of_ne (getLast?_ne_of_notMem hy), update_of_ne hyx, h.head]
      rfl

theorem Linked.remove (h : Linked next (a ++ x :: b)) (hl : (a ++ x :: b).Nodup) :
    Linked (update (updateAt next a.getLast? b.head?) x none) (a ++ b) := by
  have hx : x ∉ a ++ b := (nodup_cons.mp (nodup_middle.mp hl)).1
  have hPast : Linked (updateAt next a.getLast? b.head?) (a ++ b) := by
    rcases eq_nil_or_concat a with rfl | ⟨a, r, rfl⟩
    · exact h.tail
    · rw [concat_eq_append, append_assoc] at h hl
      rw [concat_eq_append, getLast?_concat, append_assoc]
      exact h.unlink hl
  exact hPast.congr fun y hy => update_of_ne (ne_of_mem_of_not_mem hy hx) _ _

section

variable (h : DLinked next prev l) (hl : l.Nodup) (hx : x ∉ l)
include h hl hx

theorem DLinked.pushBack :
    DLinked (updateAt (update next x none) l.getLast? (some x)) (update prev x l.getLast?)
    (l ++ [x]) := by
  obtain ⟨hNext, hPrev⟩ := dlinked_iff.mp h
  refine dlinked_iff.mpr ⟨hNext.pushBack hl hx, ?_⟩
  rw [reverse_concat, ← head?_reverse]
  exact hPrev.pushFront (by simpa using hx)

theorem DLinked.pushFront :
    DLinked (update next x l.head?) (updateAt (update prev x none) l.head? (some x)) (x :: l) := by
  obtain ⟨hNext, hPrev⟩ := dlinked_iff.mp h
  refine dlinked_iff.mpr ⟨hNext.pushFront hx, ?_⟩
  rw [reverse_cons, ← getLast?_reverse]
  exact hPrev.pushBack (nodup_reverse.mpr hl) (by simpa using hx)

end

theorem DLinked.unlink (h : DLinked next prev (a ++ x :: b)) (hl : (a ++ x :: b).Nodup) :
    DLinked (update (updateAt next a.getLast? b.head?) x none)
      (update (updateAt prev b.head? a.getLast?) x none) (a ++ b) := by
  obtain ⟨hNext, hPrev⟩ := dlinked_iff.mp h
  have hBack : (a ++ x :: b).reverse = b.reverse ++ x :: a.reverse := by simp
  refine dlinked_iff.mpr ⟨hNext.remove hl, ?_⟩
  rw [reverse_append, ← getLast?_reverse (l := b), ← head?_reverse (l := a)]
  rw [hBack] at hPrev
  exact hPrev.remove (hBack ▸ nodup_reverse.mpr hl)

theorem erase_of_split (hl : (a ++ x :: b).Nodup) : (a ++ x :: b).erase x = a ++ b := by
  have hx : x ∉ a := fun hMem => (nodup_append.mp hl).2.2 x hMem x (by simp) rfl
  rw [erase_append_right _ hx, erase_cons_head]

/-- The ends of a list after `x` has left it. -/
theorem DLinked.ends_erase (h : DLinked next prev l) (hl : l.Nodup) (hx : x ∈ l) :
    (l.erase x).head? = (if prev x = none ∧ l.head? = some x then next x else l.head?) ∧
      (l.erase x).getLast? =
        if next x = none ∧ l.getLast? = some x then prev x else l.getLast? := by
  obtain ⟨a, b, rfl⟩ := append_of_mem hx
  obtain ⟨hPrev, hNext⟩ := h a x b rfl
  rw [hPrev, hNext, erase_of_split hl]
  constructor
  · cases a <;> simp
  · rcases eq_nil_or_concat b with rfl | ⟨b, y, rfl⟩
    · simp
    · simp [getLast?_append, getLast?_cons]

/-- No element is twice in the lists of a family. -/
structure Parted {ι : Type*} (l : ι → List α) : Prop where
  nodup : ∀ i, (l i).Nodup
  apart : ∀ i j x, x ∈ l i → x ∈ l j → i = j

/-- The lists of a family share the links and no element. -/
structure DLists {ι : Type*} (next prev : α → Option α) (l : ι → List α) :
    Prop extends Parted l where
  linked : ∀ i, DLinked next prev (l i)

section Family

variable {ι : Type*} [DecidableEq ι] {l : ι → List α} {i : ι}

section

omit [DecidableEq α]

variable {m : List α} (h : Parted l) (hNew : ∀ x ∈ m, x ∈ l i ∨ ∀ j, x ∉ l j)
include h hNew

omit [DecidableEq ι] in
theorem Parted.off {j : ι} (hj : j ≠ i) (hx : x ∈ l j) : x ∉ l i ∧ x ∉ m := by
  have hNot : x ∉ l i := fun hIn => hj (h.apart j i x hx hIn)
  exact ⟨hNot, fun hIn => (hNew x hIn).elim hNot fun hOut => hOut j hx⟩

theorem Parted.update (hNodup : m.Nodup) : Parted (update l i m) := by
  refine ⟨(forall_update_iff l fun _ => Nodup).mpr ⟨hNodup, fun j _ => h.nodup j⟩,
    fun j k x hj hk => ?_⟩
  have hOut : ∀ j ≠ i, x ∈ Function.update l i m j → x ∈ l j ∧
      x ∉ Function.update l i m i := fun j hj hx => by
    rw [update_of_ne hj] at hx
    rw [update_self]
    exact ⟨hx, (h.off hNew hj hx).2⟩
  by_cases hji : j = i <;> by_cases hki : k = i
  · rw [hji, hki]
  · exact absurd (hji ▸ hj) (hOut k hki hk).2
  · exact absurd (hki ▸ hk) (hOut j hji hj).2
  · exact h.apart j k x (hOut j hji hj).1 (hOut k hki hk).1

end

variable (h : DLists next prev l)
include h

omit [DecidableEq α] in
/-- A change of the links that stays within one list and what is new on it. -/
theorem DLists.edit {m : List α} (hLinked : DLinked next' prev' m) (hNodup : m.Nodup)
    (hNew : ∀ x ∈ m, x ∈ l i ∨ ∀ j, x ∉ l j)
    (hSame : ∀ x, x ∉ l i → x ∉ m → next' x = next x ∧ prev' x = prev x) :
    DLists next' prev' (update l i m) := by
  refine ⟨h.toParted.update hNew hNodup, ?_⟩
  refine (forall_update_iff l fun _ => DLinked next' prev').mpr ⟨hLinked, fun j hj => ?_⟩
  have hKept : ∀ x ∈ l j, next' x = next x ∧ prev' x = prev x := fun x hx => by
    obtain ⟨hOld, hOut⟩ := h.off hNew hj hx
    exact hSame x hOld hOut
  exact (h.linked j).congr (fun x hx => (hKept x hx).1) fun x hx => (hKept x hx).2

theorem DLists.pushFront (hx : ∀ j, x ∉ l j) (i : ι) : DLists (update next x (l i).head?)
    (updateAt (update prev x none) (l i).head? (some x)) (update l i (x :: l i)) := by
  refine h.edit ((h.linked i).pushFront (h.nodup i) (hx i)) (nodup_cons.mpr ⟨hx i, h.nodup i⟩)
    (forall_mem_cons.mpr ⟨.inr hx, fun _ hy => .inl hy⟩) fun y hOld hNew => ?_
  have hyx : y ≠ x := ne_of_not_mem_cons hNew
  rw [updateAt_of_ne fun hEq => hOld (mem_of_mem_head? hEq), update_of_ne hyx, update_of_ne hyx]
  exact ⟨rfl, rfl⟩

theorem DLists.pushBack (hx : ∀ j, x ∉ l j) (i : ι) :
    DLists (updateAt (update next x none) (l i).getLast? (some x)) (update prev x (l i).getLast?)
      (update l i (l i ++ [x])) := by
  refine h.edit ((h.linked i).pushBack (h.nodup i) (hx i))
    (concat_eq_append ▸ (h.nodup i).concat (hx i))
    (forall_mem_append.mpr ⟨fun _ hy => .inl hy, by simpa using .inr hx⟩) fun y hOld hNew => ?_
  have hyx : y ≠ x := fun hEq => hNew (by simp [hEq])
  rw [updateAt_of_ne fun hEq => hOld (mem_of_getLast? hEq), update_of_ne hyx, update_of_ne hyx]
  exact ⟨rfl, rfl⟩

theorem DLists.unlink (hx : x ∈ l i) : DLists (update (updateAt next (prev x) (next x)) x none)
    (update (updateAt prev (next x) (prev x)) x none) (update l i ((l i).erase x)) := by
  obtain ⟨a, b, hSplit⟩ := append_of_mem hx
  have hNodup := hSplit ▸ h.nodup i
  obtain ⟨hPrev, hNext⟩ := h.linked i a x b hSplit
  rw [hPrev, hNext, hSplit, erase_of_split hNodup]
  refine h.edit ((hSplit ▸ h.linked i).unlink hNodup) (nodup_cons.mp (nodup_middle.mp hNodup)).2
    (fun y hy => .inl ?_) fun y hOld _ => ?_
  · rw [hSplit, mem_append, mem_cons]
    exact (mem_append.mp hy).imp id .inr
  · rw [hSplit, mem_append, mem_cons, not_or, not_or] at hOld
    rw [update_of_ne hOld.2.1, update_of_ne hOld.2.1,
      updateAt_of_ne fun hEq => hOld.1 (mem_of_getLast? hEq),
      updateAt_of_ne fun hEq => hOld.2.2 (mem_of_mem_head? hEq)]
    exact ⟨rfl, rfl⟩

end Family

end Edits

end Gnos.ProofKit
