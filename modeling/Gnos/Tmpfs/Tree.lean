import Gnos.Tmpfs.Model

/-! The names of a tmpfs form a tree.  A node that was taken out of its parent's list is a top of
its own until it is linked again or freed. -/

namespace Gnos.Tmpfs

open ProofKit Relation Function List Option
open Ext2 (Path)

namespace State

def InTree (s : State) (c : ℕ) : Prop := c < maxNodes ∧ c ∉ s.free ∧ (s.pool c).unlinked = false

def parent (s : State) (c : ℕ) : Option ℕ := (s.pool c).parent

def roots (s : State) : Set ℕ := { r | r ∈ s.insts.map Inst.root }

structure Hung (s : State) (kids : ℕ → List ℕ) : Prop where
  linked : ∀ d, Linked s.next (kids d)
  head : ∀ d, s.children d = (kids d).head?
  nodup : ∀ d, (kids d).Nodup
  bound : ∀ {c d}, c ∈ kids d → c < maxNodes
  once : ∀ {c d d'}, c ∈ kids d → c ∈ kids d' → d = d'

/-- The lists agree with the parents, and every way up ends at one of the `tops`. -/
structure Inv (s : State) (kids : ℕ → List ℕ) (tops : Set ℕ) : Prop extends Hung s kids where
  mem : ∀ {c d}, c ∈ kids d ↔ s.InTree c ∧ s.parent c = some d
  names : ∀ {c c' d}, c ∈ kids d → c' ∈ kids d → (s.pool c).name = (s.pool c').name → c = c'
  up : ∀ {c d}, s.InTree c → s.parent c = some d → s.InTree d ∧ (s.pool d).kind = .dir
  depth : ∃ f : ℕ → ℕ, ∀ c d, s.InTree c → s.parent c = some d → f d < f c
  tops : ∀ {c}, c ∈ tops ↔ s.InTree c ∧ s.parent c = none
  free : s.free.Nodup ∧ ∀ i ∈ s.free, i < maxNodes

variable {s s' : State} {kids kids' : ℕ → List ℕ} {tops tops' : Set ℕ} {c d n : ℕ}

theorem Hung.kids_eq (h : Hung s kids) : s.kids = kids := by
  funext d
  have hSub : kids d ⊆ range maxNodes := fun c hc => mem_range.mpr (h.bound hc)
  have hLength := (h.nodup d).length_le_of_subset hSub
  rw [length_range] at hLength
  rw [State.kids, h.head, (h.linked d).walk_eq hLength]

theorem detach_frame : (s.detach d c).pool = s.pool ∧ (s.detach d c).free = s.free ∧
    (s.detach d c).insts = s.insts := by
  unfold detach
  split
  · exact ⟨rfl, rfl, rfl⟩
  · split <;> exact ⟨rfl, rfl, rfl⟩

theorem filter_ne {l : List ℕ} (h : c ∉ l) : l.filter (· ≠ c) = l :=
  filter_eq_self.mpr fun x hx => by simpa using ne_of_mem_of_not_mem hx h

theorem filter_ne_middle {a b : List ℕ} (h : (a ++ c :: b).Nodup) :
    (a ++ c :: b).filter (· ≠ c) = a ++ b := by
  obtain ⟨ha, hb⟩ := not_or.mp (mt mem_append.mpr (nodup_cons.mp (nodup_middle.mp h)).1)
  rw [filter_append, filter_cons_of_neg (by simp), filter_ne ha, filter_ne hb]

theorem Hung.detach (h : Hung s kids) (hc : c ∈ kids d) :
    Hung (s.detach d c) fun e => (kids e).filter (· ≠ c) := by
  have hOther : ∀ {e}, e ≠ d → (kids e).filter (· ≠ c) = kids e := fun hne => filter_ne fun hc' =>
    hne (h.once hc' hc)
  suffices hLinks : ∀ e, Linked (s.detach d c).next ((kids e).filter (· ≠ c)) ∧
      (s.detach d c).children e = ((kids e).filter (· ≠ c)).head? from
    ⟨fun e => (hLinks e).1, fun e => (hLinks e).2, fun e => (h.nodup e).filter _,
      fun hx => h.bound (mem_filter.mp hx).1,
      fun hx hx' => h.once (mem_filter.mp hx).1 (mem_filter.mp hx').1⟩
  intro e
  unfold State.detach
  split
  · -- `c` is the first child
    rename_i hFirst
    obtain ⟨b, hb⟩ : ∃ b, kids d = c :: b := by
      rw [h.head] at hFirst
      exact head?_eq_some_iff.mp hFirst
    have hKids : (kids d).filter (· ≠ c) = b := by
      rw [hb]
      exact filter_ne_middle (a := []) (hb ▸ h.nodup d)
    dsimp only
    rcases eq_or_ne e d with rfl | hne
    · rw [update_self, hKids, (hb ▸ h.linked e : Linked s.next (c :: b)).head]
      exact ⟨(hb ▸ h.linked e : Linked s.next (c :: b)).tail, rfl⟩
    · rw [update_of_ne hne, hOther hne]
      exact ⟨h.linked e, h.head e⟩
  · rename_i hLater
    rw [h.kids_eq]
    cases hFind : (kids d).find? fun x => s.next x = some c with
    | none =>
      -- the child before `c` points to it
      obtain ⟨a, b, hab⟩ := append_of_mem hc
      rcases eq_nil_or_concat a with rfl | ⟨a, r, rfl⟩
      · simp [h.head, hab] at hLater
      · have hr := h.linked d a r (c :: b) (by simp [hab])
        simpa [hr] using find?_eq_none.mp hFind r (by simp [hab])
    | some r =>
      have hr : r ∈ kids d := mem_of_find?_eq_some hFind
      obtain ⟨a, b, hab⟩ := append_of_mem hr
      obtain ⟨q, rfl⟩ : ∃ q, b = c :: q := by
        refine head?_eq_some_iff.mp ?_
        rw [← h.linked d a r b hab]
        simpa using find?_some hFind
      have hNodup := hab ▸ h.nodup d
      have hNext : s.next c = q.head? := h.linked d (a ++ [r]) c q (by simp [hab])
      have hKids : (kids d).filter (· ≠ c) = a ++ r :: q := by
        have := filter_ne_middle (a := a ++ [r]) (b := q) (c := c) (by simpa using hNodup)
        simpa [hab] using this
      rcases eq_or_ne e d with rfl | hne
      · rw [hKids, hNext, h.head, hab]
        exact ⟨(hab ▸ h.linked e).unlink hNodup, by cases a <;> rfl⟩
      · rw [hOther hne]
        refine ⟨(h.linked e).congr fun x hx => update_of_ne ?_ _ _, h.head e⟩
        rintro rfl
        exact hne (h.once hx hr)

theorem Hung.link (h : Hung s kids) (hNot : ∀ e, c ∉ kids e) (hc : c < maxNodes) (leaf : Path) :
    Hung (s.link c d leaf) fun e => if e = d then c :: kids e else kids e := by
  have hKeep : ∀ e, Linked (s.link c d leaf).next (kids e) := fun e =>
    (h.linked e).congr fun x hx => update_of_ne (ne_of_mem_of_not_mem hx (hNot e)) _ _
  have hMem : ∀ {x e}, x ∈ (if e = d then c :: kids e else kids e) ↔ x = c ∧ e = d ∨
      x ∈ kids e := by
    intro x e
    split <;> simp [*]
  refine ⟨fun e => ?_, fun e => ?_, fun e => ?_, fun hx => ?_, fun {x e e'} hx hx' => ?_⟩
  · split
    · subst e
      refine (hKeep d).cons ?_
      rw [← h.head]
      exact update_self ..
    · exact hKeep e
  · show update s.children d (some c) e = _
    split
    · simp [*]
    · rw [update_of_ne ‹_›, h.head]
  · split
    · exact nodup_cons.mpr ⟨hNot e, h.nodup e⟩
    · exact h.nodup e
  · rcases hMem.mp hx with ⟨rfl, -⟩ | hx
    · exact hc
    · exact h.bound hx
  · rcases hMem.mp hx with ⟨hxc, he⟩ | hIn <;> rcases hMem.mp hx' with ⟨hxc', he'⟩ | hIn'
    · rw [he, he']
    · exact absurd (hxc ▸ hIn') (hNot e')
    · exact absurd (hxc' ▸ hIn) (hNot e)
    · exact h.once hIn hIn'

theorem Inv.rewire (h : Inv s kids tops) (hHung : Hung s' kids')
    (hRest : ∀ x ≠ c, (s'.InTree x ↔ s.InTree x) ∧ s'.pool x = s.pool x ∧
      (∀ e, x ∈ kids' e ↔ x ∈ kids e) ∧
      (x ∈ tops' ↔ x ∈ tops)) (hMem : ∀ e, c ∈ kids' e ↔ s'.InTree c ∧ s'.parent c = some e)
    (hTop : c ∈ tops' ↔ s'.InTree c ∧ s'.parent c = none)
    (hUp : ∀ e, s'.InTree c → s'.parent c = some e → s.InTree e ∧ (s.pool e).kind = .dir ∧
      ¬Under s.parent c e ∧
      ∀ x ∈ kids e, x ≠ c → (s.pool x).name ≠ (s'.pool c).name)
    (hKids : kids c = [] ∨ s'.InTree c ∧ (s'.pool c).kind = (s.pool c).kind)
    (hFree : s'.free.Nodup ∧ ∀ i ∈ s'.free, i < maxNodes) : Inv s' kids' tops' := by
  have hParent : ∀ {x}, x ≠ c → s'.parent x = s.parent x := fun hx =>
    congrArg Node.parent (hRest _ hx).2.1
  refine ⟨hHung, fun {x e} => ?_, fun {x x' e} hx hx' hEq => ?_, fun {x e} hx he => ?_, ?_,
    fun {x} => ?_, hFree⟩
  · rcases eq_or_ne x c with rfl | hne
    · exact hMem e
    · rw [(hRest x hne).2.2.1, h.mem, (hRest x hne).1, hParent hne]
  · by_cases hxc : x = c <;> by_cases hxc' : x' = c
    · rw [hxc, hxc']
    · subst x
      obtain ⟨hIn, he⟩ := (hMem e).mp hx
      rw [(hRest x' hxc').2.1] at hEq
      exact absurd hEq.symm ((hUp e hIn he).2.2.2 x' (((hRest x' hxc').2.2.1 e).mp hx') hxc')
    · subst x'
      obtain ⟨hIn, he⟩ := (hMem e).mp hx'
      rw [(hRest x hxc).2.1] at hEq
      exact absurd hEq ((hUp e hIn he).2.2.2 x (((hRest x hxc).2.2.1 e).mp hx) hxc)
    · rw [(hRest x hxc).2.1, (hRest x' hxc').2.1] at hEq
      exact h.names (((hRest x hxc).2.2.1 e).mp hx) (((hRest x' hxc').2.2.1 e).mp hx') hEq
  · rcases eq_or_ne x c with rfl | hne
    · obtain ⟨hIn, hDir, hBelow, -⟩ := hUp e hx he
      have hec : e ≠ x := fun hEq => hBelow (hEq ▸ .refl)
      rw [(hRest e hec).1, (hRest e hec).2.1]
      exact ⟨hIn, hDir⟩
    · rw [(hRest x hne).1] at hx
      rw [hParent hne] at he
      obtain ⟨hIn, hDir⟩ := h.up hx he
      rcases eq_or_ne e c with rfl | hec
      · rcases hKids with hNone | ⟨hIn', hKind⟩
        · have := h.mem.mpr ⟨hx, he⟩
          rw [hNone] at this
          cases this
        · exact ⟨hIn', hKind.trans hDir⟩
      · rw [(hRest e hec).1, (hRest e hec).2.1]
        exact ⟨hIn, hDir⟩
  · -- everything below `c` moves down by more than the depth of its new parent
    obtain ⟨depth, hDepth⟩ := h.depth
    classical
    refine ⟨fun x => if Under s.parent c x then depth x + ((s'.parent c).elim 0 depth + 1)
    else depth x, fun x e hx he => ?_⟩
    dsimp only
    rcases eq_or_ne x c with rfl | hne
    · rw [if_neg (hUp e hx he).2.2.1, if_pos (show Under s.parent x x from .refl), he, elim_some]
      omega
    · rw [(hRest x hne).1] at hx
      rw [hParent hne] at he
      have hLess := hDepth x e hx he
      have hIff : Under s.parent c x ↔ Under s.parent c e := by
        rw [under_of_parent he, or_iff_right (Ne.symm hne)]
      split <;> split <;> first | omega | exact absurd ‹_› (by tauto)
  · rcases eq_or_ne x c with rfl | hne
    · exact hTop
    · rw [(hRest x hne).2.2.2, h.tops, (hRest x hne).1, hParent hne]

@[simp] theorem modify_pool_self (f : Node → Node) : (s.modify n f).pool n = f (s.pool n) :=
  update_self ..

theorem modify_pool_of_ne {x : ℕ} (f : Node → Node) (h : x ≠ n) :
    (s.modify n f).pool x = s.pool x :=
  update_of_ne h ..

theorem nodeFree_pool_of_ne {x : ℕ} (h : x ≠ n) : (s.nodeFree n).pool x = s.pool x :=
  update_of_ne h ..

theorem inTree_congr {x : ℕ} (hFree : x ∈ s'.free ↔ x ∈ s.free) (hPool : s'.pool x = s.pool x) :
    s'.InTree x ↔ s.InTree x := by
  unfold InTree
  rw [hFree, hPool]

def unhook (s : State) (d c : ℕ) : State :=
  (s.detach d c).modify c fun a => { a with parent := none }

theorem unhook_pool_of_ne {x : ℕ} (h : x ≠ c) : (s.unhook d c).pool x = s.pool x :=
  (modify_pool_of_ne _ h).trans (by rw [detach_frame.1])

theorem unhook_pool_self : (s.unhook d c).pool c = { s.pool c with parent := none } := by
  rw [unhook, modify_pool_self, detach_frame.1]

theorem unhook_free : (s.unhook d c).free = s.free := detach_frame.2.1

theorem unhook_inTree (x : ℕ) : (s.unhook d c).InTree x ↔ s.InTree x := by
  rcases eq_or_ne x c with rfl | hne
  · simp [InTree, unhook_pool_self, unhook_free]
  · exact inTree_congr (by rw [unhook_free]) (unhook_pool_of_ne hne)

theorem Inv.unhook (h : Inv s kids tops) (hc : c ∈ kids d) :
    Inv (s.unhook d c) (fun e => (kids e).filter (· ≠ c)) (insert c tops) := by
  have hHung := h.toHung.detach hc
  have hNone : (s.unhook d c).parent c = none := by rw [parent, unhook_pool_self]
  refine h.rewire (c := c) { hHung with } (fun x hx => ?_)
    (fun e => by simp [hNone]) ?_ (fun e _ he => by simp [hNone] at he) (.inr ?_) ?_
  · exact ⟨unhook_inTree x, unhook_pool_of_ne hx, fun e => by simp [hx], by simp [hx]⟩
  · simp [hNone, unhook_inTree, (h.mem.mp hc).1]
  · exact ⟨(unhook_inTree c).mpr (h.mem.mp hc).1, by rw [unhook_pool_self]⟩
  · rw [unhook_free]
    exact h.free

section

variable (h : Inv s kids (insert c tops)) (hTop : c ∉ tops)
include h hTop

theorem Inv.link (hd : s.InTree d) (hDir : (s.pool d).kind = .dir) (hBelow : ¬Under s.parent c d)
    {leaf : Path} (hLeaf : leaf.length < nameMax) (hNew : ∀ x ∈ kids d, (s.pool x).name ≠ leaf) :
    Inv (s.link c d leaf) (fun e => if e = d then c :: kids e else kids e) tops := by
  obtain ⟨hIn, hNone⟩ := h.tops.mp (Set.mem_insert c tops)
  have hNot : ∀ e, c ∉ kids e := fun e hc => by simp [h.mem, hNone] at hc
  have hPool : ∀ {x}, x ≠ c → (s.link c d leaf).pool x = s.pool x := fun hx => update_of_ne hx ..
  have hSelf : (s.link c d leaf).pool c = { s.pool c with name := leaf, parent := some d } := by
    simp [State.link, take_of_length_le (show leaf.length ≤ nameMax - 1 by omega)]
  have hParent : (s.link c d leaf).parent c = some d := by rw [parent, hSelf]
  have hIn' : (s.link c d leaf).InTree c := ⟨hIn.1, hIn.2.1, by rw [hSelf]; exact hIn.2.2⟩
  refine h.rewire (c := c) (h.toHung.link hNot hIn.1 leaf) (fun x hx => ?_) (fun e => ?_) ?_
    (fun e _ he => ?_) (.inr ⟨hIn', by rw [hSelf]⟩) h.free
  · refine ⟨inTree_congr Iff.rfl (hPool hx), hPool hx, fun e => ?_, by simp [hx]⟩
    split <;> simp [hx]
  · simp only [hIn', hParent, true_and, some.injEq]
    split <;> simp_all [eq_comm]
  · simp [hTop, hParent]
  · rw [hParent] at he
    cases he
    refine ⟨hd, hDir, hBelow, fun x hx _ => ?_⟩
    rw [hSelf]
    exact hNew x hx

theorem Inv.drop (hEmpty : kids c = []) (hChildren : s'.children = s.children)
    (hNext : s'.next = s.next) (hPool : ∀ x ≠ c, s'.pool x = s.pool x)
    (hOut : s'.free = c :: s.free ∨ s'.free = s.free ∧ (s'.pool c).unlinked) :
    Inv s' kids tops := by
  obtain ⟨hIn, hNone⟩ := h.tops.mp (Set.mem_insert c tops)
  have hNot : ∀ e, c ∉ kids e := fun e hc => by simp [h.mem, hNone] at hc
  have hGone : ¬s'.InTree c := by rcases hOut with hFree | ⟨-, hMark⟩ <;> simp [InTree, *]
  refine h.rewire (c := c) ⟨fun e => hNext ▸ h.linked e, fun e => hChildren ▸ h.head e, h.nodup,
    h.bound, h.once⟩
    (fun x hx => ⟨?_, hPool x hx, fun _ => Iff.rfl, by simp [hx]⟩) (fun e => by simp [hGone, hNot])
    (by simp [hGone, hTop]) (fun e he => absurd he hGone) (.inl hEmpty) ?_
  · refine inTree_congr ?_ (hPool x hx)
    rcases hOut with hFree | ⟨hFree, -⟩ <;> simp [hFree, hx]
  · rcases hOut with hFree | ⟨hFree, -⟩
    · rw [hFree]
      exact ⟨nodup_cons.mpr ⟨hIn.2.1, h.free.1⟩, forall_mem_cons.mpr ⟨hIn.1, h.free.2⟩⟩
    · exact hFree ▸ h.free

end

theorem link_unhook (sp dp : ℕ) (leaf : Path) :
    (s.unhook sp c).link c dp leaf = (s.detach sp c).link c dp leaf := by
  simp [unhook, link, modify]

/-- `s'` has a new node `n`, with nothing set that has to do with its place. -/
structure New (s s' : State) (n : ℕ) : Prop where
  free : s.free = n :: s'.free
  children : s'.children = Function.update s.children n none
  next : s'.next = Function.update s.next n none
  pool : ∀ x ≠ n, s'.pool x = s.pool x
  self : (s'.pool n).parent = none ∧ (s'.pool n).unlinked = false

theorem nodeAlloc_new (h : s.nodeAlloc = some (n, s')) : New s s' n ∧ s'.insts = s.insts := by
  unfold nodeAlloc at h
  split at h
  · cases h
  · rename_i hFree
    cases h
    exact ⟨⟨hFree, rfl, rfl, fun x hx => update_of_ne hx .., by simp⟩, rfl⟩

section

variable (h : New s s' n)
include h

theorem New.modify {f : Node → Node}
    (hf : ∀ a, (f a).parent = a.parent ∧ (f a).unlinked = a.unlinked) : New s (s'.modify n f) n :=
  ⟨h.free, h.children, h.next, fun x hx => (modify_pool_of_ne f hx).trans (h.pool x hx), by
    rw [modify_pool_self, (hf _).1, (hf _).2]
    exact h.self⟩

theorem New.fresh : ¬s.InTree n := fun hIn => hIn.2.1 (by simp [h.free])

theorem New.empty (hs : Inv s kids tops) : kids n = [] := by
  refine eq_nil_iff_forall_not_mem.mpr fun x hx => h.fresh ?_
  obtain ⟨hIn, hParent⟩ := hs.mem.mp hx
  exact (hs.up hIn hParent).1

theorem New.inv (hs : Inv s kids tops) : Inv s' kids (insert n tops) := by
  have hNot : ∀ e, n ∉ kids e := fun e hn => h.fresh (hs.mem.mp hn).1
  obtain ⟨hNodup, hBound⟩ := hs.free
  rw [h.free, nodup_cons] at hNodup
  rw [h.free, forall_mem_cons] at hBound
  have hIn : s'.InTree n := ⟨hBound.1, hNodup.1, h.self.2⟩
  have hNone : s'.parent n = none := h.self.1
  refine hs.rewire (c := n) ⟨fun e => ?_, fun e => ?_, hs.nodup, hs.bound, hs.once⟩
    (fun x hx => ⟨inTree_congr (by simp [h.free, hx]) (h.pool x hx), h.pool x hx,
      fun _ => Iff.rfl, by simp [hx]⟩)
    (fun e => by simp [hNot, hNone]) (by simp [hIn, hNone]) (fun e _ he => by simp [hNone] at he)
    (.inl (h.empty hs)) ⟨hNodup.2, hBound.2⟩
  · rw [h.next]
    exact (hs.linked e).congr fun x hx => update_of_ne (ne_of_mem_of_not_mem hx (hNot e)) _ _
  · rw [h.children]
    rcases eq_or_ne e n with rfl | hne
    · simp [h.empty hs]
    · rw [update_of_ne hne, hs.head]

end

theorem Inv.not_under (h : Inv s kids tops) (hEmpty : kids c = []) (hd : s.InTree d) (hne : d ≠ c) :
    ¬Under s.parent c d := by
  intro hUnder
  induction hUnder using ReflTransGen.head_induction_on with
  | refl => exact hne rfl
  | @head x y hxy _ ih =>
    refine ih (h.up hd hxy).1 ?_
    rintro rfl
    have := h.mem.mpr ⟨hd, hxy⟩
    rw [hEmpty] at this
    cases this

def Sound (s : State) : Prop := ∃ kids, Inv s kids s.roots

theorem Sound.inv (h : s.Sound) : Inv s s.kids s.roots := by
  obtain ⟨kids, h⟩ := h
  rwa [h.kids_eq]

theorem roots_congr (h : s'.insts = s.insts) : s'.roots = s.roots := by rw [roots, h, roots]

section Operations

variable {fs : ℕ} {rel leaf : Path}

theorem findChild_some (h : s.findChild d leaf = some c) : c ∈ s.kids d ∧ (s.pool c).name = leaf :=
  ⟨mem_of_find?_eq_some h, by simpa using find?_some h⟩

theorem findChild_none (h : s.findChild d leaf = none) : ∀ x ∈ s.kids d, (s.pool x).name ≠ leaf :=
  fun x hx => by
  simpa using find?_eq_none.mp h x hx

section

variable (h : Inv s s.kids tops) (hc : s.InTree c)
include h hc

theorem Inv.walkOne (hWalk : s.walkOne c leaf = some d) : s.InTree d := by
  unfold State.walkOne at hWalk
  split at hWalk
  · exact some.inj hWalk ▸ hc
  split at hWalk
  · obtain rfl := some.inj hWalk
    cases hUp : (s.pool c).parent with
    | none => exact hc
    | some p => exact (h.up hc hUp).1
  · exact (h.mem.mp (findChild_some hWalk).1).1

theorem Inv.walkAll {comps : List Path} (hWalk : comps.foldlM s.walkOne c = some d) :
    s.InTree d := by
  induction comps generalizing c with
  | nil => exact some.inj hWalk ▸ hc
  | cons comp comps ih =>
    rw [foldlM_cons, bind_eq_bind, bind_eq_some_iff] at hWalk
    obtain ⟨m, hOne, hRest⟩ := hWalk
    exact ih (h.walkOne hc hOne) hRest

theorem Inv.walkPath (hWalk : s.walkPath c rel = some d) : s.InTree d := by
  unfold State.walkPath at hWalk
  split at hWalk
  · exact h.walkAll hc hWalk
  · cases hWalk

theorem Inv.splitParent (hSplit : s.splitParent c rel = some (d, leaf)) :
    s.InTree d ∧ leaf.length < nameMax := by
  unfold State.splitParent at hSplit
  dsimp only at hSplit
  split at hSplit
  · cases hSplit
  split at hSplit
  · cases hSplit
  obtain ⟨d', hWalk, hEq⟩ := map_eq_some_iff.mp hSplit
  cases hEq
  exact ⟨h.walkPath hc hWalk, by omega⟩

end

theorem root_mem (h : fs < s.insts.length) : s.root fs ∈ s.roots := by
  unfold root
  rw [getD_eq_getElem?_getD, getElem?_eq_getElem h]
  exact mem_map_of_mem (getElem_mem h)

/-- `s'` has a new node, which may go under `d` with the name `leaf`. -/
structure Prepared (s s' : State) (n d : ℕ) (leaf : Path) : Prop where
  new : New s s' n
  roots : s'.roots = s.roots
  dir : s.InTree d ∧ (s.pool d).kind = .dir
  leaf : leaf.length < nameMax ∧ ∀ x ∈ s.kids d, (s.pool x).name ≠ leaf

theorem Prepared.link (hs : s.Sound) (h : Prepared s s' n d leaf) : (s'.link n d leaf).Sound := by
  have hInv := h.new.inv hs.inv
  have hne : d ≠ n := fun hEq => h.new.fresh (hEq ▸ h.dir.1)
  have hd : s'.InTree d := (inTree_congr (by simp [h.new.free, hne]) (h.new.pool d hne)).mpr h.dir.1
  refine ⟨_, h.roots ▸ hInv.link (fun hn => h.new.fresh (hs.inv.tops.mp hn).1) hd ?_
    (hInv.not_under (h.new.empty hs.inv) hd hne) h.leaf.1 fun x hx => ?_⟩
  · rw [h.new.pool d hne]
    exact h.dir.2
  · rw [h.new.pool x fun hEq => h.new.fresh (hEq ▸ (hs.inv.mem.mp hx).1)]
    exact h.leaf.2 x hx

theorem takeIno_roots : (s.takeIno fs).roots = s.roots := by
  have hMap : (s.takeIno fs).insts.map Inst.root = s.insts.map Inst.root := by
    refine ext_getElem? fun i => ?_
    simp only [takeIno, getElem?_map, getElem?_modify]
    split <;> simp [comp_def]
  unfold roots
  rw [hMap]

theorem arenaAlloc_frame {m at_ : ℕ} (h : s.arenaAlloc m = some (at_, s')) :
    ∃ arenaOff, s' = { s with arenaOff } := by
  unfold arenaAlloc at h
  dsimp only at h
  generalize (if m = 0 then 1 else m) = k at h
  split at h <;> cases h
  exact ⟨_, rfl⟩

theorem Inv.kids_of_file (h : Inv s s.kids tops) (hKind : (s.pool c).kind ≠ .dir) :
    s.kids c = [] := by
  refine eq_nil_iff_forall_not_mem.mpr fun x hx => hKind ?_
  obtain ⟨hIn, hParent⟩ := h.mem.mp hx
  exact (h.up hIn hParent).2

theorem Inv.kids_of_none (h : Inv s s.kids tops) (hNone : ¬(s.children c).isSome) :
    s.kids c = [] := by
  rw [h.head] at hNone
  simpa using hNone

theorem Inv.rooted (h : Inv s kids s.roots) (hRoot : s.root fs ∈ s.roots) :
    Rooted maxNodes s.InTree s.parent (s.root fs) :=
  ⟨fun _ hc => hc.1, h.tops.mp hRoot, fun _ _ hc hp => (h.up hc hp).1, h.depth⟩

section

variable (h : s.Sound)
include h

section

variable (hRoot : s.InTree (s.root fs))
include hRoot

theorem Sound.prepare {kind : Kind} {mode : ℕ}
    (hPrep : s.prepare fs rel kind mode = .ok (s', n, d, leaf)) : Prepared s s' n d leaf := by
  unfold State.prepare at hPrep
  split at hPrep
  · cases hPrep
  rename_i hSplit
  split at hPrep
  · cases hPrep
  rename_i hDir
  split at hPrep
  · cases hPrep
  rename_i hNone
  split at hPrep
  · cases hPrep
  rename_i s1 hAlloc
  cases hPrep
  obtain ⟨hd, hLeaf⟩ := h.inv.splitParent hRoot hSplit
  obtain ⟨hNew, hInsts⟩ := nodeAlloc_new hAlloc
  have hNew' : New s (s1.takeIno fs) n := { hNew with }
  refine ⟨hNew'.modify fun _ => ⟨rfl, rfl⟩, ?_, ⟨hd, not_not.mp hDir⟩, hLeaf,
    findChild_none (by simpa using hNone)⟩
  show (s1.takeIno fs).roots = s.roots
  rw [takeIno_roots, roots_congr hInsts]

theorem Sound.make (kind : Kind) (mode : ℕ) (e : Err) :
    (if isFsRoot rel then (s, .error e) else match s.prepare fs rel kind mode with
      | .error e => (s, .error e)
      | .ok (s, n, parent, leaf) =>
        (s.link n parent leaf, .ok ()) : State × Except Err Unit).1.Sound := by
  split
  · exact h
  cases hPrep : s.prepare fs rel kind mode with
  | error e => exact h
  | ok r => exact (h.prepare hRoot hPrep).link h

theorem Sound.symlink (target : Path) : (s.symlink target fs rel).1.Sound := by
  unfold State.symlink
  split
  · exact h
  cases hPrep : s.prepare fs rel .symlink 0o777 with
  | error e => exact h
  | ok r =>
  obtain ⟨s1, n, d, leaf⟩ := r
  obtain ⟨hNew, hRoots, hDir, hLeaf⟩ := h.prepare hRoot hPrep
  dsimp only
  cases hArena : s1.arenaAlloc ((target.length + 1) % 2 ^ 32) with
  | none =>
    have hFreed : Inv (s1.nodeFree n) _ _ :=
      (hNew.inv h.inv).drop (fun hn => hNew.fresh (h.inv.tops.mp hn).1)
      (hNew.empty h.inv) rfl rfl (fun x hx => nodeFree_pool_of_ne hx) (.inl rfl)
    exact ⟨_, show Inv _ _ s1.roots from hRoots ▸ hFreed⟩
  | some r =>
    obtain ⟨at_, s2⟩ := r
    obtain ⟨arenaOff, rfl⟩ := arenaAlloc_frame hArena
    have hNew' : New s { s1 with
        arenaOff, arena := fun i =>
          if at_ ≤ i ∧ i ≤ at_ + target.length then target.getD (i - at_) 0 else s1.arena i } n :=
      { hNew with }
    exact Prepared.link h ⟨hNew'.modify fun _ => ⟨rfl, rfl⟩, hRoots, hDir, hLeaf⟩

end

theorem Sound.leave (hc : c ∈ s.kids d) (hEmpty : s.kids c = [])
    (hChildren : s'.children = (s.detach d c).children) (hNext : s'.next = (s.detach d c).next)
    (hPool : ∀ x ≠ c, s'.pool x = s.pool x) (hInsts : s'.insts = s.insts)
    (hOut : s'.free = c :: s.free ∨ s'.free = s.free ∧ (s'.pool c).unlinked) : s'.Sound := by
  have hTop : c ∉ s.roots := fun hr => by simp [h.inv.tops, (h.inv.mem.mp hc).2] at hr
  refine ⟨_, roots_congr hInsts ▸ (h.inv.unhook hc).drop hTop (by simp [hEmpty]) hChildren hNext
    (fun x hx => ?_) ?_⟩
  · rw [hPool x hx, unhook_pool_of_ne hx]
  · rwa [unhook_free]

theorem Sound.unlink : (s.unlink fs rel).1.Sound := by
  unfold State.unlink
  split
  · exact h
  split
  · exact h
  split
  · exact h
  rename_i d _ _ _ c hFind
  split_ifs with hKind
  · exact h
  have hc := (findChild_some hFind).1
  have hEmpty := h.inv.kids_of_file hKind
  have hMarked : ∀ x ≠ c,
      ((s.detach d c).modify c fun a => { a with unlinked := true, refs := a.refs - 1 }).pool x =
      s.pool x := fun x hx => by rw [modify_pool_of_ne _ hx, detach_frame.1]
  have hStay :
      ((s.detach d c).modify c fun a => { a with unlinked := true, refs := a.refs - 1 }).Sound :=
    h.leave hc hEmpty rfl rfl hMarked detach_frame.2.2
      (.inr ⟨detach_frame.2.1, by rw [modify_pool_self]⟩)
  dsimp only
  split
  · unfold nodeReleaseCheck
    split
    · exact h.leave hc hEmpty rfl rfl (fun x hx => (nodeFree_pool_of_ne hx).trans (hMarked x hx))
        detach_frame.2.2 (.inl (congrArg (cons c) detach_frame.2.1))
    · exact hStay
  · exact hStay

theorem Sound.remove (hc : c ∈ s.kids d) (hEmpty : s.kids c = []) :
    ((s.detach d c).nodeFree c).Sound :=
  h.leave hc hEmpty rfl rfl (fun x hx => (nodeFree_pool_of_ne hx).trans (by rw [detach_frame.1]))
    detach_frame.2.2 (.inl (congrArg (cons c) detach_frame.2.1))

theorem Sound.rmdir : (s.rmdir fs rel).1.Sound := by
  unfold State.rmdir
  split
  · exact h
  split
  · exact h
  split
  · exact h
  rename_i c hFind
  split
  · exact h
  split_ifs with hNone
  · exact h
  · exact h.remove (findChild_some hFind).1 (h.inv.kids_of_none hNone)

theorem Sound.move {sp dp : ℕ} (hc : c ∈ s.kids sp) (hd : s.InTree dp)
    (hDir : (s.pool dp).kind = .dir) (hBelow : ¬Under s.parent c dp) (hLeaf : leaf.length < nameMax)
    (hNew : ∀ x ∈ s.kids dp, x ≠ c → (s.pool x).name ≠ leaf) :
    ((s.detach sp c).link c dp leaf).Sound := by
  have hTop : c ∉ s.roots := fun hr => by simp [h.inv.tops, (h.inv.mem.mp hc).2] at hr
  have hdp : dp ≠ c := fun hEq => hBelow (hEq ▸ .refl)
  have hUnder : ¬Under (s.unhook sp c).parent c dp := by
    refine fun hu => hBelow (ReflTransGen.lift id (fun x y hxy => ?_) _ _ hu)
    rcases eq_or_ne x c with rfl | hne
    · simp [parent, unhook_pool_self] at hxy
    · rwa [parent, unhook_pool_of_ne hne] at hxy
  rw [← link_unhook]
  have hRoots : ((s.unhook sp c).link c dp leaf).roots = s.roots := roots_congr detach_frame.2.2
  refine ⟨_, hRoots ▸ (h.inv.unhook hc).link hTop
    ((unhook_inTree dp).mpr hd) (by rw [unhook_pool_of_ne hdp, hDir]) hUnder hLeaf fun x hx => ?_⟩
  obtain ⟨hx, hxc⟩ : x ∈ s.kids dp ∧ x ≠ c := by simpa using hx
  rw [unhook_pool_of_ne hxc]
  exact hNew x hx hxc

theorem Sound.renameAt (hRoot : s.root fs ∈ s.roots) {sp dp : ℕ} (hc : c ∈ s.kids sp)
    (hd : s.InTree dp) (hLeaf : leaf.length < nameMax) : (s.renameAt sp c dp leaf).1.Sound := by
  have hInv := h.inv
  unfold State.renameAt
  split
  · exact h
  rename_i hDir
  split_ifs with hChain
  · exact h
  have hBelow : ¬Under s.parent c dp := fun hu => hChain (((hInv.rooted hRoot).mem_chain hd).mpr hu)
  cases hFind : s.findChild dp leaf with
  | none =>
    exact h.move hc hd (not_not.mp hDir) hBelow hLeaf fun x hx _ => findChild_none hFind x hx
  | some dst =>
    dsimp only
    split_ifs with hne
    · exact h
    cases hErr : s.replaceErr dst c with
    | some e => exact h
    | none =>
    obtain ⟨hDst, hName⟩ := findChild_some hFind
    have hEmpty : s.kids dst = [] := by
      by_cases hKind : (s.pool dst).kind = .dir
      · refine hInv.kids_of_none fun hSome => ?_
        simp only [replaceErr, hKind, hSome] at hErr
        split at hErr <;> simp at hErr
      · exact hInv.kids_of_file hKind
    -- apart from `dst`, the tree is as it was
    have hRemoved := h.remove hDst hEmpty
    have hPool : ∀ x ≠ dst, ((s.detach dp dst).nodeFree dst).pool x = s.pool x := fun x hx =>
      (nodeFree_pool_of_ne hx).trans (by rw [detach_frame.1])
    have hParent : ((s.detach dp dst).nodeFree dst).parent = s.parent := by
      funext x
      rcases eq_or_ne x dst with rfl | hx
      · simp [parent, nodeFree, detach_frame.1]
      · rw [parent, hPool x hx, parent]
    have hIn : ∀ x ≠ dst, (((s.detach dp dst).nodeFree dst).InTree x ↔ s.InTree x) := fun x hx =>
      inTree_congr (by simp [nodeFree, detach_frame.2.1, hx]) (hPool x hx)
    have hdp : dp ≠ dst := by
      rintro rfl
      simp [hEmpty] at hDst
    obtain ⟨hcIn, hcParent⟩ := hInv.mem.mp hc
    refine hRemoved.move (hRemoved.inv.mem.mpr
      ⟨(hIn c (Ne.symm hne)).mpr hcIn, by rw [hParent, hcParent]⟩)
      ((hIn dp hdp).mpr hd) (by rw [hPool dp hdp]; exact not_not.mp hDir) (hParent ▸ hBelow) hLeaf
      fun x hx _ hEq => ?_
    obtain ⟨hxIn, hxParent⟩ := hRemoved.inv.mem.mp hx
    have hxDst : x ≠ dst := by
      rintro rfl
      exact hxIn.2.1 (mem_cons_self ..)
    rw [hPool x hxDst] at hEq
    rw [hParent] at hxParent
    exact hxDst (hInv.names (hInv.mem.mpr ⟨(hIn x hxDst).mp hxIn, hxParent⟩) hDst
      (hEq.trans hName.symm))

theorem Sound.rename (hfs : fs < s.insts.length) (srel drel : Path) :
    (s.rename fs srel drel).1.Sound := by
  have hRoot := root_mem hfs
  unfold State.rename
  split
  · exact h
  split
  · exact h
  split
  · exact h
  rename_i hFind
  split
  · exact h
  · rename_i hSplit
    obtain ⟨hd, hLeaf⟩ := h.inv.splitParent (h.inv.tops.mp hRoot).1 hSplit
    exact h.renameAt hRoot (findChild_some hFind).1 hd hLeaf

theorem Sound.tmpfsCreate : s.tmpfsCreate.Sound := by
  obtain ⟨kids, hInv⟩ := h
  unfold State.tmpfsCreate
  split
  · exact ⟨kids, hInv⟩
  cases hAlloc : { s with instUsed := s.instUsed + 1 }.nodeAlloc with
  | none => exact ⟨kids, { hInv with }⟩
  | some r =>
    obtain ⟨n, s1⟩ := r
    obtain ⟨hNew, hInsts⟩ := nodeAlloc_new hAlloc
    have hRoots : { r | r ∈ (s1.insts ++ [(⟨n, 2⟩ : Inst)]).map Inst.root } = insert n s.roots := by
      ext r
      simp [hInsts, roots, or_comm]
    have hNamed := hNew.modify
      (f := fun a => { a with kind := .dir, mode := 0o755, ino := 1, name := [slash] })
      fun _ => ⟨rfl, rfl⟩
    have hEnd :
        New s { s1.modify n
          (fun a => { a with kind := .dir, mode := 0o755, ino := 1, name := [slash] }) with
        insts := s1.insts ++ [⟨n, 2⟩] } n := { hNamed with }
    exact ⟨kids, show Inv _ _ { r | r ∈ (s1.insts ++ [(⟨n, 2⟩ : Inst)]).map Inst.root } from
      hRoots ▸ hEnd.inv hInv⟩

end

end Operations

inductive Call where
  | mkdir (rel : Path) (mode : ℕ)
  | createFile (rel : Path) (mode : ℕ)
  | symlink (target rel : Path)
  | unlink (rel : Path)
  | rmdir (rel : Path)
  | rename (srel drel : Path)

def call (s : State) (fs : ℕ) : Call → State
  | .mkdir rel mode => (s.mkdir fs rel mode).1
  | .createFile rel mode => (s.createFile fs rel mode).1
  | .symlink target rel => (s.symlink target fs rel).1
  | .unlink rel => (s.unlink fs rel).1
  | .rmdir rel => (s.rmdir fs rel).1
  | .rename srel drel => (s.rename fs srel drel).1

/-- A new instance, or a call on one that exists. -/
inductive Step where
  | create
  | call (fs : ℕ) (c : Call)

def exec (s : State) : Step → State
  | .create => s.tmpfsCreate
  | .call fs c => if fs < s.insts.length then s.call fs c else s

theorem Sound.init : init.Sound := by
  have hFree : State.init.free = range maxNodes := by simp only [State.init]
  have hNone : ∀ c, ¬State.init.InTree c := fun c h =>
    h.2.1 (by rw [hFree]; exact mem_range.mpr h.1)
  refine ⟨fun _ => [], ⟨fun _ => linked_nil _, fun _ => rfl, fun _ => nodup_nil, ?_, ?_⟩, ?_, ?_,
    ?_, ⟨id, ?_⟩, ?_, ?_⟩
  · simp
  · simp
  · simp [hNone]
  · simp
  · simp [hNone]
  · simp [hNone]
  · intro c
    exact iff_of_false (fun hc => by cases hc) fun hc => hNone c hc.1
  · rw [hFree]
    exact ⟨nodup_range, fun i => mem_range.mp⟩

theorem Sound.exec (h : s.Sound) (step : Step) : (s.exec step).Sound := by
  cases step with
  | create => exact h.tmpfsCreate
  | call fs c =>
    unfold State.exec
    dsimp only
    split_ifs with hfs
    · have hRoot := (h.inv.tops.mp (root_mem hfs)).1
      cases c with
      | mkdir rel mode => exact h.make hRoot ..
      | createFile rel mode => exact h.make hRoot ..
      | symlink target rel => exact h.symlink hRoot target
      | unlink rel => exact h.unlink
      | rmdir rel => exact h.rmdir
      | rename srel drel => exact h.rename hfs srel drel
    · exact h

/-- A chain of child links from the root of an instance. -/
inductive Route (s : State) : List ℕ → ℕ → Prop where
  | root {r : ℕ} : r ∈ s.roots → Route s [r] r
  | child {l : List ℕ} {d c : ℕ} : Route s l d → c ∈ s.kids d → Route s (l ++ [c]) c

/-- The names form a tree: every node in it is at the end of one chain of child links. -/
structure IsTree (s : State) : Prop where
  lists : Hung s s.kids
  route : ∀ c, s.InTree c → ∃! l, Route s l c
  parent : ∀ c d, c ∈ s.kids d ↔ s.InTree c ∧ s.parent c = some d
  names : ∀ c c' d, c ∈ s.kids d → c' ∈ s.kids d → (s.pool c).name = (s.pool c').name → c = c'
  acyclic : ∀ c, s.InTree c → ¬TransGen (fun x y => s.parent x = some y) c c
  below : ∀ fs sp src dp srel drel sleaf dleaf, fs < s.insts.length →
    s.splitParent (s.root fs) srel = some (sp, sleaf) → s.findChild sp sleaf = some src →
    s.splitParent (s.root fs) drel = some (dp, dleaf) → Under s.parent src dp →
    (s.rename fs srel drel).1 = s ∧ ∃ e, (s.rename fs srel drel).2 = .error e

theorem Inv.route (h : Inv s s.kids s.roots) (hc : s.InTree c) : ∃! l, Route s l c := by
  obtain ⟨depth, hDepth⟩ := h.depth
  induction hk : depth c using Nat.strong_induction_on generalizing c with
  | _ k ih =>
    cases hUp : s.parent c with
    | none =>
      refine ⟨[c], .root (h.tops.mpr ⟨hc, hUp⟩), fun l hl => ?_⟩
      cases hl with
      | root _ => rfl
      | child _ hKid =>
        rw [h.mem, hUp] at hKid
        cases hKid.2
    | some d =>
      obtain ⟨l, hl, hUnique⟩ := ih (depth d) (hk ▸ hDepth c d hc hUp) (h.up hc hUp).1 rfl
      refine ⟨l ++ [c], .child hl (h.mem.mpr ⟨hc, hUp⟩), fun l' hl' => ?_⟩
      cases hl' with
      | root hRoot =>
        rw [h.tops, hUp] at hRoot
        cases hRoot.2
      | child hRest hKid =>
        rw [h.mem, hUp] at hKid
        cases hKid.2
        rw [hUnique _ hRest]

theorem Inv.acyclic (h : Inv s s.kids s.roots) (hc : s.InTree c) :
    ¬TransGen (fun x y => s.parent x = some y) c c := by
  obtain ⟨depth, hDepth⟩ := h.depth
  have hUp : ∀ {x}, TransGen (fun x y => s.parent x = some y) c x → s.InTree x ∧
      depth x < depth c := by
    intro x hx
    induction hx with
    | single hp => exact ⟨(h.up hc hp).1, hDepth _ _ hc hp⟩
    | tail _ hp ih => exact ⟨(h.up ih.1 hp).1, (hDepth _ _ ih.1 hp).trans ih.2⟩
  exact fun hCycle => absurd (hUp hCycle).2 (lt_irrefl _)

theorem Sound.isTree (h : s.Sound) : s.IsTree := by
  have hInv := h.inv
  refine ⟨hInv.toHung, fun c => hInv.route, fun c d => hInv.mem, fun c c' d => hInv.names,
    fun c => hInv.acyclic, ?_⟩
  intro fs sp src dp srel drel sleaf dleaf hfs hSrc hFind hDst hUnder
  have hRoot := root_mem hfs
  have hd := (hInv.splitParent (hInv.tops.mp hRoot).1 hDst).1
  have hChain : src ∈ chain (fun a => (s.pool a).parent) maxNodes dp :=
    ((hInv.rooted hRoot).mem_chain hd).mpr hUnder
  unfold State.rename
  split
  · exact ⟨rfl, _, rfl⟩
  · simp only [hSrc, hFind, hDst, State.renameAt, if_pos hChain]
    split <;> exact ⟨rfl, _, rfl⟩

/-- After every sequence of calls the names are a tree. -/
theorem namespace_is_tree (steps : List Step) : (steps.foldl exec init).IsTree := by
  suffices hSound : ∀ s : State, s.Sound →
    (steps.foldl exec s).Sound from (hSound _ Sound.init).isTree
  induction steps with
  | nil => exact fun _ h => h
  | cons step steps ih => exact fun s h => ih _ (h.exec step)

end State

end Gnos.Tmpfs
