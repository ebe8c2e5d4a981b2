import Gnos.ProofKit.Runs
import Gnos.Slab.Geometry

/-! Who owns an object.  `Core` relates the memory of a cache to the freelists `fl` of its slabs and
to the objects on loan: every object is on its slab's freelist, in the array cache or on loan, once
in all.  `Placed` says which list of the cache a slab is on. -/

namespace Gnos.Slab

open ProofKit Function List Slab.Geometry Header Nat Kmem Inv Cache

/-- What `kmem_cache_create` makes sure of, beside what the geometry owes the slabs. -/
structure Geometry.Made (g : Geometry) : Prop where
  limit : g.limit = 16
  objs : 0 < g.objsPerSlab ∧ g.objsPerSlab < 2 ^ 32
  colours : 0 < g.colourMax ∧ g.colourMax ≤ 16
  run : ∃ k, k ≤ 16 ∧ g.slabSize = 2 ^ k

theorem geometry_made (size align flags : ℕ) : (geometry size align flags).Made := by
  have hRun : ∃ k, k ≤ 16 ∧ (geometry size align flags).slabSize = 2 ^ k := by
    have hEq : (geometry size align flags).slabSize =
        (runSize? (stride size align flags)).getD 65536 := growPages_eq _
    rw [hEq]
    cases hS : runSize? (stride size align flags) with
    | none => exact ⟨16, le_rfl, rfl⟩
    | some S =>
      obtain ⟨-, -, k, -, hk, rfl⟩ := runSize_eq hS
      exact ⟨k, hk, rfl⟩
  refine ⟨rfl, ?_, ?_, hRun⟩
  · unfold geometry
    dsimp only
    split <;> omega
  · unfold geometry
    dsimp only
    rw [colours_eq]
    omega

def Geometry.objects (g : Geometry) (base colour : ℕ) : List ℕ :=
  (List.range g.objsPerSlab).map (g.obj base colour)

section Objects

variable {g : Geometry} {base : ℕ} {t : Header}

theorem Geometry.mem_objects {colour o : ℕ} :
    o ∈ g.objects base colour ↔ ∃ i < g.objsPerSlab, g.obj base colour i = o := by
  simp [objects]

theorem Header.Sound.owner (h : t.Sound g base) {o : ℕ} (ho : o ∈ g.objects base t.colour) :
    o &&& not64 (g.slabSize - 1) = base := by
  obtain ⟨i, hi, rfl⟩ := mem_objects.mp ho
  exact h.masks i hi

theorem Header.Sound.nodup (h : t.Sound g base) : (g.objects base t.colour).Nodup := by
  refine Nodup.map_on (fun i hi j hj hEq => ?_) nodup_range
  rw [mem_range] at hi hj
  have hExtent : 8 ≤ g.extent := le_max_right _ _
  rcases lt_trichotomy i j with hij | hij | hij
  · rcases h.apart i j hij hj with h' | h' <;> omega
  · exact hij
  · rcases h.apart j i hij hi with h' | h' <;> omega

theorem Header.Sound.congr (h : t.Sound g base) {t' : Header} (hRaw : t'.raw = t.raw)
    (hColour : t'.colour = t.colour) : t'.Sound g base := by
  refine ⟨h.aligned, ?_, ?_, ?_, ?_⟩ <;> rw [hColour]
  · exact h.inside
  · exact h.apart
  · rw [hRaw]
    exact h.block
  · exact h.masks

theorem Cache.Sound.header (h : (fresh g).Sound) (hMade : g.Made) {t : Header}
    (hBlock : g.Block t.raw) (hColour : t.colour < g.colourMax) :
    t.Sound g (alignUp t.raw g.slabSize) := by
  have hRaws : ∀ raw ∈ replicate t.colour t.raw ++ [t.raw], raw = t.raw := by
    rw [← replicate_succ']
    exact fun raw hRaw => (mem_replicate.mp hRaw).2
  obtain ⟨x, hx, hBase, hx'⟩ := builds_colour (s := { cache := .fresh g }) (g := g) rfl
    hMade.colours.2 (k := 0) rfl (replicate t.colour t.raw) t.raw (by rw [length_replicate]; omega)
  have hSound := h _ (fun raw hRaw => hRaws raw hRaw ▸ hBlock) x hx
  obtain ⟨hRaw, -⟩ := builds_mem (s := { cache := .fresh g }) (g := g) rfl hMade.colours.1 hx
  rw [hBase] at hSound
  rw [length_replicate] at hx'
  exact hSound.congr (hRaws _ hRaw).symm (by omega)

end Objects

namespace Kmem

def acList (k : Kmem) : List ℕ := (List.range k.cache.avail).map k.cache.entry

theorem acList_push (k : Kmem) (o : ℕ) (h : k.cache.avail < 16) :
    (k.push o).acList = k.acList ++ [o] := by
  have hAvail : (k.push o).cache.avail = k.cache.avail + 1 := add32_of_lt (by omega)
  rw [acList, acList, hAvail, range_succ, map_append, map_singleton]
  congr 1
  · refine map_congr_left fun i hi => ?_
    rw [mem_range] at hi
    exact update_of_ne hi.ne _ _
  · simp [push]

theorem avail_pop {k : Kmem} (h : k.cache.avail ≠ 0) (h' : k.cache.avail ≤ 16) :
    k.pop.2.cache.avail = k.cache.avail - 1 := sub32_of_le (by omega) (by omega)

theorem acList_pop (k : Kmem) (h : k.cache.avail ≠ 0) (h' : k.cache.avail ≤ 16) :
    k.acList = k.pop.2.acList ++ [k.pop.1] := by
  have hAvail : sub32 k.cache.avail 1 = k.cache.avail - 1 := sub32_of_le (by omega) (by omega)
  obtain ⟨n, hn⟩ := exists_eq_succ_of_ne_zero h
  rw [hn, succ_sub_one] at hAvail
  simp only [acList, pop, hn, hAvail, range_succ, map_append, map_singleton]

/-! ### The objects -/

/-- The memory of a cache: `fl` are the freelists of its slabs, `loan` the objects on loan. -/
structure Core (g : Geometry) (heap : ℕ) (k : Kmem) (slabs loan : List ℕ) (fl : ℕ → List ℕ) :
    Prop where
  geometry : k.cache.toGeometry = g
  colour : k.cache.colourNext < g.colourMax
  avail : k.cache.avail ≤ 16
  sound : ∀ b ∈ slabs, (k.slab b).Sound g b
  /-- The run lies in the block it was cut from, and the block in the heap. -/
  block : ∀ b ∈ slabs, heap ≤ (k.slab b).raw ∧ (k.slab b).raw ≤ b ∧
    b + g.slabSize ≤ (k.slab b).raw + 2 * g.slabSize ∧
    (k.slab b).raw + 2 * g.slabSize ≤ heap + 2 ^ 24
  chain : ∀ b ∈ slabs, (k.slab b).freelist = (fl b).head? ∧ Linked k.word (fl b)
  own : ∀ b ∈ slabs, ∀ o ∈ fl b, o ∈ g.objects b (k.slab b).colour
  inUse : ∀ b ∈ slabs, (k.slab b).inUse + (fl b).length = g.objsPerSlab
  /-- Every object is in one place. -/
  share : ∀ b ∈ slabs, ∀ o ∈ g.objects b (k.slab b).colour,
    (fl b).count o + k.acList.count o + loan.count o = 1
  held : ∀ o, o ∈ k.acList ∨ o ∈ loan → ∃ b ∈ slabs, o ∈ g.objects b (k.slab b).colour

/-- `s'` has the headers, apart from their links, and the array cache of `s`. -/
structure CoreFrame (s s' : Kmem) : Prop where
  header : ∀ q, (s'.slab q).raw = (s.slab q).raw ∧ (s'.slab q).freelist = (s.slab q).freelist ∧
    (s'.slab q).inUse = (s.slab q).inUse ∧ (s'.slab q).colour = (s.slab q).colour
  geometry : s'.cache.toGeometry = s.cache.toGeometry
  colourNext : s'.cache.colourNext = s.cache.colourNext
  avail : s'.cache.avail = s.cache.avail
  entry : s'.cache.entry = s.cache.entry
  word : s'.word = s.word

theorem LinkFrame.coreFrame {s s' : Kmem} (h : LinkFrame s s') : CoreFrame s s' where
  __ := h
  header q := by
    obtain ⟨hRaw, -, hRest⟩ := h.header q
    exact ⟨hRaw, hRest⟩

theorem CoreFrame.trans {s s' s'' : Kmem} (h : CoreFrame s s') (h' : CoreFrame s' s'') :
    CoreFrame s s'' where
  header q := by
    obtain ⟨h1, h2, h3, h4⟩ := h.header q
    obtain ⟨h1', h2', h3', h4'⟩ := h'.header q
    exact ⟨h1'.trans h1, h2'.trans h2, h3'.trans h3, h4'.trans h4⟩
  geometry := h'.geometry.trans h.geometry
  colourNext := h'.colourNext.trans h.colourNext
  avail := h'.avail.trans h.avail
  entry := h'.entry.trans h.entry
  word := h'.word.trans h.word

theorem coreFrame_incNum (s : Kmem) (w : Which) : CoreFrame s (s.incNum w) :=
  ⟨fun _ => ⟨rfl, rfl, rfl, rfl⟩, rfl, rfl, rfl, rfl, rfl⟩

theorem coreFrame_decNum (s : Kmem) (w : Which) : CoreFrame s (s.decNum w) :=
  ⟨fun _ => ⟨rfl, rfl, rfl, rfl⟩, rfl, rfl, rfl, rfl, rfl⟩

variable {g : Geometry} {heap : ℕ} {k k' : Kmem} {slabs loan : List ℕ} {fl : ℕ → List ℕ} {b o : ℕ}

/-- One slab of a cache, with its freelist. -/
structure Kept (g : Geometry) (heap : ℕ) (word : ℕ → Option ℕ) (b : ℕ) (t : Header) (fl : List ℕ) :
    Prop where
  sound : t.Sound g b
  block : heap ≤ t.raw ∧ t.raw ≤ b ∧ b + g.slabSize ≤ t.raw + 2 * g.slabSize ∧
    t.raw + 2 * g.slabSize ≤ heap + 2 ^ 24
  chain : t.freelist = fl.head? ∧ Linked word fl
  own : ∀ o ∈ fl, o ∈ g.objects b t.colour
  inUse : t.inUse + fl.length = g.objsPerSlab

theorem Core.kept (h : Core g heap k slabs loan fl) (hb : b ∈ slabs) :
    Kept g heap k.word b (k.slab b) (fl b) :=
  ⟨h.sound b hb, h.block b hb, h.chain b hb, h.own b hb, h.inUse b hb⟩

theorem Core.of_kept (hGeometry : k.cache.toGeometry = g)
    (hColour : k.cache.colourNext < g.colourMax)
    (hAvail : k.cache.avail ≤ 16) (hKept : ∀ b ∈ slabs, Kept g heap k.word b (k.slab b) (fl b))
    (hShare : ∀ b ∈ slabs, ∀ o ∈ g.objects b (k.slab b).colour,
      (fl b).count o + k.acList.count o + loan.count o = 1)
    (hHeld : ∀ o, o ∈ k.acList ∨ o ∈ loan → ∃ b ∈ slabs, o ∈ g.objects b (k.slab b).colour) :
    Core g heap k slabs loan fl :=
  ⟨hGeometry, hColour, hAvail, fun b hb => (hKept b hb).sound, fun b hb => (hKept b hb).block,
    fun b hb => (hKept b hb).chain, fun b hb => (hKept b hb).own, fun b hb => (hKept b hb).inUse,
    hShare, hHeld⟩

theorem Core.frame (h : Core g heap k slabs loan fl) (hF : CoreFrame k k') :
    Core g heap k' slabs loan fl := by
  have hAc : k'.acList = k.acList := by rw [acList, acList, hF.avail, hF.entry]
  refine .of_kept (by rw [hF.geometry, h.geometry]) (by rw [hF.colourNext]; exact h.colour)
    (by rw [hF.avail]; exact h.avail) (fun b hb => ?_) (fun b hb => ?_) fun o ho => ?_
  · obtain ⟨hRaw, hFree, hUse, hColour⟩ := hF.header b
    refine ⟨(h.sound b hb).congr hRaw hColour, ?_, ?_, ?_, ?_⟩
    · rw [hRaw]
      exact h.block b hb
    · rw [hFree, hF.word]
      exact h.chain b hb
    · rw [hColour]
      exact h.own b hb
    · rw [hUse]
      exact h.inUse b hb
  · rw [(hF.header b).2.2.2, hAc]
    exact h.share b hb
  · rw [hAc] at ho
    obtain ⟨b, hb, hMem⟩ := h.held o ho
    exact ⟨b, hb, by rwa [(hF.header b).2.2.2]⟩

section

variable (h : Core g heap k slabs loan fl) (hb : b ∈ slabs)
include h hb

theorem Core.nodup : (fl b).Nodup := by
  refine nodup_iff_count_le_one.mpr fun x => ?_
  by_cases hx : x ∈ fl b
  · have := h.share b hb x (h.own b hb x hx)
    omega
  · rw [count_eq_zero_of_not_mem hx]
    exact zero_le _

theorem Core.notMem_of_loan (hLoan : o ∈ loan) : o ∉ fl b := by
  intro hFree
  have hShare := h.share b hb o (h.own b hb o hFree)
  have hIn : 0 < (fl b).count o := count_pos_iff.mpr hFree
  have hOut : 0 < loan.count o := count_pos_iff.mpr hLoan
  omega

variable (ho : o ∈ g.objects b (k.slab b).colour)
include ho

theorem Core.owner : o &&& not64 (g.slabSize - 1) = b :=
  (h.sound b hb).owner ho

theorem Core.ne_of_slab_ne {b' o' : ℕ} (hb' : b' ∈ slabs)
    (ho' : o' ∈ g.objects b' (k.slab b').colour) (hNe : b' ≠ b) : o' ≠ o := by
  rintro rfl
  exact hNe ((h.owner hb' ho').symm.trans (h.owner hb ho))

theorem Core.length_lt (hFree : o ∉ fl b) : (fl b).length < g.objsPerSlab := by
  have hLe : (o :: fl b).length ≤ (g.objects b (k.slab b).colour).length := by
    refine ((nodup_cons.mpr ⟨hFree, h.nodup hb⟩).subperm fun x hx => ?_).length_le
    rcases mem_cons.mp hx with rfl | hx
    · exact ho
    · exact h.own b hb x hx
  simpa [objects, succ_le_iff] using hLe

end

theorem modify_keeps (f : Header → Header) (p : Header → α) (hf : ∀ t, p (f t) = p t) (k : Kmem)
    (b q : ℕ) : p ((k.modify b f).slab q) = p (k.slab q) := by
  rw [slab_modify]
  split_ifs with hq
  · rw [hq]
    exact hf _
  · rfl

section

variable (h : Core g heap k slabs loan fl)
include h

omit h in
theorem avail_takeFree (b o : ℕ) (hRoom : k.cache.avail < 16) :
    (k.takeFree b o).cache.avail = k.cache.avail + 1 := by
  refine add32_of_lt ?_
  rw [cache_modify]
  omega

theorem Core.take (hMade : g.Made) (hb : b ∈ slabs) {rest : List ℕ} (hFl : fl b = o :: rest)
    (hRoom : k.cache.avail < 16) : Core g heap (k.takeFree b o) slabs loan (update fl b rest) := by
  have hWord : k.word o = rest.head? := by
    have := (h.chain b hb).2
    rw [hFl] at this
    exact this.head
  have hSlab : ∀ q, (k.takeFree b o).slab q =
      if q = b then (k.slab b).lose rest.head? else k.slab q := by
    intro q
    rw [← hWord]
    exact slab_modify k b q _
  have hColour : ∀ q, ((k.takeFree b o).slab q).colour = (k.slab q).colour :=
    modify_keeps (.lose (k.word o)) Header.colour (fun _ => rfl) k b
  have hAc : (k.takeFree b o).acList = k.acList ++ [o] := acList_push (k.modify b _) o hRoom
  have hoMem : o ∈ g.objects b (k.slab b).colour := h.own b hb o (by simp [hFl])
  have hUse := h.inUse b hb
  rw [hFl, length_cons] at hUse
  refine .of_kept h.geometry h.colour ?_ (fun q hq => ?_) ?_ ?_
  · have := avail_takeFree b o hRoom
    omega
  · have hKept := h.kept hq
    rcases eq_or_ne q b with rfl | hNe
    · rw [hSlab, if_pos rfl, update_self]
      rw [hFl] at hKept
      refine ⟨hKept.sound.congr rfl rfl, hKept.block, ⟨rfl, hKept.chain.2.tail⟩,
        fun x hx => hKept.own x (mem_cons_of_mem o hx), ?_⟩
      have hObjs := hMade.objs.2
      rw [lose, add32_of_lt (by omega)]
      dsimp only
      omega
    · rw [hSlab, if_neg hNe, update_of_ne hNe]
      exact hKept
  · intro q hq x hx
    rw [hColour] at hx
    have hShare := h.share q hq x hx
    rw [hAc, count_append]
    rcases eq_or_ne q b with rfl | hNe
    · rw [update_self]
      rw [hFl, count_cons] at hShare
      rw [count_singleton]
      omega
    · have hxo : x ≠ o := h.ne_of_slab_ne hb hoMem hq hx hNe
      rw [update_of_ne hNe, count_singleton, if_neg (by simpa using hxo.symm)]
      omega
  · intro x hx
    rw [hAc, mem_append, mem_singleton] at hx
    rcases hx with (hx | rfl) | hx
    · obtain ⟨q, hq, hMem⟩ := h.held x (.inl hx)
      exact ⟨q, hq, by rwa [hColour]⟩
    · exact ⟨b, hb, by rwa [hColour]⟩
    · obtain ⟨q, hq, hMem⟩ := h.held x (.inr hx)
      exact ⟨q, hq, by rwa [hColour]⟩

theorem Core.pop (hAvail : k.cache.avail ≠ 0) :
    Core g heap k.pop.2 slabs (k.pop.1 :: loan) fl ∧ k.pop.1 ∉ loan := by
  have hAc := acList_pop k hAvail h.avail
  have hLess : k.pop.2.cache.avail ≤ 16 := by
    have := avail_pop hAvail h.avail
    have := h.avail
    omega
  constructor
  · refine { h with avail := hLess, share := ?_, held := ?_ }
    · intro q hq x hx
      have hShare := h.share q hq x hx
      rw [hAc, count_append, count_singleton] at hShare
      rw [count_cons]
      omega
    · intro x hx
      refine h.held x ?_
      rw [hAc, mem_append, mem_singleton]
      rcases hx with hx | hx
      · exact .inl (.inl hx)
      · rcases mem_cons.mp hx with rfl | hx
        · exact .inl (.inr rfl)
        · exact .inr hx
  · intro hLoan
    obtain ⟨q, hq, hMem⟩ := h.held k.pop.1 (.inr hLoan)
    have hShare := h.share q hq _ hMem
    have hIn : 0 < k.acList.count k.pop.1 := count_pos_iff.mpr (by simp [hAc])
    have hOut : 0 < loan.count k.pop.1 := count_pos_iff.mpr hLoan
    omega

theorem Core.push (hLoan : o ∈ loan) (hRoom : k.cache.avail < 16) :
    Core g heap (k.push o) slabs (loan.erase o) fl := by
  have hAc := acList_push k o hRoom
  have hAvail : (k.push o).cache.avail = k.cache.avail + 1 := add32_of_lt (by omega)
  refine { h with avail := by omega, share := ?_, held := ?_ }
  · intro q hq x hx
    have hShare := h.share q hq x hx
    have hMoved := (perm_cons_erase hLoan).count_eq x
    rw [count_cons] at hMoved
    rw [hAc, count_append, count_singleton]
    omega
  · intro x hx
    refine h.held x ?_
    rw [hAc, mem_append, mem_singleton] at hx
    rcases hx with (hx | rfl) | hx
    · exact .inl hx
    · exact .inr hLoan
    · exact .inr (mem_of_mem_erase hx)

theorem Core.putFree (hMade : g.Made) (hLoan : o ∈ loan) (hb : b ∈ slabs)
    (ho : o ∈ g.objects b (k.slab b).colour) :
    Core g heap (k.putFree b o) slabs (loan.erase o) (update fl b (o :: fl b)) := by
  have hSlab : ∀ q, (k.putFree b o).slab q =
      if q = b then (k.slab b).gain o else k.slab q := fun q => slab_modify _ b q _
  have hColour : ∀ q, ((k.putFree b o).slab q).colour = (k.slab q).colour :=
    modify_keeps (.gain o) Header.colour (fun _ => rfl) _ b
  have hFree : ∀ q ∈ slabs, o ∉ fl q := fun q hq => h.notMem_of_loan hq hLoan
  have hWord : ∀ q ∈ slabs, Linked (k.putFree b o).word (fl q) := by
    intro q hq
    refine (h.chain q hq).2.congr fun x hx => update_of_ne ?_ _ _
    rintro rfl
    exact hFree q hq hx
  have hLength := h.length_lt hb ho (hFree b hb)
  have hUse := h.inUse b hb
  have hObjs := hMade.objs.2
  refine .of_kept h.geometry h.colour h.avail (fun q hq => ?_) ?_ ?_
  · have hKept := h.kept hq
    rcases eq_or_ne q b with rfl | hNe
    · rw [hSlab, if_pos rfl, update_self]
      refine ⟨hKept.sound.congr rfl rfl, hKept.block, ⟨rfl, (hWord q hq).cons ?_⟩,
        forall_mem_cons.mpr ⟨ho, hKept.own⟩, ?_⟩
      · rw [← hKept.chain.1]
        exact update_self _ _ _
      · rw [gain, length_cons, sub32_of_le (by omega) (by omega)]
        dsimp only
        omega
    · rw [hSlab, if_neg hNe, update_of_ne hNe]
      exact { hKept with chain := ⟨hKept.chain.1, hWord q hq⟩ }
  · intro q hq x hx
    rw [hColour] at hx
    have hShare := h.share q hq x hx
    have hMoved := (perm_cons_erase hLoan).count_eq x
    rw [count_cons] at hMoved
    change (update fl b (o :: fl b) q).count x + k.acList.count x + _ = 1
    rcases eq_or_ne q b with rfl | hNe
    · rw [update_self, count_cons]
      omega
    · have hxo : x ≠ o := h.ne_of_slab_ne hb ho hq hx hNe
      rw [if_neg (by simpa using hxo.symm)] at hMoved
      rw [update_of_ne hNe]
      omega
  · intro x hx
    obtain ⟨q, hq, hMem⟩ := h.held x (hx.imp id mem_of_mem_erase)
    exact ⟨q, hq, by rwa [hColour]⟩

theorem Core.store (hLoan : o ∈ loan) (v : Option ℕ) :
    Core g heap { k with word := update k.word o v } slabs loan fl := by
  refine { h with chain := fun q hq => ⟨(h.chain q hq).1, ?_⟩ }
  refine (h.chain q hq).2.congr fun x hx => update_of_ne ?_ _ _
  rintro rfl
  exact h.notMem_of_loan hq hLoan hx

end

/-! ### A new slab -/

theorem chain_eq (hNodup : (g.objects b o).Nodup) (word : ℕ → Option ℕ) (n : ℕ)
    (hn : n ≤ g.objsPerSlab) (l : List ℕ) (hl : Linked word l) (hFree : ∀ i < n, g.obj b o i ∉ l) :
    (chain g b o n l.head? word).1 = ((range n).map (g.obj b o) ++ l).head? ∧
      Linked (chain g b o n l.head? word).2 ((range n).map (g.obj b o) ++ l) ∧
      ∀ x, (∀ i < n, g.obj b o i ≠ x) → (chain g b o n l.head? word).2 x = word x := by
  induction n generalizing word l with
  | zero => exact ⟨rfl, hl, fun _ _ => rfl⟩
  | succ n ih =>
    have hInj : ∀ i < n, g.obj b o i ≠ g.obj b o n := by
      intro i hi hEq
      have := inj_on_of_nodup_map hNodup (mem_range.mpr (by omega)) (mem_range.mpr (by omega)) hEq
      omega
    have hHere := hFree n (lt_succ_self n)
    have hLinked : Linked (update word (g.obj b o n) l.head?) (g.obj b o n :: l) := by
      refine Linked.cons (hl.congr fun x hx => update_of_ne ?_ _ _) (update_self _ _ _)
      rintro rfl
      exact hHere hx
    obtain ⟨hHead, hLink, hRest⟩ := ih (update word (g.obj b o n) l.head?) (by omega)
      (g.obj b o n :: l) hLinked fun i hi => by
        rw [mem_cons, not_or]
        exact ⟨hInj i hi, hFree i (by omega)⟩
    have hList : (range (n + 1)).map (g.obj b o) ++ l = (range n).map (g.obj b o) ++
        g.obj b o n :: l := by
      simp [range_succ]
    rw [hList]
    refine ⟨hHead, hLink, fun x hx => ?_⟩
    exact (hRest x fun i hi => hx i (by omega)).trans
      (update_of_ne (hx n (lt_succ_self n)).symm _ _)

theorem slab_carve (k : Kmem) (raw q : ℕ) (hq : q ≠ alignUp raw k.cache.slabSize) :
    (k.carve raw).slab q = k.slab q := by
  exact update_of_ne hq _ _

/-- A block that the heap can give to the cache now: inside the heap, and apart from the blocks
that the slabs were cut from. -/
def Spare (g : Geometry) (heap : ℕ) (k : Kmem) (slabs : List ℕ) (raw : ℕ) : Prop :=
  g.Block raw ∧ heap ≤ raw ∧ raw + 2 * g.slabSize ≤ heap + 2 ^ 24 ∧
    ∀ q ∈ slabs, raw + 2 * g.slabSize ≤ (k.slab q).raw ∨ (k.slab q).raw + 2 * g.slabSize ≤ raw

theorem Spare.run {raw : ℕ} (hMade : g.Made) (h : Spare g heap k slabs raw) :
    raw ≤ alignUp raw g.slabSize ∧ alignUp raw g.slabSize < raw + g.slabSize := by
  obtain ⟨n, hn, hRun⟩ := hMade.run
  obtain ⟨⟨-, hBlock⟩, -⟩ := h
  have hPos := Nat.two_pow_pos n
  rw [hRun] at hBlock ⊢
  rw [alignUp_two_pow (by omega) (by omega)]
  exact roundUp_bounds hPos

theorem Core.notMem_of_spare {raw : ℕ} (h : Core g heap k slabs loan fl) (hMade : g.Made)
    (hSpare : Spare g heap k slabs raw) : alignUp raw g.slabSize ∉ slabs := by
  intro hMem
  obtain ⟨hLow, hHigh⟩ := hSpare.run hMade
  have hBlock := h.block _ hMem
  rcases hSpare.2.2.2 _ hMem with hApart | hApart <;> omega

theorem Core.carve {raw : ℕ} (h : Core g heap k slabs loan fl) (hMade : g.Made)
    (hSound : (fresh g).Sound) (hSpare : Spare g heap k slabs raw)
    (hb : b = alignUp raw g.slabSize) :
    Core g heap (k.carve raw) (b :: slabs) loan (update fl b (g.objects b k.cache.colourNext)) := by
  have hGeom := h.geometry
  have hNew : b ∉ slabs := hb ▸ h.notMem_of_spare hMade hSpare
  have hNe : ∀ q ∈ slabs, q ≠ b := fun q hq hEq => hNew (hEq ▸ hq)
  obtain ⟨hRaw, hColour⟩ := header_carve k raw
  obtain ⟨hLow, hHigh⟩ := hSpare.run hMade
  have hBase : b = alignUp raw k.cache.slabSize := by rw [hGeom, hb]
  rw [← hBase] at hRaw hColour
  rw [← hb] at hLow hHigh
  have hSlab : ∀ q ∈ slabs, (k.carve raw).slab q = k.slab q := fun q hq =>
    slab_carve k raw q (hBase ▸ hNe q hq)
  have hSoundB : ((k.carve raw).slab b).Sound g b := by
    have := hSound.header hMade (t := (k.carve raw).slab b) (by rw [hRaw]; exact hSpare.1)
      (by rw [hColour]; exact h.colour)
    rwa [hRaw, ← hb] at this
  have hNodup := hSoundB.nodup
  have hOwner : ∀ x ∈ g.objects b k.cache.colourNext, x &&& not64 (g.slabSize - 1) = b := by
    rw [← hColour]
    exact fun x hx => hSoundB.owner hx
  rw [hColour] at hNodup
  -- no object of another slab is among the new ones
  have hOther : ∀ q ∈ slabs, ∀ x ∈ g.objects q (k.slab q).colour,
      x ∉ g.objects b k.cache.colourNext := fun q hq x hx hx' =>
    hNe q hq ((h.owner hq hx).symm.trans (hOwner x hx'))
  obtain ⟨hHead, hLinked, hRest⟩ := chain_eq hNodup k.word g.objsPerSlab le_rfl [] (linked_nil _)
    (by simp)
  rw [append_nil] at hHead hLinked
  have hWord : (k.carve raw).word =
      (Kmem.chain g b k.cache.colourNext g.objsPerSlab none k.word).2 := by
    unfold Kmem.carve
    dsimp only
    rw [hGeom, ← hb]
  have hFirst : ((k.carve raw).slab b).freelist =
      (Kmem.chain g b k.cache.colourNext g.objsPerSlab none k.word).1 ∧
      ((k.carve raw).slab b).inUse = 0 := by
    unfold Kmem.carve
    dsimp only
    rw [hGeom, ← hb, update_self]
    exact ⟨rfl, rfl⟩
  have hAc : (k.carve raw).acList = k.acList := rfl
  refine .of_kept hGeom ?_ h.avail (fun q hq => ?_) ?_ ?_
  · have hNext : (k.carve raw).cache.colourNext = add32 k.cache.colourNext 1 % k.cache.colourMax :=
      rfl
    rw [hNext, hGeom]
    exact mod_lt _ hMade.colours.1
  · rcases mem_cons.mp hq with rfl | hq
    · rw [update_self]
      refine ⟨hSoundB, ?_, ⟨hFirst.1.trans hHead, hWord ▸ hLinked⟩, fun x hx => by rwa [hColour],
        ?_⟩
      · rw [hRaw]
        exact ⟨hSpare.2.1, hLow, by omega, hSpare.2.2.1⟩
      · rw [hFirst.2]
        simp [objects]
    · have hKept := h.kept hq
      rw [hSlab q hq, update_of_ne (hNe q hq), hWord]
      refine { hKept with chain := ⟨hKept.chain.1,
        hKept.chain.2.congr fun x hx => hRest x fun i hi hEq => ?_⟩ }
      exact hOther q hq x (hKept.own x hx) (mem_objects.mpr ⟨i, hi, hEq⟩)
  · intro q hq x hx
    rw [hAc]
    rcases mem_cons.mp hq with rfl | hq
    · rw [hColour] at hx
      rw [update_self, count_eq_one_of_mem hNodup hx]
      have hOut : ¬ (x ∈ k.acList ∨ x ∈ loan) := by
        intro hHeld
        obtain ⟨p, hp, hMem⟩ := h.held x hHeld
        exact hOther p hp x hMem hx
      rw [not_or] at hOut
      rw [count_eq_zero_of_not_mem hOut.1, count_eq_zero_of_not_mem hOut.2]
    · rw [hSlab q hq] at hx
      rw [update_of_ne (hNe q hq)]
      exact h.share q hq x hx
  · intro x hx
    obtain ⟨q, hq, hMem⟩ := h.held x hx
    exact ⟨q, mem_cons_of_mem _ hq, by rwa [hSlab q hq]⟩

/-! ### The lists -/

structure Counted (k : Kmem) (l : Which → List ℕ) : Prop where
  lists : k.Lists l
  num : ∀ w, k.cache.num w = (l w).length

structure Placed (k : Kmem) (slabs : List ℕ) (l : Which → List ℕ) (fl : ℕ → List ℕ) : Prop where
  counted : k.Counted l
  noFree : l .slabsFree = []
  mem : ∀ b, b ∈ slabs ↔ b ∈ l .slabsFull ∨ b ∈ l .slabsPartial
  full : ∀ b ∈ l .slabsFull, fl b = []
  partly : ∀ b ∈ l .slabsPartial, fl b ≠ []

variable {l : Which → List ℕ} {w : Which}

theorem Core.length_le (h : Core g heap k slabs loan fl) (hMade : g.Made) {bs : List ℕ}
    (hNodup : bs.Nodup) (hMem : ∀ b ∈ bs, b ∈ slabs) : bs.length ≤ 2 ^ 24 := by
  have hSub : bs.toFinset ⊆ Finset.Ico heap (heap + 2 ^ 24) := by
    intro b hb
    have := h.block b (hMem b (mem_toFinset.mp hb))
    obtain ⟨n, -, hRun⟩ := hMade.run
    have hPos := Nat.two_pow_pos n
    rw [Finset.mem_Ico]
    omega
  have hCard := Finset.card_le_card hSub
  rwa [toFinset_card_of_nodup hNodup, Nat.card_Ico, Nat.add_sub_cancel_left] at hCard

theorem Counted.congr (h : Counted k l) (hSlab : ∀ q, (k'.slab q).next = (k.slab q).next ∧
      (k'.slab q).prev = (k.slab q).prev) (hHead : k'.cache.head = k.cache.head)
    (hNum : k'.cache.num = k.cache.num) : Counted k' l :=
  ⟨h.lists.congr (fun _ q _ => hSlab q) hHead, fun w => by rw [hNum, h.num]⟩

theorem Counted.del (h : Counted k l) (hb : b ∈ l w) (hLength : (l w).length < 2 ^ 32) :
    Counted ((k.slabListDel w b).decNum w) (update l w ((l w).erase b)) := by
  refine ⟨(h.lists.del hb).congr (fun _ _ _ => ⟨rfl, rfl⟩) rfl, fun w' => ?_⟩
  have hNum : ((k.slabListDel w b).decNum w).cache.num =
      update k.cache.num w (sub32 (k.cache.num w) 1) := by
    rw [← (linkFrame_slabListDel k w b).num]
    rfl
  have hPos := length_pos_of_mem hb
  rw [hNum]
  rcases eq_or_ne w' w with rfl | hw
  · rw [update_self, update_self, h.num, length_erase_of_mem hb, sub32_of_le hPos hLength]
  · rw [update_of_ne hw, update_of_ne hw, h.num]

theorem Counted.add (h : Counted k l) (hb : ∀ w, b ∉ l w) (hLength : (l w).length + 1 < 2 ^ 32) :
    Counted ((k.slabListAdd w b).incNum w) (update l w (b :: l w)) := by
  refine ⟨(h.lists.add w hb).congr (fun _ _ _ => ⟨rfl, rfl⟩) rfl, fun w' => ?_⟩
  have hNum : ((k.slabListAdd w b).incNum w).cache.num =
      update k.cache.num w (add32 (k.cache.num w) 1) := by
    rw [← (linkFrame_slabListAdd k w b).num]
    rfl
  rw [hNum]
  rcases eq_or_ne w' w with rfl | hw
  · rw [update_self, update_self, h.num, length_cons, add32_of_lt hLength]
  · rw [update_of_ne hw, update_of_ne hw, h.num]

theorem decNum_slabListAdd (k : Kmem) (w w' : Which) (b : ℕ) :
    (k.slabListAdd w b).decNum w' = (k.decNum w').slabListAdd w b := by
  unfold slabListAdd linkBefore
  dsimp only [cache_modify, decNum]
  cases k.cache.head w <;> rfl

theorem Placed.of_mem (h : Placed k slabs l fl) (hb : b ∈ l w) : b ∈ slabs := by
  rw [h.mem]
  cases w with
  | slabsFull => exact .inl hb
  | slabsPartial => exact .inr hb
  | slabsFree => simp [h.noFree] at hb

/-- A slab changes to a list other than that of the free slabs: `mid` is what happens to its
freelist between the two halves of the change. -/
theorem Placed.move {w' : Which} {mid : Kmem} {fl' : ℕ → List ℕ} (h : Placed k slabs l fl)
    (hb : b ∈ l w) (hw : w' ≠ .slabsFree) (hLength : ∀ w, (l w).length < 2 ^ 24 + 1)
    (hMid : Counted ((k.slabListDel w b).decNum w) (update l w ((l w).erase b)) →
      Counted mid (update l w ((l w).erase b))) (hOther : ∀ q ≠ b, fl' q = fl q)
    (hHere : (w' = .slabsFull → fl' b = []) ∧ (w' = .slabsPartial → fl' b ≠ [])) :
    ∃ l', Placed ((mid.slabListAdd w' b).incNum w') slabs l' fl' := by
  set l1 := update l w ((l w).erase b) with hl1
  have hErase : ∀ v, l1 v = (l v).erase b := by
    intro v
    rcases eq_or_ne v w with rfl | hv
    · rw [hl1, update_self]
    · have hNot : b ∉ l v := fun hMem => hv (h.counted.lists.apart v w b hMem hb)
      rw [hl1, update_of_ne hv, erase_of_not_mem hNot]
  have hGone : ∀ v, b ∉ l1 v := by
    intro v
    rw [hErase]
    exact (h.counted.lists.nodup v).not_mem_erase
  have hLe : (l1 w').length ≤ (l w').length := by
    rw [hErase]
    exact erase_sublist.length_le
  have hw' := hLength w'
  have hCounted := (hMid (h.counted.del hb (by have := hLength w; omega))).add hGone
    (w := w') (by omega)
  have hKeep : ∀ v q, q ≠ b → (q ∈ update l1 w' (b :: l1 w') v ↔ q ∈ l v) := by
    intro v q hq
    rcases eq_or_ne v w' with rfl | hv
    · rw [update_self, mem_cons, or_iff_right hq, hErase, mem_erase_of_ne hq]
    · rw [update_of_ne hv, hErase, mem_erase_of_ne hq]
  have hMemB : ∀ v, b ∈ update l1 w' (b :: l1 w') v ↔ v = w' := by
    intro v
    rcases eq_or_ne v w' with rfl | hv
    · simp
    · rw [update_of_ne hv]
      exact iff_of_false (hGone v) hv
  refine ⟨_, hCounted, ?_, ?_, ?_, ?_⟩
  · rw [update_of_ne hw.symm, hErase, h.noFree]
    rfl
  · intro q
    rcases eq_or_ne q b with rfl | hq
    · rw [hMemB, hMemB]
      refine iff_of_true (h.of_mem hb) ?_
      cases w' with
      | slabsFull => exact .inl rfl
      | slabsPartial => exact .inr rfl
      | slabsFree => exact absurd rfl hw
    · rw [hKeep _ q hq, hKeep _ q hq, h.mem]
  · intro q hMem
    rcases eq_or_ne q b with rfl | hq
    · exact hHere.1 ((hMemB _).mp hMem).symm
    · rw [hOther q hq]
      exact h.full q ((hKeep _ q hq).mp hMem)
  · intro q hMem
    rcases eq_or_ne q b with rfl | hq
    · exact hHere.2 ((hMemB _).mp hMem).symm
    · rw [hOther q hq]
      exact h.partly q ((hKeep _ q hq).mp hMem)

/-! ### The loops -/

/-- The invariant of a cache: `slabs` are the slabs built for it, `loan` the objects on loan. -/
def Inv (g : Geometry) (heap : ℕ) (k : Kmem) (slabs loan : List ℕ) : Prop :=
  ∃ l fl, Core g heap k slabs loan fl ∧ Placed k slabs l fl

theorem Inv.length_lt (hMade : g.Made) (h : Core g heap k slabs loan fl) (hp : Placed k slabs l fl)
    (w : Which) : (l w).length < 2 ^ 24 + 1 :=
  lt_succ_of_le (h.length_le hMade (hp.counted.lists.nodup w) fun _ hb => hp.of_mem hb)

theorem Inv.limit (hMade : g.Made) (h : Inv g heap k slabs loan) : k.cache.limit = 16 := by
  obtain ⟨l, fl, hc, -⟩ := h
  rw [hc.geometry, hMade.limit]

theorem Inv.refill (hMade : g.Made) (n : ℕ) (hc : Core g heap k slabs loan fl)
    (hp : Placed k slabs l fl) (hb : b ∈ l .slabsPartial) (hSome : n ≠ 0 ∨ k.cache.avail ≠ 0) :
    Inv g heap (k.refill b n) slabs loan ∧ (k.refill b n).cache.avail ≠ 0 := by
  induction n generalizing k fl with
  | zero => exact ⟨⟨l, fl, hc, hp⟩, hSome.resolve_left (by simp)⟩
  | succ n ih =>
    have hSlab := hp.of_mem hb
    obtain ⟨o, rest, hFl⟩ := exists_cons_of_ne_nil (hp.partly b hb)
    have hHead : (k.slab b).freelist = some o := by rw [(hc.chain b hSlab).1, hFl, head?_cons]
    rw [refill, hHead]
    dsimp only
    rw [limit hMade ⟨l, fl, hc, hp⟩]
    split
    · rename_i hRoom
      have hc' := hc.take hMade hSlab hFl hRoom
      have hAvail : (k.takeFree b o).cache.avail ≠ 0 := by
        rw [avail_takeFree b o hRoom]
        omega
      have hCounted : Counted (k.takeFree b o) l := by
        refine hp.counted.congr (fun q => ⟨?_, ?_⟩) rfl rfl
        · exact modify_keeps (.lose (k.word o)) next (fun _ => rfl) k b q
        · exact modify_keeps (.lose (k.word o)) prev (fun _ => rfl) k b q
      have hNext : ((k.takeFree b o).slab b).freelist = rest.head? := by
        rw [(hc'.chain b hSlab).1, update_self]
      rw [hNext]
      split_ifs with hLast
      · rw [head?_eq_none_iff] at hLast
        subst hLast
        -- the slab is full: it changes lists
        have hFrame : CoreFrame (k.takeFree b o) ((k.takeFree b o).toFull b) :=
          (((linkFrame_slabListDel _ .slabsPartial b).trans
            (linkFrame_slabListAdd _ .slabsFull b)).coreFrame.trans (coreFrame_decNum _ _)).trans
            (coreFrame_incNum _ _)
        have hPlaced : Placed (k.takeFree b o) slabs l fl := { hp with counted := hCounted }
        obtain ⟨l', hl'⟩ := hPlaced.move hb (show Which.slabsFull ≠ .slabsFree by decide)
          (fun w => length_lt hMade hc hp w) id (fun q hq => update_of_ne hq [] fl)
          ⟨fun _ => update_self _ _ _, by simp⟩
        rw [← decNum_slabListAdd] at hl'
        refine ⟨⟨l', _, hc'.frame hFrame, hl'⟩, ?_⟩
        rw [hFrame.avail]
        exact hAvail
      · have hPlaced : Placed (k.takeFree b o) slabs l (update fl b rest) := by
          refine ⟨hCounted, hp.noFree, hp.mem, fun q hq => ?_, fun q hq => ?_⟩
          · have hNe : q ≠ b := by
              rintro rfl
              exact absurd (hp.counted.lists.apart _ _ q hq hb) (by decide)
            rw [update_of_ne hNe]
            exact hp.full q hq
          · rcases eq_or_ne q b with rfl | hNe
            · rw [update_self]
              rintro rfl
              exact hLast rfl
            · rw [update_of_ne hNe]
              exact hp.partly q hq
        exact ih hc' hPlaced (.inr hAvail)
    · exact ⟨⟨l, fl, hc, hp⟩, by omega⟩

theorem Inv.mem_listOf (hc : Core g heap k slabs loan fl) (hp : Placed k slabs l fl)
    (hb : b ∈ slabs) (hUsed : (fl b).length < g.objsPerSlab) : b ∈ l (k.listOf b) := by
  have hUse := hc.inUse b hb
  have hObjs : k.cache.objsPerSlab = g.objsPerSlab := by rw [hc.geometry]
  unfold listOf
  rcases (hp.mem b).mp hb with hMem | hMem
  · have hNil : (fl b).length = 0 := by rw [hp.full b hMem, length_nil]
    rw [if_pos (by omega)]
    exact hMem
  · have hPos : 0 < (fl b).length := length_pos_iff.mpr (hp.partly b hMem)
    rw [if_neg (by omega), if_neg (by omega)]
    exact hMem

theorem Inv.giveBack (hMade : g.Made) (h : Inv g heap k slabs loan) (ho : o ∈ loan) :
    Inv g heap (k.giveBack o) slabs (loan.erase o) ∧
    (k.giveBack o).cache.avail = k.cache.avail := by
  obtain ⟨l, fl, hc, hp⟩ := h
  obtain ⟨b, hb, hObj⟩ := hc.held o (.inr ho)
  have hOwner : o &&& not64 (k.cache.slabSize - 1) = b := by rw [hc.geometry, hc.owner hb hObj]
  have hUsed := hc.length_lt hb hObj (hc.notMem_of_loan hb ho)
  have hIn := mem_listOf hc hp hb hUsed
  unfold Kmem.giveBack
  rw [hOwner]
  set w := k.listOf b
  have hDel : CoreFrame k ((k.slabListDel w b).decNum w) :=
    (linkFrame_slabListDel k w b).coreFrame.trans (coreFrame_decNum _ w)
  have hc1 := hc.frame hDel
  have hc2 := hc1.putFree hMade ho hb (by rwa [(hDel.header b).2.2.2])
  set mid := ((k.slabListDel w b).decNum w).putFree b o with hMid
  have hUse : (mid.slab b).inUse ≠ mid.cache.objsPerSlab := by
    have := hc2.inUse b hb
    rw [update_self, length_cons] at this
    rw [hc2.geometry]
    omega
  rw [slabRehome, if_neg hUse]
  have hAdd : CoreFrame mid ((mid.slabListAdd .slabsPartial b).incNum .slabsPartial) :=
    (linkFrame_slabListAdd mid _ b).coreFrame.trans (coreFrame_incNum _ _)
  have hLinks : ∀ q, (mid.slab q).next = (((k.slabListDel w b).decNum w).slab q).next ∧
      (mid.slab q).prev = (((k.slabListDel w b).decNum w).slab q).prev := fun q =>
    ⟨modify_keeps (.gain o) next (fun _ => rfl) _ b q,
      modify_keeps (.gain o) prev (fun _ => rfl) _ b q⟩
  obtain ⟨l', hl'⟩ := hp.move hIn (show Which.slabsPartial ≠ .slabsFree by decide)
    (fun w => length_lt hMade hc hp w)
    (fun hCounted => (hCounted.congr hLinks rfl rfl : Counted mid _))
    (fun q hq => update_of_ne hq (o :: fl b) fl)
    ⟨by simp, fun _ => by simp⟩
  refine ⟨⟨l', _, hc2.frame hAdd, hl'⟩, ?_⟩
  rw [hAdd.avail]
  exact hDel.avail

theorem Inv.drain (hMade : g.Made) (n : ℕ) (h : Inv g heap k slabs loan) (hn : k.cache.avail = n) :
    Inv g heap (k.drain n) slabs loan ∧ (k.drain n).cache.avail = 0 := by
  induction n generalizing k with
  | zero => exact ⟨h, hn⟩
  | succ n ih =>
    obtain ⟨l, fl, hc, hp⟩ := h
    obtain ⟨hc', -⟩ := hc.pop (by omega)
    have hPlaced : Placed k.pop.2 slabs l fl :=
      { hp with counted := hp.counted.congr (fun _ => ⟨rfl, rfl⟩) rfl rfl }
    have hAvail := avail_pop (k := k) (by omega) hc.avail
    obtain ⟨hInv, hKeep⟩ := giveBack hMade ⟨l, fl, hc', hPlaced⟩ (o := k.pop.1) mem_cons_self
    rw [erase_cons_head] at hInv
    have hRest := ih hInv (by omega)
    exact hRest

/-! ### The operations -/

/-- Whether `kmem_cache_alloc` needs a new slab. -/
def grows (k : Kmem) : Bool := k.ready && k.cache.avail = 0 && k.cache.head .slabsPartial = none

section

variable (h : Inv g heap k slabs loan)
include h

theorem Inv.pop (hAvail : k.cache.avail ≠ 0) :
    Inv g heap k.pop.2 slabs (k.pop.1 :: loan) ∧ k.pop.1 ∉ loan := by
  obtain ⟨l, fl, hc, hp⟩ := h
  obtain ⟨hc', hNot⟩ := hc.pop hAvail
  exact ⟨⟨l, fl, hc', { hp with counted := hp.counted.congr (fun _ => ⟨rfl, rfl⟩) rfl rfl }⟩, hNot⟩

theorem Inv.push (ho : o ∈ loan) (hRoom : k.cache.avail < 16) :
    Inv g heap (k.push o) slabs (loan.erase o) := by
  obtain ⟨l, fl, hc, hp⟩ := h
  exact ⟨l, fl, hc.push ho hRoom,
    { hp with counted := hp.counted.congr (fun _ => ⟨rfl, rfl⟩) rfl rfl }⟩

theorem Inv.store (ho : o ∈ loan) (v : Option ℕ) :
    Inv g heap { k with word := update k.word o v } slabs loan := by
  obtain ⟨l, fl, hc, hp⟩ := h
  exact ⟨l, fl, hc.store ho v,
    { hp with counted := hp.counted.congr (fun _ => ⟨rfl, rfl⟩) rfl rfl }⟩

end

theorem Inv.slabGrow {raw : ℕ} (hMade : g.Made) (hSound : (fresh g).Sound)
    (hc : Core g heap k slabs loan fl) (hp : Placed k slabs l fl)
    (hSpare : Spare g heap k slabs raw) : let r := k.slabGrow raw
    ∃ l' fl', Core g heap r.2 (r.1 :: slabs) loan fl' ∧ Placed r.2 (r.1 :: slabs) l' fl' ∧
      r.1 ∈ l' .slabsPartial := by
  have hBase : (k.slabGrow raw).1 = alignUp raw g.slabSize := by rw [base_slabGrow, hc.geometry]
  set b := (k.slabGrow raw).1
  have hNew : b ∉ slabs := hBase ▸ hc.notMem_of_spare hMade hSpare
  have hNe : ∀ q ∈ slabs, q ≠ b := fun q hq hEq => hNew (hEq ▸ hq)
  have hc' := hc.carve hMade hSound hSpare hBase
  have hFrame : CoreFrame (k.carve raw) (k.slabGrow raw).2 :=
    (linkFrame_slabListAdd (k.carve raw) .slabsPartial b).coreFrame.trans (coreFrame_incNum _ _)
  have hCounted : Counted (k.carve raw) l := by
    refine ⟨hp.counted.lists.congr (fun w q hq => ?_) rfl, hp.counted.num⟩
    rw [slab_carve k raw q (hNe q (hp.of_mem hq))]
    exact ⟨rfl, rfl⟩
  have hLength := length_lt hMade hc hp .slabsPartial
  have hAdded := hCounted.add (w := .slabsPartial) (fun w hb => hNew (hp.of_mem hb)) (by omega)
  have hObjs : g.objects b k.cache.colourNext ≠ [] := by
    have := hMade.objs.1
    simp only [objects, ne_eq, map_eq_nil_iff, range_eq_nil]
    omega
  refine ⟨_, _, hc'.frame hFrame, ⟨hAdded, ?_, ?_, ?_, ?_⟩, ?_⟩
  · exact hp.noFree
  · intro q
    rw [update_self, update_of_ne (by decide), mem_cons, mem_cons, hp.mem]
    tauto
  · intro q hq
    rw [update_of_ne (hNe q (hp.of_mem hq))]
    exact hp.full q hq
  · intro q hq
    rw [update_self, mem_cons] at hq
    rcases hq with rfl | hq
    · rw [update_self]
      exact hObjs
    · rw [update_of_ne (hNe q (hp.of_mem hq))]
      exact hp.partly q hq
  · exact mem_cons_self

/-- What `kmem_cache_alloc` does: it fails and changes nothing, or hands out an object that was not
on loan. -/
theorem Inv.kmemCacheAlloc {raw : Option ℕ} (hMade : g.Made) (hSound : (fresh g).Sound)
    (h : Inv g heap k slabs loan) (hSpare : ∀ r ∈ raw, Spare g heap k slabs r) :
    k.kmemCacheAlloc raw = none ∨ k.kmemCacheAlloc raw = some (none, k) ∨
      ∃ o k', k.kmemCacheAlloc raw = some (some o, k') ∧ o ∉ loan ∧
        Inv g heap k' ((if k.grows then raw.toList.map (alignUp · g.slabSize) else []) ++ slabs)
          (o :: loan) := by
  unfold Kmem.kmemCacheAlloc
  by_cases hReady : k.ready
  · rw [if_neg (by simp [hReady])]
    by_cases hAvail : k.cache.avail ≠ 0
    · rw [if_pos hAvail]
      obtain ⟨hInv, hNot⟩ := h.pop hAvail
      refine .inr (.inr ⟨_, _, rfl, hNot, ?_⟩)
      rw [if_neg (by simp [grows, hAvail])]
      exact hInv
    · rw [if_neg hAvail]
      obtain ⟨l, fl, hc, hp⟩ := h
      cases hHead : k.cache.head .slabsPartial with
      | some b =>
        have hb : b ∈ l .slabsPartial := by
          rw [hp.counted.lists.head] at hHead
          exact mem_of_mem_head? hHead
        obtain ⟨hInv, hSome⟩ := refill hMade acBatch hc hp hb (.inl (by decide))
        obtain ⟨hPop, hNot⟩ := hInv.pop hSome
        refine .inr (.inr ⟨_, _, rfl, hNot, ?_⟩)
        rw [if_neg (by simp [grows, hHead])]
        exact hPop
      | none =>
        cases raw with
        | none =>
          dsimp only
          split
          · exact .inl rfl
          · exact .inr (.inl rfl)
        | some r =>
          obtain ⟨l', fl', hc', hp', hb⟩ := slabGrow hMade hSound hc hp (hSpare r rfl)
          obtain ⟨hInv, hSome⟩ := refill hMade acBatch hc' hp' hb (.inl (by decide))
          obtain ⟨hPop, hNot⟩ := hInv.pop hSome
          refine .inr (.inr ⟨_, _, rfl, hNot, ?_⟩)
          have hGrows : k.grows := by simpa [grows, hReady, hHead] using hAvail
          have hSlabs : (some r).toList.map (alignUp · g.slabSize) ++ slabs =
              (k.slabGrow r).1 :: slabs := by
            rw [base_slabGrow, hc.geometry]
            rfl
          rw [if_pos hGrows, hSlabs]
          exact hPop
  · rw [if_pos (by simp [hReady])]
    exact .inr (.inl rfl)

/-- `kmem_cache_free` of an object on loan never panics and takes the object back. -/
theorem Inv.kmemCacheFree (hMade : g.Made) (h : Inv g heap k slabs loan) (ho : o ∈ loan) :
    ∃ k', k.kmemCacheFree o = some k' ∧ Inv g heap k' slabs (loan.erase o) := by
  have hLimit := h.limit hMade
  unfold Kmem.kmemCacheFree
  by_cases hRoom : k.cache.avail < 16
  · rw [if_pos (by rwa [hLimit])]
    exact ⟨_, rfl, h.push ho hRoom⟩
  · rw [if_neg (by rwa [hLimit])]
    obtain ⟨hInv, hZero⟩ := h.drain hMade _ rfl
    have hLimit' := hInv.limit hMade
    rw [if_pos (by omega)]
    exact ⟨_, rfl, hInv.push ho (by omega)⟩

end Kmem

/-! ### Runs -/

/-- A cache at work: the slabs built for it and the objects that callers hold. -/
structure Sys where
  kmem : Kmem
  slabs : List ℕ := []
  loan : List ℕ := []

/-- An allocation, for which the heap has the block `raw` or none, a free, and a store to the first
word of an object. -/
inductive Op
  | alloc (raw : Option ℕ)
  | free (o : ℕ)
  | store (o : ℕ) (v : Option ℕ)

namespace Sys

/-- Callers free and use only what they hold, and the heap gives only what is not in use. -/
def Allowed (g : Geometry) (heap : ℕ) (s : Sys) : Op → Prop
  | .alloc raw => ∀ r ∈ raw, Kmem.Spare g heap s.kmem s.slabs r
  | .free o => o ∈ s.loan
  | .store o _ => o ∈ s.loan

def exec (s : Sys) : Op → Sys
  | .alloc raw =>
    match s.kmem.kmemCacheAlloc raw with
    | none => s
    | some (none, k) => { s with kmem := k }
    | some (some o, k) =>
      { kmem := k, loan := o :: s.loan
        slabs := (if s.kmem.grows then raw.toList.map (alignUp · s.kmem.cache.slabSize) else []) ++
          s.slabs }
  | .free o =>
    match s.kmem.kmemCacheFree o with
    | none => s
    | some k => { s with kmem := k, loan := s.loan.erase o }
  | .store o v => { s with kmem := { s.kmem with word := Function.update s.kmem.word o v } }

instance (g : Geometry) (heap : ℕ) (k : Kmem) (slabs : List ℕ) (raw : ℕ) :
    Decidable (Kmem.Spare g heap k slabs raw) := inferInstanceAs (Decidable (_ ∧ _ ∧ _ ∧ _))

instance (g : Geometry) (heap : ℕ) (s : Sys) : ∀ op, Decidable (s.Allowed g heap op)
  | .alloc none => .isTrue fun _ h => absurd h (by simp)
  | .alloc (some raw) => decidable_of_iff (Kmem.Spare g heap s.kmem s.slabs raw) (by simp [Allowed])
  | .free o => inferInstanceAs (Decidable (o ∈ s.loan))
  | .store o _ => inferInstanceAs (Decidable (o ∈ s.loan))

variable {g : Geometry} {heap : ℕ} {s : Sys}

theorem inv_exec (hMade : g.Made) (hSound : (fresh g).Sound) {op : Op}
    (h : s.kmem.Inv g heap s.slabs s.loan) (hOp : s.Allowed g heap op) :
    (s.exec op).kmem.Inv g heap (s.exec op).slabs (s.exec op).loan := by
  cases op with
  | alloc raw =>
    have hSize : s.kmem.cache.slabSize = g.slabSize := by
      obtain ⟨l, fl, hc, -⟩ := h
      rw [hc.geometry]
    rw [exec]
    rcases h.kmemCacheAlloc hMade hSound hOp with hNone | hNone | ⟨o, k', hSome, -, hInv⟩
    · simpa only [hNone] using h
    · simpa only [hNone] using h
    · simpa only [hSome, hSize] using hInv
  | free o =>
    obtain ⟨k', hSome, hInv⟩ := h.kmemCacheFree hMade hOp
    rw [exec]
    simpa only [hSome] using hInv
  | store o v => exact h.store hOp v

/-- The cache of a system: `full` and `partly` are its lists of slabs, `free` the freelists. -/
structure Owned (g : Geometry) (s : Sys) (full partly : List ℕ) (free : ℕ → List ℕ) : Prop where
  fullList : s.kmem.cache.head .slabsFull = full.head? ∧ DLinked s.kmem.nexts s.kmem.prevs full
  partialList : s.kmem.cache.head .slabsPartial = partly.head? ∧
    DLinked s.kmem.nexts s.kmem.prevs partly
  freelist : ∀ b ∈ s.slabs, (s.kmem.slab b).freelist = (free b).head? ∧ Linked s.kmem.word (free b)
  /-- Every object is in one place: on its slab's freelist, in the array cache or on loan. -/
  once : ∀ b ∈ s.slabs, ∀ o ∈ g.objects b (s.kmem.slab b).colour,
    (free b).count o + s.kmem.acList.count o + s.loan.count o = 1
  inUse : ∀ b ∈ s.slabs, (s.kmem.slab b).inUse =
    ((g.objects b (s.kmem.slab b).colour).filter (· ∉ free b)).length
  onPartial : ∀ b ∈ s.slabs, b ∈ partly ↔ free b ≠ []
  onFull : ∀ b ∈ s.slabs, b ∈ full ↔ free b = []
  slabs : full.Nodup ∧ partly.Nodup ∧ ∀ b, b ∈ full ∨ b ∈ partly → b ∈ s.slabs
  numFull : s.kmem.cache.num .slabsFull = full.length
  numPartial : s.kmem.cache.num .slabsPartial = partly.length

theorem owned_of_inv (h : s.kmem.Inv g heap s.slabs s.loan) :
    ∃ full partly free, s.Owned g full partly free := by
  obtain ⟨l, fl, hc, hp⟩ := h
  refine ⟨l .slabsFull, l .slabsPartial, fl, ?_⟩
  have hLists := hp.counted.lists
  constructor
  · exact ⟨hLists.head _, hLists.linked _⟩
  · exact ⟨hLists.head _, hLists.linked _⟩
  · exact hc.chain
  · exact hc.share
  · intro b hb
    -- the objects on the freelist are a permutation of it
    have hPerm : ((g.objects b (s.kmem.slab b).colour).filter (· ∈ fl b)).Perm (fl b) := by
      refine (perm_ext_iff_of_nodup ((hc.sound b hb).nodup.filter _) (hc.nodup hb)).mpr fun x => ?_
      rw [mem_filter, decide_eq_true_eq]
      exact ⟨And.right, fun hx => ⟨hc.own b hb x hx, hx⟩⟩
    have hSplit := length_eq_length_filter_add
      (l := g.objects b (s.kmem.slab b).colour) (fun x => decide (x ∈ fl b))
    have hUse := hc.inUse b hb
    have hObjs : (g.objects b (s.kmem.slab b).colour).length = g.objsPerSlab := by
      simp [objects]
    rw [hPerm.length_eq, hObjs] at hSplit
    simp only [← decide_not] at hSplit
    omega
  · intro b hb
    constructor
    · exact hp.partly b
    · intro hFree
      exact ((hp.mem b).mp hb).resolve_left fun hFull => hFree (hp.full b hFull)
  · intro b hb
    constructor
    · exact hp.full b
    · intro hFull
      exact ((hp.mem b).mp hb).resolve_right fun hPartly => hp.partly b hPartly hFull
  · exact ⟨hLists.nodup _, hLists.nodup _, fun b => (hp.mem b).mpr⟩
  · exact hp.counted.num _
  · exact hp.counted.num _

theorem inv_fresh (hMade : g.Made) (slab : ℕ → Header) (word : ℕ → Option ℕ) (ready : Bool) :
    Kmem.Inv g heap { cache := .fresh g, slab, word, ready } [] [] := by
  refine ⟨fun _ => [], fun _ => [], ?_, ?_⟩
  · refine ⟨rfl, hMade.colours.1, zero_le _, ?_, ?_, ?_, ?_, ?_, ?_, ?_⟩ <;>
      simp [acList, fresh]
  · refine ⟨⟨⟨fun _ => dlinked_nil _ _, fun _ => rfl, fun _ => nodup_nil, by simp⟩,
      fun _ => rfl⟩, rfl, by simp, by simp, by simp⟩

/-- The start of a run: the cache `c` without slabs, in memory of any content. -/
def Start (c : Cache) (s : Sys) : Prop :=
  ∃ slab word ready, s = { kmem := { cache := c, slab, word, ready } }

/-- In every run of a cache with a sound geometry each object has one owner, the counts and lists
tell how many objects of a slab are free, and no object is handed out twice. -/
theorem objects_owned (named mem : Bool) (size align flags heap : ℕ) (c : Cache)
    (hCreate : kmemCacheCreate named mem size align flags = some c) (hSound : c.Sound) (s : Sys)
    (hRun : Reaches (Start c) (Allowed c.toGeometry heap) exec s) :
    (∃ full partly free, s.Owned c.toGeometry full partly free) ∧
      ∀ raw, s.Allowed c.toGeometry heap (.alloc raw) →
        ∀ o k, s.kmem.kmemCacheAlloc raw = some (some o, k) → o ∉ s.loan := by
  obtain ⟨-, rfl⟩ := eq_fresh_of_create hCreate
  have hMade := geometry_made size align flags
  have hInv : s.kmem.Inv (geometry size align flags) heap s.slabs s.loan := by
    refine Reaches.invariant (I := fun s =>
      s.kmem.Inv (geometry size align flags) heap s.slabs s.loan) ?_ ?_ hRun
    · rintro s ⟨slab, word, ready, rfl⟩
      exact inv_fresh hMade slab word ready
    · exact fun s op h hOp => inv_exec hMade hSound h hOp
  refine ⟨owned_of_inv hInv, fun raw hRaw o k hAlloc => ?_⟩
  rcases hInv.kmemCacheAlloc hMade hSound hRaw with hNone | hNone | ⟨o', k', hSome, hNot, -⟩
  · simp [hNone] at hAlloc
  · simp [hNone] at hAlloc
  · rw [hSome, Option.some.injEq, Prod.mk.injEq, Option.some.injEq] at hAlloc
    exact hAlloc.1 ▸ hNot

def demo : List Op :=
  [.alloc (some 0x10000), .alloc none, .alloc none, .store 0x10280 (some 7), .free 0x10280]

theorem objects_owned_demo : ∃ (c : Cache) (s : Sys),
    kmemCacheCreate true true 96 0 0 = some c ∧ s.loan = [0x10220, 0x102E0] ∧
    ∃ full partly free, s.Owned c.toGeometry full partly free := by
  have hStart : Reaches (Start (.fresh (geometry 96 0 0)))
      (Allowed (geometry 96 0 0) 0x10000) exec { kmem := { cache := .fresh (geometry 96 0 0) } } :=
    .start ⟨_, _, _, rfl⟩
  exact ⟨_, _, rfl, by decide +kernel, (objects_owned true true 96 0 0 0x10000 _ rfl
    (sound_of_lastColourFits (by decide) (by decide) ⟨4096, by decide +kernel, by decide +kernel⟩) _
    (hStart.foldl demo (by decide +kernel))).1⟩

end Sys

end Gnos.Slab
