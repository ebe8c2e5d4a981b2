import Gnos.Net.Fragments
import Gnos.ProofKit.Runs

/-! What reassembly delivers.  The table is a map from keys to datagrams in flight; a datagram in
flight reflects the fragments that came for it, and it is complete when all blocks of 8 bytes below
its end have been touched, which is less than all bytes. -/

namespace Gnos.Net

open ProofKit Function List Packet Option IpEvent

theorem Packet.of_not_isFragment {p : Packet} (h : p.isFragment = false) :
    p.offset = 0 ∧ p.more = false := by
  have hZero : p.frag &&& 0x3FFF = 0 := by simpa [isFragment] using h
  have hPart : ∀ m : BitVec 16, 0x3FFF &&& m = m → p.frag &&& m = 0 := fun m hm => by
    rw [← hm, ← BitVec.and_assoc, hZero]
    exact BitVec.zero_and
  constructor
  · rw [offset, hPart _ (by decide)]
    rfl
  · rw [more, hPart _ (by decide)]
    rfl

namespace IpStack

variable {s : IpStack} {k : Key} {i : Fin ipfSlots} {f : Ipf}

def Distinct (s : IpStack) : Prop :=
  ∀ i j f g, s.slots i = some f → s.slots j = some g → f.key = g.key → i = j

def dgram (s : IpStack) (k : Key) : Option Ipf := (s.ipfFind k).bind s.slots

def inFlight (s : IpStack) : Finset Key :=
  Finset.univ.biUnion fun i => ((s.slots i).map Ipf.key).toFinset

theorem mem_inFlight : k ∈ s.inFlight ↔ ∃ i f, s.slots i = some f ∧ f.key = k := by
  simp [inFlight]

theorem slot_of_ipfFind (h : s.ipfFind k = some i) : ∃ f, s.slots i = some f ∧ f.key = k := by
  have hAny := find?_some h
  obtain ⟨f, hf, hk⟩ := (any_eq_true _ _).mp hAny
  exact ⟨f, hf, of_decide_eq_true hk⟩

theorem ipfFind_eq_none : s.ipfFind k = none ↔ ∀ i f, s.slots i = some f → f.key ≠ k := by
  simp [ipfFind, Option.any_eq_false]

theorem dgram_eq_none : s.dgram k = none ↔ ∀ i f, s.slots i = some f → f.key ≠ k := by
  unfold dgram
  rw [bind_eq_none_iff, ← ipfFind_eq_none]
  constructor
  · intro h
    cases hFind : s.ipfFind k with
    | none => rfl
    | some i =>
      obtain ⟨f, hf, -⟩ := slot_of_ipfFind hFind
      exact absurd (h i hFind) (by simp [hf])
  · intro h i hFind
    exact absurd hFind (by simp [h])

/-- The slot is the one that the key has, or may have. -/
def Owns (s : IpStack) (i : Fin ipfSlots) (k : Key) : Prop :=
  ∀ j f, s.slots j = some f → (f.key = k ↔ j = i)

theorem ipfSlot_eq_none (h : s.ipfSlot k = none) : s.dgram k = none ∧ ∀ i, (s.slots i).isSome := by
  unfold ipfSlot at h
  split at h
  next i hFind =>
    obtain ⟨f, hf, -⟩ := slot_of_ipfFind hFind
    exact absurd h (by simp [hf])
  next hFind =>
    refine ⟨dgram_eq_none.mpr (ipfFind_eq_none.mp hFind), fun i => ?_⟩
    have hNone := map_eq_none_iff.mp h
    rw [find?_eq_none] at hNone
    simpa [ne_none_iff_isSome] using hNone i (mem_finRange i)

section

variable (hD : s.Distinct)
include hD

theorem Distinct.ipfFind_eq_some : s.ipfFind k = some i ↔ ∃ f, s.slots i = some f ∧ f.key = k := by
  refine ⟨slot_of_ipfFind, ?_⟩
  rintro ⟨f, hf, hk⟩
  cases hFind : s.ipfFind k with
  | none => exact absurd hk (ipfFind_eq_none.mp hFind i f hf)
  | some j =>
    obtain ⟨g, hg, hgk⟩ := slot_of_ipfFind hFind
    rw [hD i j f g hf hg (hk.trans hgk.symm)]

theorem Distinct.dgram_eq_some : s.dgram k = some f ↔ ∃ i, s.slots i = some f ∧ f.key = k := by
  unfold dgram
  rw [bind_eq_some_iff]
  constructor
  · rintro ⟨i, hFind, hf⟩
    obtain ⟨g, hg, hk⟩ := slot_of_ipfFind hFind
    cases hf.symm.trans hg
    exact ⟨i, hf, hk⟩
  · rintro ⟨i, hf, hk⟩
    exact ⟨i, hD.ipfFind_eq_some.mpr ⟨f, hf, hk⟩, hf⟩

theorem Distinct.ipfSlot_eq_some (h : s.ipfSlot k = some (i, f)) :
    s.Owns i k ∧ f = (s.dgram k).getD (.fresh k s.ticks) := by
  unfold ipfSlot at h
  split at h
  next j hFind =>
    obtain ⟨g, hg, hk⟩ := slot_of_ipfFind hFind
    rw [hg, map_some, some.injEq, Prod.mk.injEq] at h
    obtain ⟨rfl, rfl⟩ := h
    refine ⟨fun j' f' hf' => ⟨fun hEq => hD j' j f' g hf' hg (hEq.trans hk.symm), ?_⟩, ?_⟩
    · rintro rfl
      cases hf'.symm.trans hg
      exact hk
    · rw [hD.dgram_eq_some.mpr ⟨j, hg, hk⟩, getD_some]
  next hFind =>
    obtain ⟨j, hj, hEq⟩ := map_eq_some_iff.mp h
    obtain ⟨rfl, rfl⟩ := Prod.mk.inj hEq
    have hFree : s.slots j = none := by simpa using find?_some hj
    have hNone := ipfFind_eq_none.mp hFind
    refine ⟨fun j' f' hf' => iff_of_false (hNone j' f' hf') ?_, ?_⟩
    · rintro rfl
      exact absurd (hFree.symm.trans hf') (by simp)
    · rw [dgram_eq_none.mpr hNone, getD_none]

theorem Distinct.exists_slot (h : (insert k s.inFlight).card ≤ ipfSlots) : s.ipfSlot k ≠ none := by
  intro hNone
  obtain ⟨hIdle, hFull⟩ := ipfSlot_eq_none hNone
  -- eight slots with eight keys, and a ninth key
  choose f hf using fun i => isSome_iff_exists.mp (hFull i)
  have hKeys : s.inFlight = Finset.univ.image fun i => (f i).key := by
    ext k'
    simp only [mem_inFlight, Finset.mem_image, Finset.mem_univ, true_and]
    constructor
    · rintro ⟨i, g, hg, rfl⟩
      cases (hf i).symm.trans hg
      exact ⟨i, rfl⟩
    · rintro ⟨i, rfl⟩
      exact ⟨i, f i, hf i, rfl⟩
  have hInj : Injective fun i => (f i).key := fun i j hEq => hD i j _ _ (hf i) (hf j) hEq
  have hNew : k ∉ s.inFlight := fun hMem => by
    obtain ⟨i, g, hg, hk⟩ := mem_inFlight.mp hMem
    exact dgram_eq_none.mp hIdle i g hg hk
  rw [Finset.card_insert_of_notMem hNew, hKeys, Finset.card_image_of_injective _ hInj,
    Finset.card_univ, Fintype.card_fin] at h
  omega

theorem Distinct.put (hOwns : s.Owns i k) {x : Option Ipf} (hx : ∀ f, x = some f → f.key = k) :
    (s.put i x).Distinct ∧ (s.put i x).dgram = update s.dgram k x := by
  have hSlots : ∀ j f, (s.put i x).slots j = some f ↔ (j = i ∧ x = some f) ∨
      (j ≠ i ∧ s.slots j = some f) := by
    intro j f
    unfold IpStack.put
    by_cases hj : j = i
    · subst hj
      simp
    · simp [hj]
  have hD' : (s.put i x).Distinct := by
    intro j j' f f' hf hf' hKey
    rcases (hSlots j f).mp hf with ⟨hj, hxf⟩ | ⟨hj, hOld⟩ <;>
      rcases (hSlots j' f').mp hf' with ⟨hj', hxf'⟩ | ⟨hj', hOld'⟩
    · exact hj.trans hj'.symm
    · exact absurd ((hOwns j' f' hOld').mp (hKey ▸ hx f hxf)) hj'
    · exact absurd ((hOwns j f hOld).mp (hKey ▸ hx f' hxf')) hj
    · exact hD j j' f f' hOld hOld' hKey
  refine ⟨hD', funext fun k' => ext fun f => ?_⟩
  rw [hD'.dgram_eq_some]
  simp only [hSlots]
  by_cases hk : k' = k
  · subst hk
    rw [update_self]
    constructor
    · rintro ⟨j, ⟨-, hxf⟩ | ⟨hj, hf⟩, hKey⟩
      · exact hxf
      · exact absurd ((hOwns j f hf).mp hKey) hj
    · exact fun hxf => ⟨i, .inl ⟨rfl, hxf⟩, hx f hxf⟩
  · rw [update_of_ne hk, hD.dgram_eq_some]
    constructor
    · rintro ⟨j, ⟨-, hxf⟩ | ⟨hj, hf⟩, hKey⟩
      · exact absurd (hKey.symm.trans (hx f hxf)) hk
      · exact ⟨j, hf, hKey⟩
    · rintro ⟨j, hf, hKey⟩
      refine ⟨j, .inr ⟨fun hj => hk ?_, hf⟩, hKey⟩
      exact hKey.symm.trans ((hOwns j f hf).mpr hj)

theorem Distinct.ipfGc : s.ipfGc.Distinct ∧ ∀ k, s.ipfGc.dgram k =
      (s.dgram k).filter fun f => sub64 s.ticks f.stamp < ipfLifeTicks := by
  have hSlots : ∀ j f, s.ipfGc.slots j = some f ↔
      s.slots j = some f ∧ sub64 s.ticks f.stamp < ipfLifeTicks := by
    simp [IpStack.ipfGc, filter_eq_some_iff]
  have hD' : s.ipfGc.Distinct := fun j j' f f' hf hf' hKey =>
    hD j j' f f' ((hSlots j f).mp hf).1 ((hSlots j' f').mp hf').1 hKey
  refine ⟨hD', fun k => ext fun f => ?_⟩
  rw [hD'.dgram_eq_some, filter_eq_some_iff, hD.dgram_eq_some]
  simp only [hSlots, decide_eq_true_eq]
  constructor
  · rintro ⟨j, ⟨hf, hLive⟩, hKey⟩
    exact ⟨⟨j, hf, hKey⟩, hLive⟩
  · rintro ⟨⟨j, hf, hKey⟩, hLive⟩
    exact ⟨j, ⟨hf, hLive⟩, hKey⟩

end

end IpStack

namespace Ipf

@[simp] theorem key_setStamp (f : Ipf) (now : ℕ) : (f.setStamp now).key = f.key := rfl

@[simp] theorem key_absorb (f : Ipf) (p : Packet) : (f.absorb p).key = f.key := by
  unfold absorb grow
  split <;> rfl

structure Reflects (f : Ipf) (ps : List Packet) : Prop where
  holds : Piece.Holds f.data (ps.map piece)
  reach : ∀ p ∈ ps, p.stop ≤ f.dlen
  marked : ∀ b, f.holes b ↔ ∃ p ∈ ps, p.Marks b
  /-- There is a mark for every byte of the buffer. -/
  blocks : f.dlen ≤ 8 * f.nblocks
  total_ge : ∀ p ∈ ps, p.more = false → p.stop ≤ f.total
  total_of : f.total ≠ 0 → ∃ p ∈ ps, p.more = false ∧ p.stop = f.total
  got : f.got = (ps.map (·.seg.length)).sum % 2 ^ 32

variable {f : Ipf} {ps : List Packet} {p : Packet}

theorem reflects_fresh (k : Key) (now : ℕ) : (fresh k now).Reflects [] where
  holds := Piece.Holds.empty
  reach := by simp
  marked := by simp [fresh]
  blocks := by simp [fresh]
  total_ge := by simp
  total_of := by simp [fresh]
  got := rfl

theorem alignUp64_eq {v : ℕ} (h : v ≤ ipfMax) : alignUp64 v = (v + 63) / 64 * 64 := by
  unfold ipfMax at h
  unfold alignUp64
  rw [add64_of_lt (by omega)]
  exact land_not64_two_pow (k := 6) (by omega) (by decide)

theorem total_le_newTotal (f : Ipf) (p : Packet) : f.total ≤ f.newTotal p := by
  unfold newTotal
  split
  next h =>
    simp only [Bool.and_eq_true, decide_eq_true_eq] at h
    omega
  next => exact le_rfl

theorem stop_le_newTotal (f : Ipf) (hLast : p.more = false) (hMax : p.stop ≤ ipfMax) :
    p.stop ≤ f.newTotal p := by
  unfold newTotal
  split
  next => exact le_rfl
  next h =>
    simp only [hLast, Bool.not_false, Bool.true_and, Bool.and_eq_true, decide_eq_true_eq] at h
    omega

theorem newTotal_cases (f : Ipf) (p : Packet) :
    f.newTotal p = f.total ∨ p.more = false ∧ f.newTotal p = p.stop := by
  unfold newTotal
  split
  next h =>
    simp only [Bool.and_eq_true, Bool.not_eq_true'] at h
    exact .inr ⟨h.1.1, rfl⟩
  next => exact .inl rfl

section

variable (h : f.Reflects ps)
include h

theorem Reflects.setStamp (now : ℕ) : (f.setStamp now).Reflects ps :=
  { h with }

theorem Reflects.grow {need : ℕ} (hNeed : need ≤ ipfMax) :
    (f.grow need).Reflects ps ∧ need ≤ (f.grow need).dlen := by
  unfold Ipf.grow
  split
  next hShort =>
    have hData := alignUp64_eq hNeed
    have hMarks := alignUp64_eq (v := need / 8 + 1) (by unfold ipfMax at hNeed ⊢; omega)
    have hFits : need ≤ alignUp64 need := by omega
    have hReach : ∀ p ∈ ps, p.stop ≤ alignUp64 need := fun p hp => by
      have := h.reach p hp
      omega
    refine ⟨⟨?_, hReach, fun b => ?_, ?_, h.total_ge, h.total_of, h.got⟩, hFits⟩
    · refine h.holds.truncate fun q hq => ?_
      obtain ⟨p, hp, rfl⟩ := mem_map.mp hq
      exact h.reach p hp
    · dsimp only
      split
      · exact h.marked b
      next hOut =>
        -- no fragment has touched a block beyond the marks
        refine iff_of_false (by simp) ?_
        rintro ⟨p, hp, -, hb⟩
        have := h.reach p hp
        have := h.blocks
        omega
    · dsimp only
      omega
  next hRoom => exact ⟨h, by omega⟩

theorem Reflects.copyIn (hMax : p.stop ≤ ipfMax) (hFits : p.stop ≤ f.dlen) :
    (f.copyIn p).Reflects (p :: ps) where
  holds := h.holds.paste p.piece
  reach := forall_mem_cons.mpr ⟨hFits, h.reach⟩
  marked b := by
    unfold Ipf.copyIn
    dsimp only
    split
    next hMarks => exact iff_of_true rfl ⟨p, mem_cons_self, hMarks⟩
    next hMarks =>
      rw [h.marked]
      constructor
      · rintro ⟨q, hq, hb⟩
        exact ⟨q, mem_cons_of_mem _ hq, hb⟩
      · rintro ⟨q, hq, hb⟩
        rcases mem_cons.mp hq with rfl | hq
        · exact absurd hb hMarks
        · exact ⟨q, hq, hb⟩
  blocks := h.blocks
  total_ge := forall_mem_cons.mpr ⟨fun hLast => f.stop_le_newTotal hLast hMax,
    fun q hq hLast => (h.total_ge q hq hLast).trans (f.total_le_newTotal p)⟩
  total_of hNe := by
    change f.newTotal p ≠ 0 at hNe
    change ∃ q ∈ p :: ps, q.more = false ∧ q.stop = f.newTotal p
    rcases f.newTotal_cases p with hSame | ⟨hLast, hNew⟩
    · rw [hSame] at hNe ⊢
      obtain ⟨q, hq, hEnd⟩ := h.total_of hNe
      exact ⟨q, mem_cons_of_mem _ hq, hEnd⟩
    · exact ⟨p, mem_cons_self, hLast, hNew.symm⟩
  got := by
    unfold Ipf.copyIn
    rw [add32_eq, h.got, map_cons, sum_cons, Nat.mod_add_mod, Nat.add_comm]

theorem Reflects.absorb (hMax : p.stop ≤ ipfMax) : (f.absorb p).Reflects (p :: ps) :=
  (h.grow hMax).1.copyIn hMax (h.grow hMax).2

end

end Ipf

namespace IpStack

variable {s : IpStack}

def fed (s : IpStack) (p : Packet) : Ipf :=
  (((s.dgram p.toKey).getD (.fresh p.toKey s.ticks)).setStamp s.ticks).absorb p

theorem Distinct.key_fed (hD : s.Distinct) (p : Packet) : (s.fed p).key = p.toKey := by
  unfold fed
  rw [Ipf.key_absorb, Ipf.key_setStamp]
  cases hOld : s.dgram p.toKey with
  | none => rfl
  | some f =>
    obtain ⟨i, -, hKey⟩ := hD.dgram_eq_some.mp hOld
    exact hKey

/-- What a fragment can do: it is dropped, its datagram is lost for want of memory, delivered, or
kept. -/
theorem Distinct.ipReassemble (hD : s.Distinct) (p : Packet) (room : Bool) {s' : IpStack}
    {out : Option Delivery} (h : s.ipReassemble p room = (s', out)) : s'.Distinct ∧
      ((out = none ∧ s' = s ∧ (ipfMax < p.stop ∨ s.ipfSlot p.toKey = none)) ∨
        (out = none ∧ room = false ∧ s'.dgram = update s.dgram p.toKey none) ∨
        (p.stop ≤ ipfMax ∧ (s.fed p).complete ∧ out = some ⟨p.toKey, (s.fed p).whole⟩ ∧
          s'.dgram = update s.dgram p.toKey none) ∨
        (p.stop ≤ ipfMax ∧ (s.fed p).complete = false ∧ out = none ∧
          s'.dgram = update s.dgram p.toKey (some (s.fed p)))) := by
  unfold IpStack.ipReassemble at h
  split at h
  next hMax =>
    obtain ⟨rfl, rfl⟩ := Prod.mk.inj h
    exact ⟨hD, .inl ⟨rfl, rfl, .inl hMax⟩⟩
  next hMax =>
    rw [Nat.not_lt] at hMax
    split at h
    next hNone =>
      obtain ⟨rfl, rfl⟩ := Prod.mk.inj h
      exact ⟨hD, .inl ⟨rfl, rfl, .inr hNone⟩⟩
    next i f hSlot =>
      obtain ⟨hOwns, hf⟩ := hD.ipfSlot_eq_some hSlot
      have hFree := hD.put hOwns (x := none) (by simp)
      have hFed : (f.setStamp s.ticks).absorb p = s.fed p := by rw [fed, hf]
      dsimp only at h
      rw [hFed, hD.key_fed] at h
      split at h
      next hRoom =>
        obtain ⟨rfl, rfl⟩ := Prod.mk.inj h
        simp only [Bool.and_eq_true, Bool.not_eq_true'] at hRoom
        exact ⟨hFree.1, .inr (.inl ⟨rfl, hRoom.2, hFree.2⟩)⟩
      next =>
        split at h
        next hDone =>
          obtain ⟨rfl, rfl⟩ := Prod.mk.inj h
          exact ⟨hFree.1, .inr (.inr (.inl ⟨hMax, hDone, rfl, hFree.2⟩))⟩
        next hOpen =>
          obtain ⟨rfl, rfl⟩ := Prod.mk.inj h
          have hKeep := hD.put hOwns (x := some (s.fed p)) fun f hf => some.inj hf ▸ hD.key_fed p
          exact ⟨hKeep.1, .inr (.inr (.inr ⟨hMax, Bool.not_eq_true _ ▸ hOpen, rfl, hKeep.2⟩))⟩

end IpStack

/-- Each byte of the datagram came in a packet with its key, at its place. -/
def Delivery.Carried (d : Delivery) (received : List Packet) : Prop :=
  ∀ i < d.bytes.length, ∃ p ∈ received, ∃ b, p.toKey = d.key ∧ p.piece.Covers i ∧
    p.piece.cell? i = some b ∧ d.bytes[i]? = some (some b)

theorem Delivery.Carried.mono {d : Delivery} {received received' : List Packet}
    (h : d.Carried received) (hSub : received ⊆ received') : d.Carried received' := fun i hi => by
  obtain ⟨p, hp, b, hRest⟩ := h i hi
  exact ⟨p, hSub hp, b, hRest⟩

namespace Ipf

variable {f : Ipf} {ps : List Packet} {p : Packet}

/-- A fragment ends on a block boundary, or where the datagram ends. -/
def Even (f : Ipf) (ps : List Packet) : Prop := ∀ p ∈ ps, p.stop % 8 ≠ 0 → p.stop = f.total

theorem Even.absorb (h : f.Even ps) (hMax : p.stop ≤ ipfMax)
    (hEnd : p.stop % 8 ≠ 0 → p.more = false ∧ f.total ≤ p.stop)
    (hLonger : p.more = false → f.total < p.stop → f.total % 8 = 0) :
    (f.absorb p).Even (p :: ps) := by
  have hTotal : (f.absorb p).total = f.newTotal p := by
    unfold Ipf.absorb Ipf.grow
    split <;> rfl
  intro q hq hOdd
  rw [hTotal]
  rcases mem_cons.mp hq with rfl | hq
  · obtain ⟨hLast, hLe⟩ := hEnd hOdd
    rcases f.newTotal_cases q with hSame | ⟨-, hNew⟩
    · have := f.stop_le_newTotal hLast hMax
      omega
    · exact hNew.symm
  · have hq := h q hq hOdd
    rcases f.newTotal_cases p with hSame | ⟨hLast, hNew⟩
    · rw [hSame, hq]
    · have := f.total_le_newTotal p
      by_contra hNe
      have := hLonger hLast (by omega)
      omega

theorem length_whole (f : Ipf) : f.whole.length = f.total := by simp [whole]

theorem whole_getElem? {i : ℕ} (h : i < f.total) : f.whole[i]? = some (f.data i) := by
  simp [whole, h]

theorem complete_iff : f.complete ↔ f.total ≠ 0 ∧ f.total ≤ f.got ∧
    ∀ b < (f.total + 7) / 8, f.holes b := by
  simp [complete, and_assoc]

section

variable (h : f.Reflects ps) (hEven : f.Even ps) (hDone : f.complete)
include h hEven hDone

theorem Reflects.covered {i : ℕ} (hi : i < f.total) : ∃ p ∈ ps, p.piece.Covers i := by
  obtain ⟨-, -, hBlocks⟩ := complete_iff.mp hDone
  obtain ⟨p, hp, hLow, hHigh⟩ := (h.marked (i / 8)).mp (hBlocks (i / 8) (by omega))
  refine ⟨p, hp, ?_, ?_⟩
  · change p.offset ≤ i
    -- offsets are multiples of 8
    unfold offset at hLow ⊢
    omega
  · change i < p.stop
    by_contra hShort
    have := hEven p hp (by omega)
    omega

theorem Reflects.carried (hKey : ∀ p ∈ ps, p.toKey = f.key) :
    Delivery.Carried ⟨f.key, f.whole⟩ ps := by
  intro i hi
  rw [length_whole] at hi
  obtain ⟨p, hp, hCovers⟩ := h.covered hEven hDone hi
  obtain ⟨b, hb⟩ := isSome_iff_exists.mp (h.holds.isSome p.piece (mem_map_of_mem hp) i hCovers)
  obtain ⟨_, hMem, hCovers', hCell⟩ := h.holds.sound i b hb
  obtain ⟨q, hq, rfl⟩ := mem_map.mp hMem
  exact ⟨q, hq, b, hKey q hq, hCovers', hCell, by rw [whole_getElem? hi, hb]⟩

end

end Ipf

namespace IpStack

variable {s : IpStack}

def known (s : IpStack) (k : Key) : ℕ := (s.dgram k).elim 0 Ipf.total

/-- A fragment that ends within a block is a last one, and no other last fragment goes further. -/
def Seamless (s : IpStack) : IpEvent → Prop
  | .input p _ => p.isFragment → (p.stop % 8 ≠ 0 → p.more = false ∧ s.known p.toKey ≤ p.stop) ∧
        (p.more = false → s.known p.toKey < p.stop → s.known p.toKey % 8 = 0)
  | _ => True

/-- Every datagram in flight reflects even fragments that were received. -/
structure Sound (s : IpStack) (received : List Packet) : Prop where
  distinct : s.Distinct
  reflects : ∀ k f, s.dgram k = some f → ∃ ps, f.Reflects ps ∧ f.Even ps ∧
    ∀ p ∈ ps, p ∈ received ∧ p.toKey = k

theorem Sound.mono {received received' : List Packet} (h : s.Sound received)
    (hSub : received ⊆ received') : s.Sound received' where
  distinct := h.distinct
  reflects k f hf := by
    obtain ⟨ps, hReflects, hEven, hFrom⟩ := h.reflects k f hf
    exact ⟨ps, hReflects, hEven, fun p hp => ⟨hSub (hFrom p hp).1, (hFrom p hp).2⟩⟩

variable {received : List Packet}

section

variable (h : s.Sound received)
include h

theorem Sound.fed {p : Packet} (hMax : p.stop ≤ ipfMax)
    (hEnd : p.stop % 8 ≠ 0 → p.more = false ∧ s.known p.toKey ≤ p.stop)
    (hLonger : p.more = false → s.known p.toKey < p.stop → s.known p.toKey % 8 = 0) :
    ∃ ps, (s.fed p).Reflects ps ∧ (s.fed p).Even ps ∧ ∀ q ∈ ps, q ∈ received ++ [p] ∧
    q.toKey = p.toKey := by
  unfold IpStack.fed
  unfold known at hEnd hLonger
  cases hOld : s.dgram p.toKey with
  | none =>
    rw [hOld] at hEnd hLonger
    refine ⟨[p], ((Ipf.reflects_fresh _ _).setStamp _).absorb hMax,
      Ipf.Even.absorb (by simp [Ipf.Even]) hMax hEnd hLonger, ?_⟩
    simp
  | some f =>
    rw [hOld] at hEnd hLonger
    obtain ⟨ps, hReflects, hEven, hFrom⟩ := h.reflects _ _ hOld
    refine ⟨p :: ps, (hReflects.setStamp _).absorb hMax,
      Ipf.Even.absorb (f := f.setStamp s.ticks) hEven hMax hEnd hLonger, ?_⟩
    refine forall_mem_cons.mpr ⟨by simp, fun q hq => ?_⟩
    exact ⟨mem_append_left _ (hFrom q hq).1, (hFrom q hq).2⟩

theorem Sound.update {s' : IpStack} (hD : s'.Distinct) {k : Key} {x : Option Ipf}
    (hEq : s'.dgram = update s.dgram k x)
    (hx : ∀ f, x = some f → ∃ ps, f.Reflects ps ∧ f.Even ps ∧ ∀ p ∈ ps, p ∈ received ∧
      p.toKey = k) : s'.Sound received where
  distinct := hD
  reflects k' f hf := by
    rw [hEq] at hf
    by_cases hk : k' = k
    · subst hk
      exact hx f (by rwa [update_self] at hf)
    · exact h.reflects k' f (by rwa [update_of_ne hk] at hf)

theorem Sound.input {p : Packet} {room : Bool} (hSeamless : s.Seamless (.input p room))
    {s' : IpStack} {out : Option Delivery} (hStep : s.ipInput p room = (s', out)) :
    s'.Sound (received ++ [p]) ∧ ∀ d, out = some d → d.Carried (received ++ [p]) := by
  have hMono : s.Sound (received ++ [p]) := h.mono (subset_append_left _ _)
  unfold ipInput at hStep
  split at hStep
  next hFrag =>
    obtain ⟨hEnd, hLonger⟩ := hSeamless hFrag
    obtain ⟨hD, ⟨rfl, rfl, -⟩ | ⟨rfl, -, hEq⟩ | ⟨hMax, hDone, rfl, hEq⟩ | ⟨hMax, -, rfl, hEq⟩⟩ :=
      h.distinct.ipReassemble p room hStep
    · exact ⟨hMono, by simp⟩
    · exact ⟨hMono.update hD hEq (by simp), by simp⟩
    · obtain ⟨ps, hReflects, hEven, hFrom⟩ := h.fed hMax hEnd hLonger
      refine ⟨hMono.update hD hEq (by simp), fun d hd => ?_⟩
      cases hd
      have hKey := h.distinct.key_fed p
      rw [← hKey]
      exact (hReflects.carried hEven hDone fun q hq => (hFrom q hq).2.trans hKey.symm).mono
        fun q hq => (hFrom q hq).1
    · refine ⟨hMono.update hD hEq fun f hf => ?_, by simp⟩
      cases hf
      exact h.fed hMax hEnd hLonger
  next hWhole =>
    obtain ⟨rfl, rfl⟩ := Prod.mk.inj hStep
    refine ⟨hMono, fun d hd i hi => ?_⟩
    cases hd
    rw [length_map] at hi
    have hOffset := (of_not_isFragment (Bool.not_eq_true _ ▸ hWhole)).1
    refine ⟨p, by simp, p.seg[i], rfl, ⟨by simp [piece, hOffset], ?_⟩, ?_, ?_⟩
    · simpa [piece, Piece.stop, hOffset] using hi
    · simp [piece, Piece.cell?, hOffset]
    · simp

theorem Sound.step {e : IpEvent} (hSeamless : s.Seamless e) :
    (s.exec e).Sound (received ++ e.packet?.toList) ∧
      ∀ d, (s.step e).2 = some d → d.Carried (received ++ e.packet?.toList) := by
  cases e with
  | input p room => exact h.input hSeamless rfl
  | gc =>
    obtain ⟨hD, hGc⟩ := h.distinct.ipfGc
    refine ⟨⟨hD, fun k f hf => ?_⟩, by simp [IpStack.step]⟩
    change s.ipfGc.dgram k = some f at hf
    rw [hGc, filter_eq_some_iff] at hf
    simpa [packet?] using h.reflects k f hf.1
  | timer => exact ⟨by simpa [packet?] using ⟨h.distinct, h.reflects⟩, by simp [IpStack.step]⟩

theorem Sound.outputs {es : List IpEvent} (hAlong : Along Seamless exec s es) {d : Delivery}
    (hd : d ∈ s.outputs es) : d.Carried (received ++ es.filterMap packet?) := by
  induction es generalizing s received with
  | nil => exact absurd hd (by simp [outputs])
  | cons e es ih =>
    obtain ⟨hSound, hOut⟩ := h.step hAlong.1
    have hSplit : e.packet?.toList ++ es.filterMap packet? = (e :: es).filterMap packet? := by
      cases hp : e.packet? <;> simp [hp]
    rw [← hSplit, ← append_assoc]
    rw [outputs, mem_append, mem_toList] at hd
    rcases hd with hNow | hLater
    · exact (hOut d hNow).mono (subset_append_left _ _)
    · exact ih hSound hAlong.2 hLater

end

theorem sound_empty : Sound {} [] where
  distinct i j f g hf := absurd hf (by simp)
  reflects k f hf := absurd hf (by simp [dgram, ipfFind])

theorem Distinct.exec (hD : s.Distinct) (e : IpEvent) : (s.exec e).Distinct := by
  cases e with
  | input p room =>
    unfold IpStack.exec IpStack.step ipInput
    dsimp only
    split
    · exact (hD.ipReassemble p room rfl).1
    · exact hD
  | gc => exact hD.ipfGc.1
  | timer => exact hD

end IpStack

end Gnos.Net
