import Gnos.Net.Reassembly

/-! Reassembly undoes fragmentation: the fragments of a payload complete their datagram when the
last of them arrives.  Fragments that come again afterwards start a new datagram, so a stream with
all fragments twice delivers it twice. -/

namespace Gnos.Net

open ProofKit Function List

variable {s' : IpStack} {p : Packet}

section Flags

variable {n : ℕ} (c : Prop) [Decidable c]

theorem and_flags (m : BitVec 16) : (BitVec.ofNat 16 n ||| if c then 0x2000 else 0) &&& m =
      (BitVec.ofNat 16 n &&& m) ||| if c then 0x2000 &&& m else 0 := by
  rw [BitVec.and_comm, BitVec.and_or_distrib_left, BitVec.and_comm m]
  split
  · rw [BitVec.and_comm m]
  · exact congrArg (BitVec.ofNat 16 n &&& m ||| ·) BitVec.and_zero

theorem toNat_offset_flags (hn : n < 2 ^ 13) :
    ((BitVec.ofNat 16 n ||| if c then 0x2000 else 0) &&& 0x1FFF).toNat = n := by
  rw [and_flags, show (if c then (0x2000 : BitVec 16) &&& 0x1FFF else 0) = 0 by split <;> rfl,
    show (0 : BitVec 16) = 0#16 by rfl, BitVec.or_zero, BitVec.toNat_and, BitVec.toNat_ofNat]
  change n % 2 ^ 16 &&& 2 ^ 13 - 1 = n
  rw [Nat.and_two_pow_sub_one_eq_mod]
  omega

theorem more_flags (hn : n < 2 ^ 13) :
    (BitVec.ofNat 16 n ||| if c then 0x2000 else 0) &&& 0x2000 ≠ 0 ↔ c := by
  have hZero : BitVec.ofNat 16 n &&& 0x2000 = 0#16 := by
    apply BitVec.eq_of_toNat_eq
    rw [BitVec.toNat_and, BitVec.toNat_ofNat, Nat.mod_eq_of_lt (by omega)]
    change n &&& 2 ^ 13 = 0
    rw [Nat.and_two_pow, Nat.testBit_lt_two_pow hn]
    rfl
  rw [and_flags, hZero, BitVec.zero_or]
  split
  next hc => exact iff_of_true (by decide) hc
  next hc => exact iff_of_false (fun hNe => hNe rfl) hc

end Flags

section Fragments

variable {k : Key} {payload : List (BitVec 8)} {o : ℕ}

theorem chunk_eq : chunk = 1480 := rfl

theorem length_fragmentAt (k : Key) (payload : List (BitVec 8)) (o : ℕ) :
    (fragmentAt k payload o).seg.length = min (payload.length - o) chunk := by
  unfold fragmentAt
  rw [length_take, length_drop]
  split <;> omega

section

variable (hLen : payload.length ≤ 65515)
include hLen

section

variable (ho : o < payload.length) (hMul : o % chunk = 0)
include ho hMul

theorem offset_fragmentAt : (fragmentAt k payload o).offset = o := by
  rw [chunk_eq] at hMul
  unfold Packet.offset fragmentAt
  rw [toNat_offset_flags _ (by omega)]
  omega

theorem stop_fragmentAt : (fragmentAt k payload o).stop = min payload.length (o + chunk) := by
  rw [Packet.stop, offset_fragmentAt hLen ho hMul, length_fragmentAt]
  omega

theorem more_fragmentAt :
    (fragmentAt k payload o).more = false ↔ (fragmentAt k payload o).stop = payload.length := by
  rw [stop_fragmentAt hLen ho hMul, ← Bool.not_eq_true]
  unfold Packet.more
  rw [decide_eq_true_iff]
  unfold fragmentAt
  rw [more_flags _ (by rw [chunk_eq] at hMul; omega)]
  split <;> omega

theorem cell_fragmentAt {i : ℕ} (hi : (fragmentAt k payload o).piece.Covers i) :
    (fragmentAt k payload o).piece.cell? i = payload[i]? := by
  have hOffset := offset_fragmentAt (k := k) hLen ho hMul
  obtain ⟨hLow, hHigh⟩ := hi
  change (fragmentAt k payload o).offset ≤ i at hLow
  change i < (fragmentAt k payload o).offset + (fragmentAt k payload o).seg.length at hHigh
  rw [length_fragmentAt] at hHigh
  change (fragmentAt k payload o).seg[i - (fragmentAt k payload o).offset]? = payload[i]?
  rw [hOffset]
  unfold fragmentAt
  rw [getElem?_take_of_lt (by split <;> omega), getElem?_drop]
  congr 1
  omega

end

theorem isFragment_fragmentAt (hLong : chunk < payload.length) (ho : o < payload.length)
    (hMul : o % chunk = 0) : (fragmentAt k payload o).isFragment := by
  by_contra hWhole
  obtain ⟨hOffset, hLast⟩ := Packet.of_not_isFragment (Bool.not_eq_true _ ▸ hWhole)
  have hStop := (more_fragmentAt hLen ho hMul).mp hLast
  rw [offset_fragmentAt hLen ho hMul] at hOffset
  rw [stop_fragmentAt hLen ho hMul] at hStop
  omega

theorem mem_sendFragments {fuel off : ℕ} (hMul : off % chunk = 0)
    (hFuel : payload.length ≤ off + fuel) : p ∈ sendFragments k payload fuel off ↔
      ∃ o, off ≤ o ∧ o < payload.length ∧ o % chunk = 0 ∧ p = fragmentAt k payload o := by
  have hEnd : ∀ fuel off, payload.length ≤ off → sendFragments k payload fuel off = [] := by
    intro fuel off hLe
    cases fuel with
    | zero => rfl
    | succ fuel => rw [sendFragments, if_neg (by omega)]
  induction fuel generalizing off with
  | zero =>
    refine iff_of_false (by simp [sendFragments]) ?_
    rintro ⟨o, hLow, hHigh, -⟩
    omega
  | succ fuel ih =>
    by_cases hOff : off < payload.length
    · rw [sendFragments, if_pos hOff]
      dsimp only
      rw [length_fragmentAt, mem_cons, Nat.mod_eq_of_lt (by rw [chunk_eq]; omega)]
      rw [chunk_eq] at hMul ⊢
      by_cases hLast : payload.length ≤ off + 1480
      · -- the last fragment
        rw [hEnd _ _ (by omega)]
        constructor
        · rintro (rfl | hNil)
          · exact ⟨off, le_rfl, hOff, hMul, rfl⟩
          · exact absurd hNil (by simp)
        · rintro ⟨o, hLow, hHigh, hMul', rfl⟩
          rw [show o = off by omega]
          exact .inl rfl
      · have hNext := @ih (off + 1480) (by rw [chunk_eq]; omega) (by omega)
        rw [show min (payload.length - off) 1480 = 1480 by omega]
        refine (or_congr_right hNext).trans ?_
        constructor
        · rintro (rfl | ⟨o, hLow, hRest⟩)
          · exact ⟨off, le_rfl, hOff, hMul, rfl⟩
          · exact ⟨o, by omega, hRest⟩
        · rintro ⟨o, hLow, hHigh, hMul', rfl⟩
          by_cases hEq : o = off
          · exact .inl (by rw [hEq])
          · exact .inr ⟨o, by omega, hHigh, hMul', rfl⟩
    · rw [hEnd _ _ (by omega)]
      refine iff_of_false (by simp) ?_
      rintro ⟨o, hLow, hHigh, -⟩
      omega

end

/-- The packets of one datagram: the payload in one packet, or its fragments. -/
inductive Sent (k : Key) (payload : List (BitVec 8)) : List Packet → Prop
  | whole {p : Packet} (hKey : p.toKey = k) (hSeg : p.seg = payload)
      (hWhole : p.isFragment = false) : Sent k payload [p]
  | fragments {sent : List Packet} (hLong : chunk < payload.length)
      (hMem : ∀ p, p ∈ sent ↔ ∃ o < payload.length, o % chunk = 0 ∧ p = fragmentAt k payload o) :
      Sent k payload sent

theorem sent_netIpOutput (gIpId : BitVec 16) (src dst : BitVec 32) (proto : BitVec 8)
    (hLen : payload.length ≤ 65515) :
    Sent ⟨src, dst, gIpId + 1, proto⟩ payload (netIpOutput gIpId src dst proto payload).2 := by
  unfold netIpOutput
  split
  next hFits => exact .whole rfl rfl (decide_eq_false (by simp))
  next hLong =>
    unfold ipHdrLen netMtu at hLong
    refine .fragments (by rw [chunk_eq]; omega) fun p => ?_
    rw [mem_sendFragments hLen (by rfl) (by omega)]
    simp

end Fragments

namespace Ipf

variable {f : Ipf} {k : Key} {payload : List (BitVec 8)} {sent ps : List Packet}

structure Parts (k : Key) (payload : List (BitVec 8)) (sent ps : List Packet) : Prop where
  len : payload.length ≤ 65515
  mem : ∀ p, p ∈ sent ↔ ∃ o < payload.length, o % chunk = 0 ∧ p = fragmentAt k payload o
  sub : ps ⊆ sent

section
variable (h : Parts k payload sent ps)
include h

theorem Parts.stop_eq (hp : p ∈ ps) (hLast : p.more = false) : p.stop = payload.length := by
  obtain ⟨o, ho, hMul, rfl⟩ := (h.mem p).mp (h.sub hp)
  exact (more_fragmentAt h.len ho hMul).mp hLast

theorem Parts.covers {i : ℕ} (hi : i < payload.length) :
    ∃ p ∈ sent, p.piece.Covers i ∧ p.Marks (i / 8) := by
  have hMul : i / chunk * chunk % chunk = 0 := Nat.mul_mod_left _ _
  have hLow : i / chunk * chunk ≤ i := Nat.div_mul_le_self _ _
  have hHigh : i < i / chunk * chunk + chunk := by
    rw [chunk_eq]
    omega
  have ho : i / chunk * chunk < payload.length := lt_of_le_of_lt hLow hi
  refine ⟨fragmentAt k payload (i / chunk * chunk), (h.mem _).mpr ⟨_, ho, hMul, rfl⟩, ⟨?_, ?_⟩, ?_,
    ?_⟩
  · exact (offset_fragmentAt h.len ho hMul).trans_le hLow
  · change i < (fragmentAt k payload (i / chunk * chunk)).stop
    rw [stop_fragmentAt h.len ho hMul]
    omega
  · rw [offset_fragmentAt h.len ho hMul]
    omega
  · rw [stop_fragmentAt h.len ho hMul]
    omega

theorem Parts.total_eq (hReflects : f.Reflects ps) (hDone : f.complete) :
    f.total = payload.length := by
  obtain ⟨hNe, -⟩ := complete_iff.mp hDone
  obtain ⟨p, hp, hLast, hStop⟩ := hReflects.total_of hNe
  rw [← hStop, h.stop_eq hp hLast]

end

theorem eq_of_marks {o o' : ℕ} (hLen : payload.length ≤ 65515) (ho' : o' < payload.length)
    (hMul : o % chunk = 0) (hMul' : o' % chunk = 0)
    (hMarks : (fragmentAt k payload o').Marks (o / 8)) : o' = o := by
  obtain ⟨hLow, hHigh⟩ := hMarks
  rw [offset_fragmentAt hLen ho' hMul'] at hLow
  rw [stop_fragmentAt hLen ho' hMul'] at hHigh
  rw [chunk_eq] at hMul hMul' hHigh
  omega

section

variable (h : Parts k payload sent ps) (hReflects : f.Reflects ps)
include h hReflects

theorem Parts.complete_iff (hPos : 0 < payload.length)
    (hBytes : (ps.map (·.seg.length)).sum < 2 ^ 32) : f.complete ↔ sent ⊆ ps := by
  constructor
  · intro hDone q hq
    have hTotal := h.total_eq hReflects hDone
    obtain ⟨o, ho, hMul, rfl⟩ := (h.mem q).mp hq
    obtain ⟨-, -, hBlocks⟩ := Ipf.complete_iff.mp hDone
    -- whoever marked the first block of the fragment is the fragment
    obtain ⟨p, hp, hMarks⟩ := (hReflects.marked (o / 8)).mp (hBlocks (o / 8) (by omega))
    obtain ⟨o', ho', hMul', rfl⟩ := (h.mem p).mp (h.sub hp)
    rwa [← eq_of_marks h.len ho' hMul hMul' hMarks]
  · intro hAll
    have hTotal : f.total = payload.length := by
      obtain ⟨p, hp, hCovers, -⟩ := h.covers (i := payload.length - 1) (by omega)
      obtain ⟨o, ho, hMul, rfl⟩ := (h.mem p).mp hp
      have hStop : (fragmentAt k payload o).stop = payload.length := by
        have hHigh : payload.length - 1 < (fragmentAt k payload o).stop := hCovers.2
        rw [stop_fragmentAt h.len ho hMul] at hHigh ⊢
        omega
      have hGe := hReflects.total_ge _ (hAll hp) ((more_fragmentAt h.len ho hMul).mpr hStop)
      obtain ⟨q, hq, hLast, hEq⟩ := hReflects.total_of (by omega)
      rw [← hEq, h.stop_eq hq hLast]
    have hCovered : ∀ i < payload.length, ∃ p ∈ ps, p.piece.Covers i ∧ p.Marks (i / 8) := by
      intro i hi
      obtain ⟨p, hp, hRest⟩ := h.covers hi
      exact ⟨p, hAll hp, hRest⟩
    refine Ipf.complete_iff.mpr ⟨by omega, ?_, fun b hb => ?_⟩
    · rw [hTotal, hReflects.got, Nat.mod_eq_of_lt hBytes]
      have hSum := Piece.le_sum_of_covered (n := payload.length) fun i hi => by
          obtain ⟨p, hp, hCovers, -⟩ := hCovered i hi
          exact ⟨p.piece, mem_map_of_mem hp, hCovers⟩
      rwa [map_map] at hSum
    · obtain ⟨p, hp, -, hMarks⟩ := hCovered (8 * b) (by omega)
      rw [show 8 * b / 8 = b by omega] at hMarks
      exact (hReflects.marked b).mpr ⟨p, hp, hMarks⟩

theorem Parts.whole_eq (hDone : f.complete) (hAll : sent ⊆ ps) : f.whole = payload.map some := by
  have hTotal := h.total_eq hReflects hDone
  refine ext_getElem? fun i => ?_
  by_cases hi : i < payload.length
  · obtain ⟨p, hp, hCovers, -⟩ := h.covers hi
    have hCell : f.data i = payload[i]? := by
      refine hReflects.holds.eq_of_slices ?_ ⟨p.piece, mem_map_of_mem (hAll hp), hCovers⟩
      intro piece hPiece j hj
      obtain ⟨q, hq, rfl⟩ := mem_map.mp hPiece
      obtain ⟨o, ho, hMul, rfl⟩ := (h.mem q).mp (h.sub hq)
      exact cell_fragmentAt h.len ho hMul hj
    rw [whole_getElem? (hTotal ▸ hi), hCell]
    simp [hi]
  · rw [getElem?_eq_none (by rw [length_whole, hTotal]; omega),
      getElem?_eq_none (by rw [length_map]; omega)]

end

end Ipf

def arrivals (k : Key) (es : List IpEvent) : List Packet :=
  (es.filterMap IpEvent.packet?).filter (·.toKey = k)

namespace IpStack

variable {s : IpStack} {k : Key} {payload : List (BitVec 8)} {sent ps : List Packet}

/-- The delivery of the packets `sent` of the datagram `k`: other packets have other keys, there is
memory, the datagram is not timed out, and no more datagrams are in flight than there are slots. -/
def Fair (k : Key) (sent : List Packet) (s : IpStack) : IpEvent → Prop
  | .input p room => p.toKey = k → p ∈ sent ∧ room ∧ (insert k s.inFlight).card ≤ ipfSlots
  | .gc => ∀ f, s.dgram k = some f → sub64 s.ticks f.stamp < ipfLifeTicks
  | .timer => True

/-- The table has the packets `ps` of the datagram and waits for others. -/
structure Awaits (s : IpStack) (k : Key) (sent ps : List Packet) : Prop where
  distinct : s.Distinct
  sub : ps ⊆ sent
  wants : ¬ sent ⊆ ps
  idle : ps = [] → s.dgram k = none
  busy : ps ≠ [] → ∃ f, s.dgram k = some f ∧ f.Reflects ps

section

variable (h : s.Awaits k sent ps) {out : Option Delivery}
include h

theorem Awaits.congr (hD : s'.Distinct) (hEq : s'.dgram k = s.dgram k) : s'.Awaits k sent ps :=
  ⟨hD, h.sub, h.wants, fun hNil => hEq.trans (h.idle hNil), fun hNe => hEq ▸ h.busy hNe⟩

theorem Awaits.reset (hD : s'.Distinct) (hEq : s'.dgram k = none) : s'.Awaits k sent [] :=
  ⟨hD, nil_subset _, fun hSub => h.wants fun p hp => absurd (hSub hp) (by simp), fun _ => hEq,
    fun hNe => absurd rfl hNe⟩

theorem Awaits.fed (hKey : p.toKey = k) (hMax : p.stop ≤ ipfMax) :
    (s.fed p).Reflects (p :: ps) := by
  unfold IpStack.fed
  rw [hKey]
  by_cases hNil : ps = []
  · rw [h.idle hNil, hNil]
    exact ((Ipf.reflects_fresh _ _).setStamp _).absorb hMax
  · obtain ⟨f, hf, hReflects⟩ := h.busy hNil
    rw [hf]
    exact (hReflects.setStamp _).absorb hMax

theorem Awaits.other {room : Bool} (hKey : p.toKey ≠ k)
    (hStep : s.ipInput p room = (s', out)) :
    s'.Awaits k sent ps ∧ ∀ d, out = some d → d.key ≠ k := by
  unfold ipInput at hStep
  split at hStep
  · obtain ⟨hD, ⟨rfl, rfl, -⟩ | ⟨rfl, -, hEq⟩ | ⟨-, -, rfl, hEq⟩ | ⟨-, -, rfl, hEq⟩⟩ :=
      h.distinct.ipReassemble p room hStep
    · exact ⟨h, by simp⟩
    · exact ⟨h.congr hD (by rw [hEq, update_of_ne hKey.symm]), by simp⟩
    · exact ⟨h.congr hD (by rw [hEq, update_of_ne hKey.symm]), by simpa using hKey⟩
    · exact ⟨h.congr hD (by rw [hEq, update_of_ne hKey.symm]), by simp⟩
  · obtain ⟨rfl, rfl⟩ := Prod.mk.inj hStep
    exact ⟨h, by simpa using hKey⟩

theorem Awaits.gc (hLive : ∀ f, s.dgram k = some f → sub64 s.ticks f.stamp < ipfLifeTicks) :
    s.ipfGc.Awaits k sent ps := by
  obtain ⟨hD, hGc⟩ := h.distinct.ipfGc
  refine h.congr hD ((hGc k).trans ?_)
  cases hOld : s.dgram k with
  | none => rfl
  | some f => simp [hLive f hOld]

section

variable (hLen : payload.length ≤ 65515) (hSent : Sent k payload sent)
include hLen hSent

/-- A packet of the datagram: the datagram is delivered with the last packet that was missing. -/
theorem Awaits.own (hKey : p.toKey = k) (hp : p ∈ sent)
    (hRoom : (insert k s.inFlight).card ≤ ipfSlots)
    (hBytes : ((p :: ps).map (·.seg.length)).sum < 2 ^ 32)
    (hStep : s.ipInput p true = (s', out)) :
    if sent ⊆ p :: ps then s'.Awaits k sent [] ∧ out = some ⟨k, payload.map some⟩
    else s'.Awaits k sent (p :: ps) ∧ out = none := by
  cases hSent with
  | whole hKey' hSeg hWhole =>
    obtain rfl := mem_singleton.mp hp
    rw [if_pos (by simp)]
    unfold ipInput at hStep
    rw [if_neg (by simp [hWhole])] at hStep
    obtain ⟨rfl, rfl⟩ := Prod.mk.inj hStep
    have hNil : ps = [] := by
      by_contra hNe
      obtain ⟨q, hq⟩ := exists_mem_of_ne_nil ps hNe
      exact h.wants fun r hr => by
        rw [mem_singleton.mp hr, ← mem_singleton.mp (h.sub hq)]
        exact hq
    exact ⟨hNil ▸ h, by rw [hKey, hSeg]⟩
  | fragments hLong hMem =>
    have hParts : Ipf.Parts k payload sent (p :: ps) := ⟨hLen, hMem, cons_subset.mpr ⟨hp, h.sub⟩⟩
    obtain ⟨o, ho, hMul, hEq⟩ := (hMem p).mp hp
    have hFrag : p.isFragment := hEq ▸ isFragment_fragmentAt hLen hLong ho hMul
    have hMax : p.stop ≤ ipfMax := by
      rw [hEq, stop_fragmentAt hLen ho hMul, ipfMax]
      omega
    have hReflects := h.fed hKey hMax
    have hDone := hParts.complete_iff hReflects (by omega) hBytes
    unfold ipInput at hStep
    rw [if_pos hFrag] at hStep
    obtain ⟨hD, ⟨-, -, hTooBig | hFull⟩ | ⟨-, hNoRoom, -⟩ | ⟨-, hComplete, rfl, hNew⟩ |
      ⟨-, hOpen, rfl, hNew⟩⟩ := h.distinct.ipReassemble p true hStep
    · omega
    · exact absurd (hKey ▸ hFull) (h.distinct.exists_slot hRoom)
    · exact absurd hNoRoom (by decide)
    · have hAll := hDone.mp hComplete
      rw [if_pos hAll, hParts.whole_eq hReflects hComplete hAll, hKey]
      exact ⟨h.reset hD (by rw [hNew, hKey, update_self]), rfl⟩
    · have hMissing : ¬ sent ⊆ p :: ps := fun hAll => by
        rw [hDone.mpr hAll] at hOpen
        exact absurd hOpen (by decide)
      rw [if_neg hMissing]
      refine ⟨⟨hD, hParts.sub, hMissing, by simp, fun _ => ⟨_, ?_, hReflects⟩⟩, rfl⟩
      rw [hNew, hKey, update_self]

theorem Awaits.outputs {es : List IpEvent} (hAlong : Along (Fair k sent) exec s es)
    (hBytes : ((ps ++ arrivals k es).map (·.seg.length)).sum < 2 ^ 32) :
    (s.outputs es).filter (·.key = k) =
      replicate (rounds sent ps (arrivals k es)) ⟨k, payload.map some⟩ := by
  induction es generalizing s ps with
  | nil => rfl
  | cons e es ih =>
    obtain ⟨hFair, hRest⟩ := hAlong
    rw [IpStack.outputs, filter_append]
    cases e with
    | input p room =>
      have hStep : s.ipInput p room = (s.exec (.input p room), (s.step (.input p room)).2) := rfl
      by_cases hKey : p.toKey = k
      · obtain ⟨hp, rfl, hRoom⟩ := hFair hKey
        have hArrivals : arrivals k (.input p true :: es) = p :: arrivals k es := by
          simp [arrivals, IpEvent.packet?, hKey]
        rw [hArrivals] at hBytes ⊢
        simp only [map_append, map_cons, sum_append, sum_cons] at hBytes
        have hOwn := h.own hLen hSent hKey hp hRoom (by simp only [map_cons, sum_cons]; omega) hStep
        rw [rounds]
        split at hOwn
        next hAll =>
          rw [if_pos hAll, hOwn.2, ih hOwn.1 hRest (by rw [nil_append]; omega), replicate_succ]
          simp
        next hMissing =>
          rw [if_neg hMissing, hOwn.2, ih hOwn.1 hRest (by
            simp only [map_append, map_cons, sum_append, sum_cons]; omega)]
          simp
      · have hArrivals : arrivals k (.input p room :: es) = arrivals k es := by
          simp [arrivals, IpEvent.packet?, hKey]
        rw [hArrivals] at hBytes ⊢
        obtain ⟨hAwaits, hOut⟩ := h.other hKey hStep
        rw [ih hAwaits hRest hBytes]
        cases hd : (s.step (.input p room)).2 with
        | none => rfl
        | some d => simp [hOut d hd]
    | gc => exact ih (h.gc hFair) hRest hBytes
    | timer => exact ih (h.congr h.distinct rfl) hRest hBytes

end

end

theorem distinct_foldl (es : List IpEvent) : (es.foldl exec {}).Distinct :=
  es.foldlRecOn _ sound_empty.distinct fun _ hD e _ => hD.exec e

theorem sent_ne_nil (hSent : Sent k payload sent) : sent ≠ [] := by
  cases hSent with
  | whole => simp
  | fragments hLong hMem =>
    exact ne_nil_of_mem ((hMem _).mpr ⟨0, by omega, Nat.zero_mod _, rfl⟩)

/-- The packets of a datagram, brought in any order and among others, deliver its payload exactly
once, unless all of them come twice.  A datagram delivered from any fragments has only bytes that
came with it, if no fragment ends within a block that the datagram goes on in. -/
theorem reassembly_inverse_iff (gIpId : BitVec 16) (src dst : BitVec 32) (proto : BitVec 8)
    (payload : List (BitVec 8)) (before es fs : List IpEvent) : (payload.length ≤ 65515 →
      let sent := (netIpOutput gIpId src dst proto payload).2
      let k : Key := ⟨src, dst, gIpId + 1, proto⟩
      let s : IpStack := before.foldl exec {}
      k ∉ s.inFlight → Along (Fair k sent) exec s es → sent ⊆ arrivals k es →
      ((arrivals k es).map (·.seg.length)).sum < 2 ^ 32 →
      ((s.outputs es).filter (·.key = k) = [⟨k, payload.map some⟩] ↔
        ¬ ∃ front back, arrivals k es = front ++ back ∧ sent ⊆ front ∧ sent ⊆ back)) ∧
      (Along Seamless exec {} fs → ∀ d ∈ outputs {} fs,
      d.Carried (fs.filterMap IpEvent.packet?)) := by
  constructor
  · intro hLen sent k s hIdle hAlong hAll hBytes
    have hSent : Sent k payload sent := sent_netIpOutput gIpId src dst proto hLen
    have hNe : sent ≠ [] := sent_ne_nil hSent
    have hNone : s.dgram k = none :=
      dgram_eq_none.mpr fun i f hf hKey => hIdle (mem_inFlight.mpr ⟨i, f, hf, hKey⟩)
    have hAwaits : s.Awaits k sent [] :=
      ⟨distinct_foldl before, nil_subset _, fun hSub => hNe (subset_nil.mp hSub),
        fun _ => hNone, fun hNil => absurd rfl hNil⟩
    rw [hAwaits.outputs hLen hSent hAlong (by rwa [nil_append]), ← rounds_eq_one_iff hNe hAll,
      ← replicate_one, replicate_left_inj]
  · exact fun hAlong d hd => by simpa using sound_empty.outputs hAlong hd

@[irreducible] def longPayload : List (BitVec 8) := List.replicate 1481 7

def longKey : Key := ⟨0x7F000001, 0x7F000001, 1, 17⟩

@[irreducible] def longSent : List Packet := (netIpOutput 0 0x7F000001 0x7F000001 17 longPayload).2

def swapped : List IpEvent :=
  [.input (fragmentAt longKey longPayload 1480) true,
    .input (fragmentAt longKey longPayload 0) true]

theorem longSent_eq :
    longSent = [fragmentAt longKey longPayload 0, fragmentAt longKey longPayload 1480] := by
  decide +kernel

theorem arrivals_swapped : arrivals longKey swapped =
    [fragmentAt longKey longPayload 1480, fragmentAt longKey longPayload 0] := by
  decide +kernel

theorem swapped_fair : Along (Fair longKey longSent) exec {} (swapped ++ swapped) := by
  have hFirst : fragmentAt longKey longPayload 0 ∈ longSent := by
    rw [longSent_eq]
    simp
  have hSecond : fragmentAt longKey longPayload 1480 ∈ longSent := by
    rw [longSent_eq]
    simp
  exact ⟨fun _ => ⟨hSecond, rfl, by decide +kernel⟩, fun _ => ⟨hFirst, rfl, by decide +kernel⟩,
    fun _ => ⟨hSecond, rfl, by decide +kernel⟩, fun _ => ⟨hFirst, rfl, by decide +kernel⟩, trivial⟩

theorem longSent_def : longSent = (netIpOutput 0 0x7F000001 0x7F000001 17 longPayload).2 := by
  unfold longSent
  rfl

theorem swapped_seamless : Along Seamless exec {} swapped := by
  refine ⟨?_, ?_, trivial⟩
  all_goals
    dsimp only [Seamless]
    decide +kernel

theorem reassembly_inverse_swapped :
    (outputs {} swapped).filter (·.key = longKey) = [⟨longKey, longPayload.map some⟩] ∧
      ∀ d ∈ outputs {} swapped, d.Carried (swapped.filterMap IpEvent.packet?) := by
  have hAll : longSent ⊆ arrivals longKey swapped := by
    rw [longSent_eq, arrivals_swapped]
    simp
  have hLen : longPayload.length ≤ 65515 := by decide +kernel
  have hBytes : ((arrivals longKey swapped).map (·.seg.length)).sum < 2 ^ 32 := by
    decide +kernel
  have hOnce : rounds longSent [] (arrivals longKey swapped) = 1 := by decide +kernel
  have hFair := swapped_fair.of_append
  have hSplit := (rounds_eq_one_iff (by rw [longSent_eq]; simp) hAll).mp hOnce
  rw [longSent_def] at hAll hFair hSplit
  obtain ⟨hOwn, hCarried⟩ :=
    reassembly_inverse_iff 0 0x7F000001 0x7F000001 17 longPayload [] swapped swapped
  exact ⟨(hOwn hLen (by decide +kernel) hFair hAll hBytes).mpr hSplit, hCarried swapped_seamless⟩

/-- Fragments of 12 bytes and 8 bytes with a gap of 4 bytes in a block, the first one twice. -/
def gapped : List IpEvent :=
  let first : Packet := { longKey with frag := 0x2000, seg := List.replicate 12 1 }
  [.input first true, .input { longKey with frag := 2, seg := List.replicate 8 2 } true,
    .input first true]

/-- All fragments twice deliver the datagram twice, and a datagram is delivered with bytes that
nothing was written to. -/
theorem reassembly_not_inverse :
    (Along (Fair longKey (netIpOutput 0 0x7F000001 0x7F000001 17 longPayload).2) exec {}
        (swapped ++ swapped) ∧
        ((outputs {} (swapped ++ swapped)).filter (·.key = longKey)).length = 2) ∧
      (outputs {} gapped).map (·.bytes) =
        [List.replicate 12 (some 1) ++ List.replicate 4 none ++ List.replicate 8 (some 2)] := by
  exact ⟨⟨longSent_def ▸ swapped_fair, by decide +kernel⟩, by decide +kernel⟩

end IpStack

end Gnos.Net
