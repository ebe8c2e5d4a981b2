import Gnos.Tcp.Stream

/-! Runs of two endpoints over a network that loses, duplicates and reorders segments. -/

namespace Gnos.Tcp

open ProofKit Function List Pcb Bool

section Grow

variable {base : BitVec 32} {w : List (BitVec 8)} {closed closed' : Bool} {got : List (BitVec 8)}

theorem Receives.mono {b : Rcv} (h : Receives base w closed b got)
    (hClosed : closed → closed') : Receives base w closed' b got := by
  obtain ⟨r, q, h⟩ := h
  exact ⟨r, q, { h with fin := fun hFin => ⟨(h.fin hFin).1, hClosed (h.fin hFin).2⟩ }⟩

theorem Receives.append {b : Rcv} (h : Receives base w false b got) (bytes : List (BitVec 8)) :
    Receives base (w ++ bytes) false b got := by
  obtain ⟨r, q, h⟩ := h
  have hOpen : b.finSeen = false := by
    by_contra hSeen
    exact absurd (h.fin (not_eq_false _ ▸ hSeen)).2 (by decide)
  have hLe := h.nxt_le hOpen
  have hRoom := h.room
  have hRing := h.ring
  rw [show min r w.length = min r (w ++ bytes).length by rw [length_append]; omega] at hRoom hRing
  refine ⟨r, q, h.nxt, h.read, ?_, h.le, ?_, fun _ => ?_, fun hSeen => ?_, hRoom,
    hRing.append bytes, h.keeps⟩
  · rw [take_append_of_le_length h.read_le]
    exact h.got
  · rw [length_append]
    exact h.read_le.trans (Nat.le_add_right _ _)
  · rw [length_append]
    omega
  · exact absurd (hOpen.symm.trans hSeen) (by decide)

theorem Segment.Carries.append {seg : Segment} (h : seg.Carries base w false)
    (bytes : List (BitVec 8)) : seg.Carries base (w ++ bytes) false := by
  rcases h with hRst | hPlain | ⟨i, hSeq, hLen, hSlice, hFin⟩
  · exact .inl hRst
  · exact .inr (.inl hPlain)
  · refine .inr (.inr ⟨i, hSeq, ?_, fun j hj => ?_, fun h => absurd (hFin h).2 (by decide)⟩)
    · rw [length_append]
      omega
    · rw [getElem?_append_left (by omega)]
      exact hSlice j hj

theorem Segment.Acks.append {seg : Segment} (h : seg.Acks base w) (bytes : List (BitVec 8)) :
    seg.Acks base (w ++ bytes) := by
  rcases h with hRst | hNone | ⟨n, hn, hAck⟩
  · exact .inl hRst
  · exact .inr (.inl hNone)
  · refine .inr (.inr ⟨n, ?_, hAck⟩)
    rw [length_append]
    omega

end Grow

section Read

variable {b : BitVec 32} {w got : List (BitVec 8)} {closed : Bool} {p : Pcb} {r q : ℕ}

section

variable (h : ReceivesAt b w closed p.toRcv got r q) (hw : w.length + 1 < 2 ^ 31)
include h hw

theorem ReceivesAt.avail : (p.rcvNxt - p.rcvRead).toNat = r - q := by
  have := h.nxt_bound
  rw [h.nxt, h.read, toNat_serial_sub h.le (by omega)]

theorem ReceivesAt.takesFin_eq_false (len : ℕ) :
    p.takesFin len = false ↔ q + min len (r - q) ≤ w.length := by
  have hRead := h.read_le
  unfold takesFin
  rw [h.avail hw]
  cases hSeen : p.finSeen with
  | false =>
    have := h.nxt_le hSeen
    exact iff_of_true rfl (by omega)
  | true =>
    have hEnd := (h.fin hSeen).1
    have hNe : p.rcvRead ≠ p.rcvNxt := by
      rw [h.nxt, h.read, Ne, serial_inj (by omega) (by omega)]
      omega
    simp only [hNe, ne_eq, not_false_eq_true, decide_true, Bool.and_self, Bool.true_and,
      decide_eq_false_iff_not, not_le]
    omega

/-- The bytes of a read that stays before the FIN are the next ones of the stream. -/
theorem ReceivesAt.tcpRead {len : ℕ} (hLen : q + min len (r - q) ≤ w.length) :
    got ++ p.tcpRead len = w.take (q + min len (r - q)) := by
  have hLe := h.le
  unfold Pcb.tcpRead
  rw [h.avail hw, h.read, h.ring.read le_rfl (by omega), h.got, take_add]

theorem ReceivesAt.consume {len : ℕ} (hLen : q + min len (r - q) ≤ w.length) :
    ReceivesAt b w closed (p.consume len).toRcv (got ++ p.tcpRead len) r (q + min len (r - q)) := by
  have hLe := h.le
  refine ⟨h.nxt, ?_, h.tcpRead hw hLen, by omega, hLen, h.nxt_le, h.fin, ?_,
    h.ring.mono (Nat.le_add_right _ _) le_rfl, h.keeps⟩
  · change p.rcvRead + BitVec.ofNat 32 (min len (p.rcvNxt - p.rcvRead).toNat) = _
    rw [h.avail hw, h.read, serial_add_ofNat]
  · have := h.room
    omega

theorem ReceivesAt.phantom {len : ℕ} (hLen : p.takesFin len) :
    closed ∧ ∃ x, got ++ p.tcpRead len = w ++ [x] := by
  have hOver : ¬ q + min len (r - q) ≤ w.length := by
    rw [← h.takesFin_eq_false hw, hLen]
    decide
  have hSeen : p.finSeen := by
    by_contra hNot
    have := h.nxt_le (not_eq_true _ ▸ hNot)
    have := h.le
    omega
  obtain ⟨hEnd, hClosed⟩ := h.fin hSeen
  have hRead := h.read_le
  refine ⟨hClosed, p.rx (slot ringBits (serial b q + BitVec.ofNat 32 (w.length - q))), ?_⟩
  have hCount : min len (r - q) = w.length - q + 1 := by omega
  have hAll : ringRead ringBits p.rx (serial b q) (w.length - q) = w.drop q := by
    rw [h.ring.read le_rfl (by omega), ← length_drop, take_length]
  unfold Pcb.tcpRead
  rw [h.avail hw, h.read, hCount, ringRead, range_succ, map_append]
  change got ++ (ringRead ringBits p.rx (serial b q) (w.length - q) ++ _) = _
  rw [hAll, h.got, ← append_assoc, take_append_drop]
  rfl

end

end Read

namespace Wire

variable {s : Wire} {base : Side → BitVec 32} {x : Side}

structure Good (s : Wire) (base : Side → BitVec 32) : Prop where
  endpoint : ∀ x, Endpoint (base x) (s.accepted x) (base x.other) (s.accepted x.other)
    (s.pcb x.other).finSent (s.got x) (s.pcb x)
  carries : ∀ x, ∀ seg ∈ s.sent x, seg.Carries (base x) (s.accepted x) (s.pcb x).finSent
  acks : ∀ x, ∀ seg ∈ s.sent x, seg.Acks (base x.other) (s.accepted x.other)
  bound : ∀ x, (s.accepted x).length + 1 < 2 ^ 31

/-- What a function of an endpoint leaves of the connection. -/
def Step (s : Wire) (base : Side → BitVec 32) (x : Side) (res : Pcb × List Segment) : Prop :=
  Leaves (base x) (s.accepted x) (base x.other) (s.accepted x.other) (s.pcb x.other).finSent
    (s.got x) (s.pcb x) res

theorem Good.put (h : s.Good base) {res : Pcb × List Segment} (hStep : s.Step base x res) :
    (s.put x res).Good base := by
  have hOther := x.other_ne
  refine ⟨fun y => ?_, fun y => ?_, fun y => ?_, h.bound⟩
  · by_cases hy : y = x
    · subst hy
      change Endpoint _ _ _ _ (update s.pcb y res.1 y.other).finSent _ (update s.pcb y res.1 y)
      rw [update_self, update_of_ne hOther]
      exact hStep.endpoint
    · have hyx : y.other = x := by cases x <;> cases y <;> first | rfl | exact absurd rfl hy
      have hEnd := h.endpoint y
      change Endpoint _ _ _ _ (update s.pcb x res.1 y.other).finSent _ (update s.pcb x res.1 y)
      rw [update_of_ne hy, hyx, update_self]
      rw [hyx] at hEnd
      exact ⟨hEnd.sends, hEnd.receives.mono hStep.ended, hEnd.synced⟩
  · by_cases hy : y = x
    · subst hy
      change ∀ seg ∈ update s.sent y (s.sent y ++ res.2) y,
        seg.Carries _ _ (update s.pcb y res.1 y).finSent
      rw [update_self, update_self]
      intro seg hSeg
      rcases mem_append.mp hSeg with hOld | hNew
      · exact (h.carries y seg hOld).mono hStep.ended
      · exact hStep.carries seg hNew
    · change ∀ seg ∈ update s.sent x (s.sent x ++ res.2) y,
        seg.Carries _ _ (update s.pcb x res.1 y).finSent
      rw [update_of_ne hy, update_of_ne hy]
      exact h.carries y
  · by_cases hy : y = x
    · subst hy
      change ∀ seg ∈ update s.sent y (s.sent y ++ res.2) y, seg.Acks _ _
      rw [update_self]
      intro seg hSeg
      rcases mem_append.mp hSeg with hOld | hNew
      · exact h.acks y seg hOld
      · exact hStep.acks seg hNew
    · change ∀ seg ∈ update s.sent x (s.sent x ++ res.2) y, seg.Acks _ _
      rw [update_of_ne hy]
      exact h.acks y

theorem other_eq_of_ne {y : Side} (h : y ≠ x) : y.other = x := by
  cases x <;> cases y <;> first | rfl | exact absurd rfl h

theorem Good.accept (h : s.Good base) (hOpen : (s.pcb x).finSent = false) {bytes : List (BitVec 8)}
    (hFit : bytes.length ≤ (s.pcb x).txSpace)
    (hBound : (s.accepted x).length + bytes.length + 1 < 2 ^ 31) :
    ((s.accept x bytes).put x ((s.pcb x).queue bytes, [])).Good base := by
  have hOther := x.other_ne
  have hQueue : ((s.pcb x).queue bytes).finSent = false := hOpen
  have hCarries := h.carries x
  rw [hOpen] at hCarries
  unfold Wire.accept Wire.put
  refine ⟨fun y => ?_, fun y => ?_, fun y => ?_, fun y => ?_⟩ <;> dsimp only <;>
    rcases eq_or_ne y x with rfl | hy
  · rw [update_self, update_self, update_of_ne hOther, update_of_ne hOther]
    obtain ⟨u, v, hs⟩ := (h.endpoint y).sends
    exact ⟨⟨u, v, hs.queue hOpen hFit⟩, (h.endpoint y).receives, (h.endpoint y).synced⟩
  · have hEnd := h.endpoint y
    rw [other_eq_of_ne hy] at hEnd ⊢
    rw [update_of_ne hy, update_of_ne hy, update_self, update_self, hQueue]
    exact ⟨hEnd.sends, (hOpen ▸ hEnd.receives).append bytes, hEnd.synced⟩
  · rw [update_self, update_self, update_self, hQueue, append_nil]
    exact fun seg hSeg => (hCarries seg hSeg).append bytes
  · rw [update_of_ne hy, update_of_ne hy, update_of_ne hy]
    exact h.carries y
  · rw [update_self, update_of_ne hOther, append_nil]
    exact h.acks y
  · have hAcks := h.acks y
    rw [other_eq_of_ne hy] at hAcks ⊢
    rw [update_of_ne hy, update_self]
    exact fun seg hSeg => (hAcks seg hSeg).append bytes
  · rw [update_self, length_append]
    omega
  · rw [update_of_ne hy]
    exact h.bound y

theorem put_put (s : Wire) (x : Side) (p : Pcb) (res : Pcb × List Segment) :
    (s.put x (p, [])).put x res = s.put x res := by
  unfold put
  dsimp only
  rw [update_self, update_idem, update_idem, append_nil]

theorem Good.write (h : s.Good base) {buf : List (BitVec 8)} {now : ℕ}
    (hBound : (s.accepted x).length + buf.length + 1 < 2 ^ 31) :
    (s.exec (.write x buf now)).Good base := by
  have hNone : ∀ n : ℕ,
      ((s.accept x (buf.take (-(n : ℤ)).toNat)).put x (s.pcb x, [])).Good base := by
    intro n
    have hSame : s.accept x (buf.take (-(n : ℤ)).toNat) = s := by
      unfold Wire.accept
      simp
    rw [hSame]
    exact h.put (.quiet (h.endpoint x) fun hEnd => hEnd)
  unfold exec tcpWrite
  dsimp only
  split
  · exact hNone _
  next hActive =>
    split
    · exact hNone _
    next hQueued =>
      split
      · exact hNone 0
      next hSome =>
        have hOpen : (s.pcb x).finSent = false := by
          obtain ⟨u, v, hs⟩ := (h.endpoint x).sends
          by_contra hSent
          exact hQueued (hs.queued (not_eq_false _ ▸ hSent))
        generalize hn : min buf.length (s.pcb x).txSpace = n at hSome
        have hLen : (buf.take n).length = n := by
          rw [length_take]
          omega
        have hAccept := h.accept hOpen (show (buf.take n).length ≤ _ by omega) (by omega)
        have hPcb : ((s.accept x (buf.take n)).put x ((s.pcb x).queue (buf.take n), [])).pcb x =
            (s.pcb x).queue (buf.take n) := update_self _ _ _
        have hOut : ((s.accept x (buf.take n)).put x ((s.pcb x).queue (buf.take n), [])).Step base x
            (((s.pcb x).queue (buf.take n)).tcpOutput now) := by
          unfold Step
          rw [hPcb]
          have hEnd := hAccept.endpoint x
          rw [hPcb] at hEnd
          exact hEnd.tcpOutput (hAccept.bound x)
        have hDone := hAccept.put hOut
        rw [put_put] at hDone
        exact hDone

theorem Good.read (h : s.Good base) {len : ℕ} (hLen : (s.pcb x).takesFin len = false) :
    (s.exec (.read x len)).Good base := by
  have hOther := x.other_ne
  have hw := h.bound x.other
  obtain ⟨hSends, ⟨r, q, hr⟩, hSynced⟩ := h.endpoint x
  have hFit := (hr.takesFin_eq_false hw len).mp hLen
  obtain ⟨u, v, hs⟩ := hSends
  have hRead : Endpoint (base x) (s.accepted x) (base x.other) (s.accepted x.other)
      (s.pcb x.other).finSent (s.got x ++ (s.pcb x).tcpRead len) ((s.pcb x).consume len) :=
    ⟨⟨u, v, hs.frame rfl (fun hActive => hActive) hs.armed⟩, ⟨r, _, hr.consume hw hFit⟩, hSynced⟩
  have hFin : ((s.pcb x).consume len).finSent = (s.pcb x).finSent := rfl
  change ((s.hand x ((s.pcb x).tcpRead len)).put x ((s.pcb x).consume len, [])).Good base
  unfold hand Wire.put
  refine ⟨fun y => ?_, fun y => ?_, fun y => ?_, h.bound⟩ <;> dsimp only <;>
    rcases eq_or_ne y x with rfl | hy
  · rw [update_self, update_self, update_of_ne hOther]
    exact hRead
  · have hEnd := h.endpoint y
    rw [other_eq_of_ne hy] at hEnd ⊢
    rw [update_of_ne hy, update_of_ne hy, update_self, hFin]
    exact hEnd
  · rw [update_self, update_self, hFin, append_nil]
    exact h.carries y
  · rw [update_of_ne hy, update_of_ne hy]
    exact h.carries y
  · rw [update_self, append_nil]
    exact h.acks y
  · rw [update_of_ne hy]
    exact h.acks y

/-- Fewer than `2^31` bytes are written on a side, a read stays before the FIN, and a FIN does not
come with data that does not fit in the ring. -/
def Careful (s : Wire) : TcpOp → Prop
  | .write x buf _ => (s.accepted x).length + buf.length + 1 < 2 ^ 31
  | .read x len => (s.pcb x).takesFin len = false
  | .deliver x seg _ _ => seg.seq = (s.pcb x).rcvNxt → seg.flags.fin →
      seg.data.length ≤ (s.pcb x).rxSpace
  | _ => True

instance (s : Wire) (op : TcpOp) : Decidable (s.Careful op) := by
  rcases op <;> unfold Careful <;> infer_instance

theorem Good.exec (h : s.Good base) {op : TcpOp} (hOn : s.Enabled op) (hCareful : s.Careful op) :
    (s.exec op).Good base := by
  cases op with
  | write x buf now => exact h.write hCareful
  | closeWrite x now => exact h.put ((h.endpoint x).tcpCloseWrite (h.bound x))
  | read x len => exact h.read hCareful
  | deliver x seg iss now =>
    have hAcks := h.acks x.other seg hOn
    rw [Side.other_other] at hAcks
    exact h.put ((h.endpoint x).tcpInput (h.bound x) (h.bound x.other)
      (h.carries x.other seg hOn) hAcks iss hCareful)
  | tick x now => exact h.put ((h.endpoint x).tcpTick (h.bound x))

/-- Two endpoints after a handshake, each of which expects what the other will send next; on the
wire are at most segments of the handshake. -/
structure InStep (s : Wire) : Prop where
  established : ∀ x, (s.pcb x).state = .established
  sndUna : ∀ x, (s.pcb x).sndUna = (s.pcb x).sndNxt
  sndEnd : ∀ x, (s.pcb x).sndEnd = (s.pcb x).sndNxt
  rcvNxt : ∀ x, (s.pcb x).rcvNxt = (s.pcb x.other).sndNxt
  rcvRead : ∀ x, (s.pcb x).rcvRead = (s.pcb x).rcvNxt
  openEnds : ∀ x, (s.pcb x).finQueued = false ∧ (s.pcb x).finSent = false ∧
    (s.pcb x).finSeen = false ∧ (s.pcb x).rxShutdown = false
  disarmed : ∀ x, (s.pcb x).rtoAt = 0
  nothing : ∀ x, s.accepted x = [] ∧ s.got x = []
  wire : ∀ x, ∀ seg ∈ s.sent x, seg.data = [] ∧ seg.flags.fin = false ∧
    (seg.flags.ack → seg.ack = (s.pcb x).rcvNxt)

theorem InStep.good (h : s.InStep) : s.Good fun x => (s.pcb x).sndNxt := by
  have hEmpty : ∀ (b : BitVec 32) (ring : ℕ → BitVec 8) (lo hi : ℕ), hi ≤ lo →
      Window ringBits b [] ring lo hi := fun b ring lo hi hLe i h1 h2 => absurd h2 (by omega)
  refine ⟨fun x => ?_, fun x seg hSeg => ?_, fun x seg hSeg => ?_, fun x => ?_⟩
  · obtain ⟨hQueued, hSent, hSeen, hKeeps⟩ := h.openEnds x
    rw [(h.nothing x).1, (h.nothing x).2, (h.nothing x.other).1]
    refine ⟨⟨0, 0, ?_⟩, ⟨0, 0, ?_⟩, ?_⟩
    · exact
        { una := by rw [serial_zero, h.sndUna]
          nxt := by rw [serial_zero]
          stop := by rw [length_nil, serial_zero, h.sndEnd]
          le := le_rfl
          nxt_le := fun _ => le_rfl
          nxt_fin := fun hFin => absurd (hSent.symm.trans hFin) (by decide)
          room := Nat.zero_le _
          ring := hEmpty _ _ _ _ le_rfl
          queued := fun hFin => absurd (hSent.symm.trans hFin) (by decide)
          idle := fun hFin => absurd (hSent.symm.trans hFin) (by decide)
          armed := fun hNe => absurd (h.disarmed x) hNe }
    · exact
        { nxt := by rw [serial_zero, h.rcvNxt]
          read := by rw [serial_zero, h.rcvRead, h.rcvNxt]
          got := rfl
          le := le_rfl
          read_le := le_rfl
          nxt_le := fun _ => le_rfl
          fin := fun hFin => absurd (hSeen.symm.trans hFin) (by decide)
          room := Nat.zero_le _
          ring := hEmpty _ _ _ _ le_rfl
          keeps := hKeeps }
    · unfold synced
      rw [h.established]
      exact ⟨State.noConfusion, State.noConfusion, State.noConfusion⟩
  · exact .inr (.inl ⟨(h.wire x seg hSeg).1, (h.wire x seg hSeg).2.1⟩)
  · by_cases hAck : seg.flags.ack
    · refine .inr (.inr ⟨0, Nat.zero_le _, ?_⟩)
      rw [serial_zero, (h.wire x seg hSeg).2.2 hAck, h.rcvNxt]
    · exact .inr (.inl (not_eq_true _ ▸ hAck))
  · rw [(h.nothing x).1]
    decide

/-- From endpoints that are in step, the bytes read on a side are a prefix of the bytes written on
the other, and a read returns the next ones exactly if it stays before the FIN; one that takes the
FIN returns all bytes that were left and one more. -/
theorem stream_integrity
    (hRun : Reaches InStep (fun s op => s.Enabled op ∧ s.Careful op) exec s) (x : Side) :
    s.got x <+: s.accepted x.other ∧ ((s.pcb x).tcpEof = true →
        (s.pcb x.other).finQueued = true ∧ s.got x = s.accepted x.other) ∧
      ∀ len, (s.got x ++ (s.pcb x).tcpRead len <+: s.accepted x.other ↔
      (s.pcb x).takesFin len = false) ∧
        ((s.pcb x).takesFin len = true → (s.pcb x.other).finQueued = true ∧
          ∃ b, s.got x ++ (s.pcb x).tcpRead len = s.accepted x.other ++ [b]) := by
  obtain ⟨base, hGood⟩ : ∃ base, s.Good base :=
    Reaches.invariant (I := fun s : Wire => ∃ base, s.Good base) (fun s h => ⟨_, h.good⟩)
      (fun s op h hStep => h.imp fun base hGood => hGood.exec hStep.1 hStep.2) hRun
  have hw := hGood.bound x.other
  obtain ⟨-, ⟨r, q, hr⟩, -⟩ := hGood.endpoint x
  have hQueued : (s.pcb x.other).finSent → (s.pcb x.other).finQueued := by
    obtain ⟨⟨u, v, hs⟩, -, -⟩ := hGood.endpoint x.other
    exact hs.queued
  refine ⟨?_, fun hEof => ?_, fun len => ⟨?_, fun hTakes => ?_⟩⟩
  · rw [hr.got]
    exact take_prefix _ _
  · -- with the FIN still unread the two numbers differ
    unfold tcpEof at hEof
    rw [and_eq_true, decide_eq_true_eq, hr.read, hr.nxt] at hEof
    have hEnd := (hr.fin hEof.1).1
    have hRead := hr.read_le
    have := (serial_inj (by omega) (by omega)).mp hEof.2
    omega
  · rw [hr.takesFin_eq_false hw]
    constructor
    · intro hPrefix
      have hLen := hPrefix.length_le
      rw [length_append, hr.got, length_take, tcpRead, ringRead, length_map,
        length_range, hr.avail hw] at hLen
      have := hr.read_le
      omega
    · intro hFit
      rw [hr.tcpRead hw hFit]
      exact take_prefix _ _
  · obtain ⟨hClosed, hByte⟩ := hr.phantom hw hTakes
    exact ⟨hQueued hClosed, hByte⟩

def pair : Wire where
  pcb _ := cwndInit { state := .established }
  sent _ := []
  accepted _ := []
  got _ := []

theorem inStep_pair : pair.InStep := by
  constructor <;> intro x <;> simp [pair, cwndInit]

def firstSegment : Segment := ⟨0, 0, { ack := true, psh := true }, 4096, none, [1, 2, 3]⟩

def shortRun : List TcpOp :=
  [.write .a [1, 2, 3] 0, .deliver .b firstSegment 0 0, .deliver .b firstSegment 0 0, .read .b 2]

theorem stream_integrity_shortRun : (shortRun.foldl exec pair).got .b = [1, 2] ∧
      (shortRun.foldl exec pair).got .b <+: (shortRun.foldl exec pair).accepted .a :=
  ⟨by decide +kernel,
    (stream_integrity (Reaches.foldl (.start inStep_pair) shortRun (by decide +kernel)) .b).1⟩

/-- Side `a` has called `tcp_connect`, and side `b` listens. -/
def opening (iss : BitVec 32) : Wire where
  pcb x := match x with
    | .a => (tcpConnect iss 0).1
    | .b => { state := .listen }
  sent x := match x with
    | .a => (tcpConnect iss 0).2
    | .b => []
  accepted _ := []
  got _ := []

/-- The SYN of side `a`, the answer of side `b`, which takes the number `iss'`, and its
acknowledgement. -/
def handshake (iss iss' : BitVec 32) : List TcpOp :=
  [.deliver .b ⟨iss, 0, { syn := true }, 4096, some 1460, []⟩ iss' 0,
    .deliver .a ⟨iss', iss + 1, { syn := true, ack := true }, 4096, some 1460, []⟩ 0 0,
    .deliver .b ⟨iss + 1, iss' + 1, { ack := true }, 4096, none, []⟩ 0 0]

/-- A block after the handshake: `snd_end` still has the number of the SYN. -/
def shaken (iss iss' : BitVec 32) : Pcb :=
  cwndInit {
    sndUna := iss + 1, sndNxt := iss + 1, sndEnd := iss, rcvNxt := iss' + 1, rcvRead := iss' + 1,
    state := .established }

def connected (iss iss' : BitVec 32) : Wire where
  pcb x := match x with
    | .a => shaken iss iss'
    | .b => shaken iss' iss
  sent x := match x with
    | .a => [⟨iss, 0, { syn := true }, 4096, some 1460, []⟩,
      ⟨iss + 1, iss' + 1, { ack := true }, 4096, none, []⟩]
    | .b => [⟨iss', iss + 1, { syn := true, ack := true }, 4096, some 1460, []⟩]
  accepted _ := []
  got _ := []

theorem foldl_handshake (iss iss' : BitVec 32) :
    (handshake iss iss').foldl exec (opening iss) = connected iss iss' := by
  unfold handshake opening connected
  simp only [foldl_cons, foldl_nil, exec, put, Wire.mk.injEq]
  refine ⟨funext fun x => ?_, funext fun x => ?_, by simp⟩ <;> cases x <;>
    simp [shaken, tcpConnect, emit, tcpInput, synArrived, synAckArrived, mssFromOptions, sendAck,
      rtoArm, cwndInit, ackStage, ackArrived, textArrived, takeData, finAcked, mss, tcpBufSize,
      tcpMss]

/-- Two endpoints whose `snd_end` is behind the SYN. -/
def synCounted (s : Wire) : Wire :=
  { s with pcb := fun x => { s.pcb x with sndEnd := (s.pcb x).sndNxt } }

/-- The handshake of the code leaves the endpoints in step but for `snd_end`. -/
theorem inStep_handshake (iss iss' : BitVec 32) :
    (synCounted ((handshake iss iss').foldl exec (opening iss))).InStep := by
  rw [foldl_handshake]
  constructor <;> intro x <;> cases x <;> simp [connected, synCounted, shaken, cwndInit, Side.other]

/-- Two bytes are written on side `a`, and side `b` reads what comes. -/
def greeting : List TcpOp :=
  [.write .a [97, 98] 0, .deliver .b ⟨1001, 5001, { ack := true, psh := true }, 4096, none,
    [98]⟩ 0 0, .read .b 10]

/-- Side `a` closes, and side `b` reads. -/
def farewell : List TcpOp :=
  [.closeWrite .a 0, .deliver .b ⟨0, 0, { ack := true, fin := true }, 4096, none, []⟩ 0 0,
    .read .b 1]

/-- After the handshake of the code the first byte is lost, since `snd_end` still has the number of
the SYN; and a FIN is read as a byte. -/
theorem stream_not_intact : (Along Enabled exec (opening 1000) (handshake 1000 5000 ++ greeting) ∧
      (∀ x ∈ [Side.a, Side.b], (((handshake 1000 5000).foldl exec (opening 1000)).pcb x).state =
      .established ∧
        (((handshake 1000 5000).foldl exec (opening 1000)).pcb x).sndEnd + 1 =
        (((handshake 1000 5000).foldl exec (opening 1000)).pcb x).sndNxt) ∧
      ((handshake 1000 5000 ++ greeting).foldl exec (opening 1000)).accepted .a = [97, 98] ∧
      ((handshake 1000 5000 ++ greeting).foldl exec (opening 1000)).got .b = [98]) ∧
    Along Enabled exec pair farewell ∧ (farewell.foldl exec pair).accepted .a = [] ∧
      (farewell.foldl exec pair).got .b = [0] := by
  decide +kernel

end Wire

end Gnos.Tcp
