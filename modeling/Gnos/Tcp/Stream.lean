import Gnos.ProofKit.Runs
import Gnos.Tcp.Model

/-! Stream integrity between two endpoints that are in step when they start.  Each direction has a
stream of bytes whose first number is `base`; `Sends` and `Receives` say where its two ends are, and
`Segment.Carries` and `Segment.Acks` what the segments on the wire have of it. -/

namespace Gnos.Tcp

open ProofKit List State Pcb Bool Nat

variable {seg : Segment} {n : ℕ}

/-- The sender of the stream `w`: what is acknowledged ends at `u`, what is sent at `v`. -/
structure SendsAt (base : BitVec 32) (w : List (BitVec 8)) (p : Pcb) (u v : ℕ) : Prop where
  una : p.sndUna = serial base u
  nxt : p.sndNxt = serial base v
  stop : p.sndEnd = serial base w.length
  le : u ≤ v
  nxt_le : p.finSent = false → v ≤ w.length
  /-- The FIN follows the last byte. -/
  nxt_fin : p.finSent → v = w.length + 1
  room : w.length ≤ u + 2 ^ ringBits
  ring : Window ringBits base w p.tx u w.length
  queued : p.finSent → p.finQueued
  idle : p.finSent → p.active = false
  armed : p.rtoAt ≠ 0 → u < v

def Sends (base : BitVec 32) (w : List (BitVec 8)) (p : Pcb) : Prop := ∃ u v, SendsAt base w p u v

/-- The receiver of the stream `w`, which has come to `r` and is read up to `q`; `closed` says that
the stream has ended. -/
structure ReceivesAt (base : BitVec 32) (w : List (BitVec 8)) (closed : Bool) (p : Rcv)
    (got : List (BitVec 8)) (r q : ℕ) : Prop where
  nxt : p.rcvNxt = serial base r
  read : p.rcvRead = serial base q
  got : got = w.take q
  le : q ≤ r
  read_le : q ≤ w.length
  nxt_le : p.finSeen = false → r ≤ w.length
  fin : p.finSeen → r = w.length + 1 ∧ closed
  room : min r w.length ≤ q + 2 ^ ringBits
  ring : Window ringBits base w p.rx q (min r w.length)
  keeps : p.rxShutdown = false

def Receives (base : BitVec 32) (w : List (BitVec 8)) (closed : Bool) (p : Rcv)
    (got : List (BitVec 8)) : Prop := ∃ r q, ReceivesAt base w closed p got r q

/-- The data of a segment is a part of the stream, and its FIN the end. -/
def Segment.Carries (base : BitVec 32) (w : List (BitVec 8)) (closed : Bool) (seg : Segment) :
    Prop :=
  seg.flags.rst ∨ (seg.data = [] ∧ seg.flags.fin = false) ∨
    ∃ i, seg.seq = serial base i ∧ i + seg.data.length ≤ w.length ∧
      (∀ j < seg.data.length, w[i + j]? = seg.data[j]?) ∧
      (seg.flags.fin → i + seg.data.length = w.length ∧ closed)

/-- The segment acknowledges no more than the stream and its end. -/
def Segment.Acks (base : BitVec 32) (w : List (BitVec 8)) (seg : Segment) : Prop :=
  seg.flags.rst ∨ seg.flags.ack = false ∨ ∃ n ≤ w.length + 1, seg.ack = serial base n

def Pcb.synced (p : Pcb) : Prop := p.state ≠ .listen ∧ p.state ≠ .synSent ∧ p.state ≠ .synRcvd

/-- An endpoint that sends the stream `w` and receives `w'`. -/
structure Endpoint (base : BitVec 32) (w : List (BitVec 8)) (base' : BitVec 32)
    (w' : List (BitVec 8)) (closed' : Bool) (got : List (BitVec 8)) (p : Pcb) : Prop where
  sends : Sends base w p
  receives : Receives base' w' closed' p.toRcv got
  synced : p.synced

/-- What a function of an endpoint leaves: the endpoint in order, good segments, and a stream that
has ended does not go on. -/
structure Leaves (base : BitVec 32) (w : List (BitVec 8)) (base' : BitVec 32) (w' : List (BitVec 8))
    (closed' : Bool) (got : List (BitVec 8)) (p : Pcb) (res : Pcb × List Segment) : Prop where
  endpoint : Endpoint base w base' w' closed' got res.1
  carries : ∀ seg ∈ res.2, seg.Carries base w res.1.finSent
  acks : ∀ seg ∈ res.2, seg.Acks base' w'
  ended : p.finSent → res.1.finSent

section Endpoints

variable {base base' : BitVec 32} {w w' : List (BitVec 8)} {closed' : Bool} {got : List (BitVec 8)}
  {p p' : Pcb} {u v : ℕ} {now : ℕ}

theorem Segment.Carries.mono {closed closed' : Bool} (h : seg.Carries base w closed)
    (hClosed : closed → closed') : seg.Carries base w closed' := by
  rcases h with hRst | hPlain | ⟨i, hSeq, hLen, hSlice, hFin⟩
  · exact .inl hRst
  · exact .inr (.inl hPlain)
  · exact .inr (.inr ⟨i, hSeq, hLen, hSlice, fun h => ⟨(hFin h).1, hClosed (hFin h).2⟩⟩)

namespace Leaves

theorem quiet (h : Endpoint base w base' w' closed' got p') (hEnded : p.finSent → p'.finSent) :
    Leaves base w base' w' closed' got p (p', []) :=
  ⟨h, by simp, by simp, hEnded⟩

theorem of_eq {r : Pcb × List Segment} (h : Leaves base w base' w' closed' got p r)
    (hFin : p'.finSent = p.finSent) : Leaves base w base' w' closed' got p' r :=
  ⟨h.endpoint, h.carries, h.acks, fun hEnd => h.ended (hFin ▸ hEnd)⟩

theorem trans {r r' : Pcb × List Segment} (h : Leaves base w base' w' closed' got p r)
    (h' : Leaves base w base' w' closed' got r.1 r') :
    Leaves base w base' w' closed' got p (r'.1, r.2 ++ r'.2) where
  endpoint := h'.endpoint
  carries seg hSeg := by
    rcases mem_append.mp hSeg with hOld | hNew
    · exact (h.carries seg hOld).mono h'.ended
    · exact h'.carries seg hNew
  acks seg hSeg := by
    rcases mem_append.mp hSeg with hOld | hNew
    · exact h.acks seg hOld
    · exact h'.acks seg hNew
  ended hFin := h'.ended (h.ended hFin)

end Leaves

section

variable (h : SendsAt base w p u v)
include h

theorem SendsAt.frame (hSnd : p'.toSnd = p.toSnd) (hActive : p'.active → p.active)
    (hArmed : p'.rtoAt ≠ 0 → u < v) : SendsAt base w p' u v := by
  have hFin : p'.finSent = p.finSent := by rw [hSnd]
  refine ⟨by rw [hSnd]; exact h.una, by rw [hSnd]; exact h.nxt, by rw [hSnd]; exact h.stop, h.le,
    by rw [hSnd]; exact h.nxt_le, by rw [hSnd]; exact h.nxt_fin, h.room, by rw [hSnd]; exact h.ring,
    by rw [hSnd]; exact h.queued, fun hSent => ?_, hArmed⟩
  rw [hFin] at hSent
  by_contra hNot
  have := hActive (not_eq_false _ ▸ hNot)
  rw [h.idle hSent] at this
  exact absurd this (by decide)

theorem SendsAt.nxt_bound : v ≤ w.length + 1 := by
  cases hFin : p.finSent with
  | true => exact (h.nxt_fin hFin).le
  | false => exact (h.nxt_le hFin).trans (le_succ _)

section

variable (hw : w.length + 1 < 2 ^ 31) (hOpen : p.finSent = false)
include hw hOpen

theorem SendsAt.unsent : (p.sndEnd - p.sndNxt).toNat = w.length - v := by
  rw [h.stop, h.nxt, toNat_serial_sub (h.nxt_le hOpen) (by omega)]

theorem SendsAt.sendable_le : v + p.sendable ≤ w.length := by
  have hLe : p.sendable ≤ (p.sndEnd - p.sndNxt).toNat := by
    unfold sendable
    dsimp only
    omega
  rw [h.unsent hw hOpen] at hLe
  have := h.nxt_le hOpen
  omega

end

end

theorem Receives.acks_emit (h : Receives base' w' closed' p.toRcv got) (seq : BitVec 32)
    (flags : Flags) (data : List (BitVec 8)) : (p.emit seq flags data).Acks base' w' := by
  obtain ⟨r, q, h⟩ := h
  by_cases hAck : flags.ack
  · refine .inr (.inr ⟨r, ?_, ?_⟩)
    · cases hFin : p.finSeen with
      | true => exact (h.fin hFin).1.le
      | false => exact (h.nxt_le hFin).trans (le_succ _)
    · change (if flags.ack then p.rcvNxt else 0) = _
      rw [if_pos hAck, h.nxt]
  · exact .inr (.inl (not_eq_true _ ▸ hAck))

theorem take_drop_slice (w : List (BitVec 8)) {i : ℕ} (h : i + n ≤ w.length) :
    ((w.drop i).take n).length = n ∧ ∀ j < n, w[i + j]? = ((w.drop i).take n)[j]? := by
  refine ⟨by rw [length_take, length_drop]; omega, fun j hj => ?_⟩
  rw [getElem?_take_of_lt hj, getElem?_drop]

theorem carries_of_window {ring : ℕ → BitVec 8} {lo i : ℕ} {closed : Bool}
    (h : Window ringBits base w ring lo w.length) (hLo : lo ≤ i) (hLen : i + n ≤ w.length)
    (hSeq : seg.seq = serial base i) (hData : seg.data = ringRead ringBits ring (serial base i) n)
    (hFin : seg.flags.fin → i + n = w.length ∧ closed) : seg.Carries base w closed := by
  obtain ⟨hCount, hSlice⟩ := take_drop_slice w hLen
  rw [h.read hLo hLen] at hData
  refine .inr (.inr ⟨i, hSeq, ?_, ?_, ?_⟩) <;> rw [hData, hCount]
  · exact hLen
  · exact hSlice
  · exact hFin

section

variable (h : Endpoint base w base' w' closed' got p) (hw : w.length + 1 < 2 ^ 31)
include h hw

theorem Endpoint.sendData (hOpen : p.finSent = false) :
    Leaves base w base' w' closed' got p (p.sendData now) := by
  obtain ⟨u, v, hs⟩ := h.sends
  unfold Pcb.sendData
  dsimp only
  split
  next hn =>
    have hLe := hs.sendable_le hw hOpen
    refine ⟨⟨⟨u, v + p.sendable, ?_⟩, h.receives, h.synced⟩, ?_, ?_, fun hFin => hFin⟩
    · exact
        { hs with
          nxt := by
            change p.sndNxt + BitVec.ofNat 32 p.sendable = _
            rw [hs.nxt, serial_add_ofNat]
          le := hs.le.trans (le_add_right _ _)
          nxt_le := fun _ => hLe
          nxt_fin := fun hFin => absurd (hOpen.symm.trans hFin) (by decide)
          armed := fun _ => by have := hs.le; omega }
    · simp only [mem_singleton, forall_eq]
      exact carries_of_window hs.ring hs.le hLe hs.nxt (by rw [← hs.nxt]; rfl)
        fun hFin => Bool.noConfusion hFin
    · simp only [mem_singleton, forall_eq]
      exact h.receives.acks_emit _ _ _
  next => exact .quiet h fun hFin => hFin

theorem Endpoint.sendFin : Leaves base w base' w' closed' got p (p.sendFin now) := by
  obtain ⟨u, v, hs⟩ := h.sends
  unfold Pcb.sendFin
  split
  next hNow =>
    simp only [and_eq_true, not_eq_true', decide_eq_true_eq] at hNow
    obtain ⟨⟨hQueued, hOpen⟩, hAll⟩ := hNow
    have hEnd : v = w.length := by
      have hLe := hs.nxt_le hOpen
      rw [hs.nxt, hs.stop, serial_inj (by omega) (by omega)] at hAll
      exact hAll
    refine ⟨⟨⟨u, v + 1, ?_⟩, h.receives, ?_⟩, ?_, ?_, fun _ => rfl⟩
    · exact
        { hs with
          nxt := by
            change p.sndNxt + 1 = _
            rw [hs.nxt, serial_add_one]
          le := hs.le.trans (le_succ _)
          nxt_le := fun hFin => Bool.noConfusion hFin
          nxt_fin := fun _ => by omega
          queued := fun _ => hQueued
          idle := fun _ => by
            unfold rtoArm active
            split_ifs <;> simp_all
          armed := fun _ => lt_succ_of_le hs.le }
    · have := h.synced
      unfold Pcb.rtoArm Pcb.synced at *
      split_ifs <;> simp_all
    · simp only [mem_singleton, forall_eq]
      exact carries_of_window (n := 0) hs.ring hs.le (by omega) hs.nxt rfl fun _ => ⟨hEnd, rfl⟩
    · simp only [mem_singleton, forall_eq]
      exact h.receives.acks_emit _ _ _
  next => exact .quiet h fun hFin => hFin

theorem Endpoint.tcpOutput : Leaves base w base' w' closed' got p (p.tcpOutput now) := by
  unfold Pcb.tcpOutput
  split
  next hActive =>
    have hOpen : p.finSent = false := by
      obtain ⟨u, v, hs⟩ := h.sends
      by_contra hSent
      have := hs.idle (not_eq_false _ ▸ hSent)
      rw [hActive] at this
      exact absurd this (by decide)
    exact (h.sendData hw hOpen).trans ((h.sendData hw hOpen).endpoint.sendFin hw)
  next => exact .quiet h fun hFin => hFin

end

section

variable (h : SendsAt base w p u v)
include h

theorem SendsAt.txSpace (hOpen : p.finSent = false) : w.length + p.txSpace = u + 2 ^ ringBits := by
  have hRoom := h.room
  have hLe := h.le.trans (h.nxt_le hOpen)
  unfold Pcb.txSpace tcpBufSize
  rw [h.stop, h.una, serial_sub hLe]
  unfold ringBits at *
  change w.length + (2 ^ 32 - (w.length - u) % 2 ^ 32 + 4096) % 2 ^ 32 = u + 2 ^ 12
  omega

theorem SendsAt.queue (hOpen : p.finSent = false) {bytes : List (BitVec 8)}
    (hFit : bytes.length ≤ p.txSpace) : SendsAt base (w ++ bytes) (p.queue bytes) u v := by
  have hSpace := h.txSpace hOpen
  have hLe := h.nxt_le hOpen
  exact
    { h with
      stop := by
        change p.sndEnd + BitVec.ofNat 32 bytes.length = _
        rw [h.stop, serial_add_ofNat, length_append]
      nxt_le := fun _ => by rw [length_append]; omega
      nxt_fin := fun hFin => absurd (hOpen.symm.trans hFin) (by decide)
      room := by rw [length_append]; omega
      ring := by
        change Window ringBits base _ (ringWrite ringBits p.tx p.sndEnd bytes) u _
        rw [h.stop, length_append]
        refine (h.ring.append bytes).write (by decide) (fun j hj => ?_) (by have := h.le; omega)
          (by omega)
        rw [getElem?_append_right (Nat.le_add_right _ _), Nat.add_sub_cancel_left] }

theorem SendsAt.carries_retransmission (hLt : u < v) (hw : w.length + 1 < 2 ^ 31)
    (hSynced : p.synced) : p.retransmission.Carries base w p.finSent := by
  have hLe : u ≤ w.length := by
    have := h.nxt_bound
    omega
  have hHeld : (p.sndEnd - p.sndUna).toNat = w.length - u := by
    rw [h.stop, h.una, toNat_serial_sub hLe (by omega)]
  unfold retransmission
  rw [if_neg hSynced.2.1, if_neg hSynced.2.2]
  rw [hHeld]
  refine carries_of_window (n := min (w.length - u) p.sndMss) h.ring le_rfl (by omega) h.una
    (by rw [← h.una]; rfl) fun hFin => ?_
  change (p.finSent && decide (p.sndUna + BitVec.ofNat 32 (min (w.length - u) p.sndMss) =
    p.sndEnd)) = true at hFin
  rw [and_eq_true, decide_eq_true_eq, h.una, h.stop, serial_add_ofNat,
    serial_inj (by omega) (by omega)] at hFin
  exact hFin.symm

end

theorem Endpoint.tcpCloseWrite (h : Endpoint base w base' w' closed' got p)
    (hw : w.length + 1 < 2 ^ 31) :
    Leaves base w base' w' closed' got p (p.tcpCloseWrite now).2 := by
  unfold Pcb.tcpCloseWrite
  split
  · exact .quiet h fun hFin => hFin
  · obtain ⟨u, v, hs⟩ := h.sends
    have hQueue : Endpoint base w base' w' closed' got { p with finQueued := true } :=
      ⟨⟨u, v, { hs with queued := fun _ => rfl }⟩, h.receives, h.synced⟩
    exact (hQueue.tcpOutput hw).of_eq rfl

theorem Endpoint.tcpRetransmit (h : Endpoint base w base' w' closed' got p)
    (hs : SendsAt base w p u v) (hLt : u < v) (hw : w.length + 1 < 2 ^ 31) :
    Leaves base w base' w' closed' got p (p.tcpRetransmit now) := by
  unfold Pcb.tcpRetransmit
  dsimp only
  split
  · refine .quiet ⟨⟨u, v, hs.frame rfl ?_ fun _ => hLt⟩, h.receives, ?_⟩ fun hFin => hFin
    · intro hActive
      exact absurd hActive (by simp [giveUp, active])
    · exact ⟨noConfusion, noConfusion, noConfusion⟩
  · have hAgain : SendsAt base w { p with retries := p.retries + 1 } u v :=
      hs.frame rfl (fun hActive => hActive) fun _ => hLt
    refine ⟨⟨⟨u, v, hs.frame rfl (fun hActive => hActive) fun _ => hLt⟩, h.receives, h.synced⟩, ?_,
      ?_, fun hFin => hFin⟩
    · simp only [mem_singleton, forall_eq]
      exact hAgain.carries_retransmission hLt hw h.synced
    · simp only [mem_singleton, forall_eq]
      unfold retransmission
      split_ifs
      all_goals exact Receives.acks_emit (p := { p with retries := p.retries + 1 }) h.receives _ _ _

section

variable (h : Endpoint base w base' w' closed' got p)
include h

theorem Endpoint.ackProgress (hs : SendsAt base w p u v) (hu : u < n) (hv : n ≤ v)
    (hw : w.length + 1 < 2 ^ 31) :
    Leaves base w base' w' closed' got p (p.ackProgress (serial base n) now) := by
  have hAcked : ∀ p' : Pcb, p'.toSnd = { p.toSnd with sndUna := serial base n } →
      p'.active = p.active → (p'.rtoAt ≠ 0 → n < v) → SendsAt base w p' n v := by
    intro p' hSnd hActive hArmed
    have hFin : p'.finSent = p.finSent := by rw [hSnd]
    refine ⟨by rw [hSnd], by rw [hSnd]; exact hs.nxt, by rw [hSnd]; exact hs.stop, hv,
      by rw [hSnd]; exact hs.nxt_le, by rw [hSnd]; exact hs.nxt_fin, by have := hs.room; omega, ?_,
      by rw [hSnd]; exact hs.queued, fun hSent => ?_, hArmed⟩
    · rw [hSnd]
      exact hs.ring.mono hu.le le_rfl
    · rw [hActive]
      exact hs.idle (hFin ▸ hSent)
  have hCredit : (p.creditAck (serial base n)).toSnd = { p.toSnd with sndUna := serial base n } :=
    rfl
  unfold Pcb.ackProgress
  dsimp only
  split
  next hAll =>
    have hEnd : Endpoint base w base' w' closed' got (p.creditAck (serial base n)).disarm :=
      ⟨⟨n, v, hAcked _ hCredit rfl fun hNe => absurd rfl hNe⟩, h.receives, h.synced⟩
    exact (hEnd.tcpOutput hw).of_eq rfl
  next hSome =>
    have hPart : n < v := by
      refine lt_of_le_of_ne hv fun hEq => hSome ?_
      change serial base n = p.sndNxt
      rw [hs.nxt, hEq]
    have hMore : Endpoint base w base' w' closed' got ((p.creditAck (serial base n)).rtoArm now) :=
      ⟨⟨n, v, hAcked _ hCredit rfl fun _ => hPart⟩, h.receives, h.synced⟩
    exact (hMore.tcpOutput hw).of_eq rfl

theorem Endpoint.dupAck (hs : SendsAt base w p u v) (hLt : u < v) (hw : w.length + 1 < 2 ^ 31) :
    Leaves base w base' w' closed' got p (p.dupAck now) := by
  unfold Pcb.dupAck
  dsimp only
  have hFrame : ∀ p' : Pcb, p'.toSnd = p.toSnd → p'.state = p.state → SendsAt base w p' u v :=
    fun p' hSnd hState => hs.frame hSnd
      (fun hActive => by unfold active at hActive ⊢; rwa [← hState]) fun _ => hLt
  split
  · have hHalve := hFrame (halve { p with dupacks := add32 p.dupacks 1 }) rfl rfl
    exact (Endpoint.tcpRetransmit ⟨⟨u, v, hHalve⟩, h.receives, h.synced⟩ hHalve hLt hw).of_eq rfl
  · exact .quiet ⟨⟨u, v, hFrame _ rfl rfl⟩, h.receives, h.synced⟩ fun hFin => hFin

theorem Endpoint.ackArrived (now : ℕ) (hw : w.length + 1 < 2 ^ 31) (hn : n ≤ w.length + 1) :
    Leaves base w base' w' closed' got p (p.ackArrived (serial base n) now) := by
  obtain ⟨u, v, hs⟩ := h.sends
  have hBound := hs.nxt_bound
  have hLe := hs.le
  unfold Pcb.ackArrived
  rw [if_neg h.synced.2.2, hs.una, hs.nxt, seqLt_serial (by omega) (by omega),
    seqLeq_serial (by omega) (by omega), seqLt_serial (by omega) (by omega)]
  split
  next hNew =>
    simp only [and_eq_true, decide_eq_true_eq] at hNew
    exact h.ackProgress hs hNew.1 hNew.2 hw
  next =>
    split
    next hOut => exact h.dupAck hs (of_decide_eq_true hOut) hw
    next => exact .quiet h fun hFin => hFin

theorem Endpoint.finAcked (now : ℕ) :
    Endpoint base w base' w' closed' got (p.finAcked now) ∧ (p.finAcked now).toSnd = p.toSnd := by
  obtain ⟨u, v, hs⟩ := h.sends
  have hMove : ∀ p' : Pcb, p'.toSnd = p.toSnd → p'.toRcv = p.toRcv → p'.rtoAt = p.rtoAt →
      p'.active = false → p'.synced → Endpoint base w base' w' closed' got p' :=
    fun p' hSnd hRcv hRto hActive hSynced =>
      ⟨⟨u, v, hs.frame hSnd (by rw [hActive]; exact Bool.noConfusion)
        (by rw [hRto]; exact hs.armed)⟩, by rw [hRcv]; exact h.receives, hSynced⟩
  unfold Pcb.finAcked
  split_ifs
  all_goals first
    | exact ⟨h, rfl⟩
    | exact ⟨hMove _ rfl rfl rfl rfl (by simp [Pcb.synced]), rfl⟩

end

variable {closed : Bool} {r q : ℕ}

theorem ReceivesAt.nxt_bound {b : Rcv} (h : ReceivesAt base w closed b got r q) :
    r ≤ w.length + 1 := by
  cases hFin : b.finSeen with
  | true => exact (h.fin hFin).1.le
  | false => exact (h.nxt_le hFin).trans (le_succ _)

theorem ReceivesAt.rxSpace (h : ReceivesAt base w closed p.toRcv got r q) (hOpen : r ≤ w.length) :
    r + p.rxSpace = q + 2 ^ ringBits := by
  have hRoom := h.room
  have hLe := h.le
  unfold Pcb.rxSpace tcpBufSize
  rw [h.nxt, h.read, serial_sub hLe]
  unfold ringBits at *
  change r + (2 ^ 32 - (r - q) % 2 ^ 32 + 4096) % 2 ^ 32 = q + 2 ^ 12
  omega

theorem ReceivesAt.takeData (h : ReceivesAt base w closed p.toRcv got r q) {data : List (BitVec 8)}
    (hLen : r + data.length ≤ w.length) (hSlice : ∀ j < data.length, w[r + j]? = data[j]?) :
    ReceivesAt base w closed (p.takeData data).toRcv got (r + min data.length p.rxSpace) q := by
  unfold Pcb.takeData
  by_cases hNil : data = []
  · subst hNil
    simpa using h
  rw [if_pos hNil]
  have hSpace := h.rxSpace (by omega)
  have hOpen : p.finSeen = false := by
    by_contra hSeen
    have := (h.fin (not_eq_false _ ▸ hSeen)).1
    omega
  generalize hn : min data.length p.rxSpace = n
  have hTake : (data.take n).length = n := by
    rw [length_take]
    omega
  have hRing := h.ring
  rw [show min r w.length = r by omega] at hRing
  refine
    { h with
      nxt := ?_
      le := h.le.trans (le_add_right _ _)
      nxt_le := fun _ => by omega
      fin := fun hSeen => absurd (hOpen.symm.trans hSeen) (by decide)
      room := by omega
      ring := ?_ }
  · dsimp only
    rw [h.keeps, if_neg (by decide), h.nxt, serial_add_ofNat]
  · dsimp only
    rw [h.keeps, if_neg (by decide), h.nxt, show min (r + n) w.length = r + n by omega]
    have hWrite := hRing.write (by decide) (fun j (hj : j < (data.take n).length) => ?_) h.le
      (by omega)
    · rwa [hTake] at hWrite
    · rw [hTake] at hj
      rw [hSlice j (by omega), getElem?_take_of_lt hj]

theorem ReceivesAt.takeFin (h : ReceivesAt base w true p.toRcv got r q) (hEnd : r = w.length) :
    ReceivesAt base w true (p.takeFin now).toRcv got (r + 1) q := by
  have hRcv : (p.takeFin now).toRcv = { p.toRcv with rcvNxt := p.rcvNxt + 1, finSeen := true } := by
    unfold Pcb.takeFin
    dsimp only
    split_ifs <;> rfl
  rw [hRcv]
  have hRoom := h.room
  have hRing := h.ring
  rw [show min r w.length = min (r + 1) w.length by omega] at hRoom hRing
  exact
    { h with
      nxt := by
        rw [h.nxt, serial_add_one]
      le := h.le.trans (le_succ _)
      nxt_le := fun hSeen => Bool.noConfusion hSeen
      fin := fun _ => ⟨by omega, rfl⟩
      room := hRoom
      ring := hRing }

theorem toSnd_takeData (p : Pcb) (data : List (BitVec 8)) :
    (p.takeData data).toSnd = p.toSnd ∧ (p.takeData data).toPace = p.toPace ∧
      (p.takeData data).state = p.state := by
  unfold takeData
  split <;> exact ⟨rfl, rfl, rfl⟩

theorem toSnd_takeFin (p : Pcb) (now : ℕ) :
    (p.takeFin now).toSnd = p.toSnd ∧ (p.takeFin now).rtoAt = p.rtoAt ∧
      ((p.takeFin now).active → p.active) ∧ (p.synced → (p.takeFin now).synced) := by
  unfold takeFin
  dsimp only
  split_ifs <;> simp_all [active, synced]

theorem Endpoint.sendAck (h : Endpoint base w base' w' closed' got p')
    (hEnded : p.finSent → p'.finSent) (on : Bool) :
    Leaves base w base' w' closed' got p (p', if on then [p'.sendAck] else []) := by
  split
  · refine ⟨h, ?_, ?_, hEnded⟩ <;> simp only [mem_singleton, forall_eq]
    · exact .inr (.inl ⟨rfl, rfl⟩)
    · exact h.receives.acks_emit _ _ _
  · exact .quiet h hEnded

theorem toRcv_tcpOutput (p : Pcb) (now : ℕ) : (p.tcpOutput now).1.toRcv = p.toRcv := by
  unfold tcpOutput sendData sendFin
  dsimp only
  split_ifs <;> rfl

theorem toRcv_ackArrived (p : Pcb) (sack : BitVec 32) (now : ℕ) :
    (p.ackArrived sack now).1.toRcv = p.toRcv := by
  unfold ackArrived
  split
  · rfl
  split
  · unfold ackProgress
    rw [toRcv_tcpOutput]
    split <;> rfl
  split
  · unfold dupAck
    dsimp only
    split
    · rfl
    · rfl
  · rfl

theorem toRcv_finAcked (p : Pcb) (now : ℕ) : (p.finAcked now).toRcv = p.toRcv := by
  unfold finAcked
  split_ifs <;> rfl

theorem toRcv_ackStage (p : Pcb) (seg : Segment) (now : ℕ) :
    (p.ackStage seg now).1.toRcv = p.toRcv := by
  unfold ackStage
  split
  · exact (toRcv_finAcked _ now).trans (toRcv_ackArrived p seg.ack now)
  · rfl

theorem carries_tcpSendRst {seg' : Segment} (h : seg' ∈ tcpSendRst seg) : seg'.flags.rst := by
  unfold tcpSendRst at h
  split at h
  · exact absurd h (by simp)
  split at h
  · rw [mem_singleton.mp h]
  · rw [mem_singleton.mp h]

section

variable (h : Endpoint base w base' w' closed' got p)
include h

theorem Endpoint.takeText (now : ℕ) (hw' : w'.length + 1 < 2 ^ 31) (hRst : seg.flags.rst = false)
    (hCarries : seg.Carries base' w' closed') (hSeq : seg.seq = p.rcvNxt)
    (hFits : seg.flags.fin → seg.data.length ≤ p.rxSpace) : Endpoint base w base' w' closed' got
      (if seg.flags.fin then (p.takeData seg.data).takeFin now else p.takeData seg.data) := by
  obtain ⟨r, q, hr⟩ := h.receives
  obtain ⟨u, v, hs⟩ := h.sends
  obtain ⟨hSnd, hPace, hState⟩ := toSnd_takeData p seg.data
  rcases hCarries with hReset | ⟨hNil, hNoFin⟩ | ⟨i, hi, hLen, hSlice, hFin⟩
  · exact absurd (hRst.symm.trans hReset) (by decide)
  · rw [hNoFin, if_neg (by decide), hNil]
    exact h
  · have hAt : i = r := by
      have := hr.nxt_bound
      rw [hi, hr.nxt, serial_inj (by omega) (by omega)] at hSeq
      exact hSeq
    subst hAt
    have hData := hr.takeData hLen hSlice
    have hActive : (p.takeData seg.data).active = p.active := by
      unfold active
      rw [hState]
    split
    next hEnd =>
      obtain ⟨hAll, rfl⟩ := hFin hEnd
      rw [min_eq_left (hFits hEnd), hAll] at hData
      obtain ⟨hSnd', hRto, hActive', hSynced⟩ := toSnd_takeFin (p.takeData seg.data) now
      refine ⟨⟨u, v, hs.frame (hSnd'.trans hSnd) (fun hOn => hActive ▸ hActive' hOn) ?_⟩,
        ⟨_, q, hData.takeFin rfl⟩, hSynced ?_⟩
      · rw [hRto, hPace]
        exact hs.armed
      · unfold Pcb.synced
        rw [hState]
        exact h.synced
    next =>
      refine ⟨⟨u, v, hs.frame hSnd (fun hOn => hActive ▸ hOn) ?_⟩, ⟨_, q, hData⟩, ?_⟩
      · rw [hPace]
        exact hs.armed
      · unfold Pcb.synced
        rw [hState]
        exact h.synced

theorem Endpoint.textArrived (hw' : w'.length + 1 < 2 ^ 31) (hRst : seg.flags.rst = false)
    (hCarries : seg.Carries base' w' closed')
    (hFits : seg.seq = p.rcvNxt → seg.flags.fin → seg.data.length ≤ p.rxSpace) :
    Leaves base w base' w' closed' got p (p.textArrived seg now) := by
  unfold Pcb.textArrived
  by_cases hSeq : seg.seq = p.rcvNxt
  · rw [if_neg (by simpa using hSeq)]
    have hText := h.takeText now hw' hRst hCarries hSeq (hFits hSeq)
    have hFin : (if seg.flags.fin then (p.takeData seg.data).takeFin now
        else p.takeData seg.data).finSent = p.finSent := by
      split
      · rw [(toSnd_takeFin _ now).1, (toSnd_takeData p seg.data).1]
      · rw [(toSnd_takeData p seg.data).1]
    exact hText.sendAck (fun hEnd => hFin ▸ hEnd) _
  · rw [if_pos (by simpa using hSeq)]
    exact h.sendAck (fun hEnd => hEnd) _

theorem Endpoint.ackStage (now : ℕ) (hw : w.length + 1 < 2 ^ 31) (hRst : seg.flags.rst = false)
    (hAcks : seg.Acks base w) : Leaves base w base' w' closed' got p (p.ackStage seg now) := by
  unfold Pcb.ackStage
  rcases hAcks with hReset | hNone | ⟨n, hn, hAck⟩
  · exact absurd (hRst.symm.trans hReset) (by decide)
  · rw [hNone]
    exact .quiet h fun hEnd => hEnd
  split
  · have hArrived := h.ackArrived now hw hn
    rw [← hAck] at hArrived
    obtain ⟨hEnd, hSnd⟩ := hArrived.endpoint.finAcked now
    have hFin : ((p.ackArrived seg.ack now).1.finAcked now).finSent =
        (p.ackArrived seg.ack now).1.finSent := by
      rw [hSnd]
    exact ⟨hEnd, fun seg' hSeg' => hFin ▸ hArrived.carries seg' hSeg', hArrived.acks,
      fun hSent => hFin ▸ hArrived.ended hSent⟩
  · exact .quiet h fun hEnd => hEnd

theorem Endpoint.tcpInput (hw : w.length + 1 < 2 ^ 31) (hw' : w'.length + 1 < 2 ^ 31)
    (hCarries : seg.Carries base' w' closed') (hAcks : seg.Acks base w) (iss : BitVec 32)
    (hFits : seg.seq = p.rcvNxt → seg.flags.fin → seg.data.length ≤ p.rxSpace) :
    Leaves base w base' w' closed' got p (p.tcpInput seg iss now) := by
  unfold Pcb.tcpInput
  split
  · exact ⟨h, fun seg' hSeg' => .inl (carries_tcpSendRst hSeg'),
      fun seg' hSeg' => .inl (carries_tcpSendRst hSeg'), fun hEnd => hEnd⟩
  rw [if_neg h.synced.1]
  split
  · obtain ⟨u, v, hs⟩ := h.sends
    refine .quiet ⟨⟨u, v, hs.frame rfl ?_ fun hNe => absurd rfl hNe⟩, h.receives, ?_⟩
      fun hEnd => hEnd
    · exact fun hActive => absurd hActive (by simp [giveUp, active])
    · exact ⟨noConfusion, noConfusion, noConfusion⟩
  next hRst =>
    rw [not_eq_true] at hRst
    rw [if_neg h.synced.2.1, if_neg (by simp [h.synced.2.2])]
    have hAck := h.ackStage now hw hRst hAcks
    have hRcv := toRcv_ackStage p seg now
    dsimp only
    split
    · exact hAck
    · refine hAck.trans (hAck.endpoint.textArrived hw' hRst hCarries fun hSeq hFin => ?_)
      unfold rxSpace
      rw [hRcv]
      exact hFits (by rw [hSeq, hRcv]) hFin

theorem Endpoint.tcpTick (hw : w.length + 1 < 2 ^ 31) :
    Leaves base w base' w' closed' got p (p.tcpTick now) := by
  have hRetransmit : Leaves base w base' w' closed' got p
      (if p.rtoAt ≠ 0 && p.rtoAt ≤ now then p.tcpRetransmit now else (p, [])) := by
    split
    next hDue =>
      obtain ⟨u, v, hs⟩ := h.sends
      simp only [and_eq_true, decide_eq_true_eq] at hDue
      exact h.tcpRetransmit hs (hs.armed hDue.1) hw
    next => exact .quiet h fun hEnd => hEnd
  -- a timeout closes the endpoint and changes nothing else that counts
  have hClose : ∀ p1 p2 : Pcb, p2.toSnd = p1.toSnd → p2.toRcv = p1.toRcv →
      (p2.rtoAt = p1.rtoAt ∨ p2.rtoAt = 0) → p2.state = .closed →
      Endpoint base w base' w' closed' got p1 → Endpoint base w base' w' closed' got p2 := by
    intro p1 p2 hSnd hRcv hRto hState h1
    obtain ⟨u, v, hs⟩ := h1.sends
    refine ⟨⟨u, v, hs.frame hSnd ?_ ?_⟩, by rw [hRcv]; exact h1.receives, ?_⟩
    · exact fun hActive => absurd hActive (by simp [active, hState])
    · rcases hRto with hSame | hZero
      · rw [hSame]
        exact hs.armed
      · exact fun hNe => absurd hZero hNe
    · unfold Pcb.synced
      rw [hState]
      exact ⟨noConfusion, noConfusion, noConfusion⟩
  unfold Pcb.tcpTick
  generalize (if (decide (p.rtoAt ≠ 0) && decide (p.rtoAt ≤ now)) then p.tcpRetransmit now
    else (p, [])) = res at hRetransmit
  obtain ⟨p1, out⟩ := res
  dsimp only
  have hConn : Endpoint base w base' w' closed' got
      (if p1.connAt ≠ 0 && p1.connAt ≤ now then { p1.giveUp eTimedOut with connAt := 0 }
      else p1) := by
    split
    · exact hClose p1 _ rfl rfl (.inr rfl) rfl hRetransmit.endpoint
    · exact hRetransmit.endpoint
  have hFin : (if p1.connAt ≠ 0 && p1.connAt ≤ now then { p1.giveUp eTimedOut with connAt := 0 }
      else p1).finSent = p1.finSent := by
    split <;> rfl
  generalize (if (decide (p1.connAt ≠ 0) && decide (p1.connAt ≤ now)) then
    { p1.giveUp eTimedOut with connAt := 0 } else p1) = p2 at hConn hFin
  have hLast : Endpoint base w base' w' closed' got
      (if p2.twAt ≠ 0 && p2.twAt ≤ now then { p2 with state := .closed, twAt := 0 } else p2) := by
    split
    · exact hClose p2 _ rfl rfl (.inl rfl) rfl hConn
    · exact hConn
  have hFin' : (if p2.twAt ≠ 0 && p2.twAt ≤ now then { p2 with state := .closed, twAt := 0 }
      else p2).finSent = p1.finSent := by
    rw [← hFin]
    split <;> rfl
  exact ⟨hLast, fun seg hSeg => hFin' ▸ hRetransmit.carries seg hSeg, hRetransmit.acks,
    fun hEnd => hFin' ▸ hRetransmit.ended hEnd⟩

end

end Endpoints

end Gnos.Tcp
