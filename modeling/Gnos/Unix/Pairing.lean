import Gnos.Unix.Model
import Gnos.ProofKit.Runs

/-! Connected sockets point at each other, and a call on one pair leaves all other sockets alone,
unless a sending half is shut down or a send goes on that slept while the slot of its peer was given
to somebody else. -/

namespace Gnos.Unix

open ProofKit Function Option

inductive UnixOp where
  | create (stream : Bool) (protocol : ℕ) (nonblock mem : Bool)
  | socketpair (stream : Bool) (protocol : ℕ) (nonblock mem mem' : Bool)
  | bind (u : ℕ) (path : Name)
  | listen (u : ℕ)
  | connect (u : ℕ) (path : Name) (mem : Bool)
  | accept (u : ℕ)
  | acceptMore (u : ℕ)
  | shutdown (u how : ℕ)
  | close (u : ℕ)
  | read (u len : ℕ)
  | write (u : ℕ) (bytes : List (BitVec 8))
  | sendmsg (u : ℕ) (bytes : List (BitVec 8)) (handles : List ℕ)
  | recvmsg (u len room : ℕ) (peek dontwait : Bool)
  /-- A receive or a send goes on after a sleep. -/
  | recvMore (u len : ℕ) (peek nonblock : Bool)
  | sendMore (u d sent : ℕ) (bytes : List (BitVec 8))

def UnixOp.target : UnixOp → Option ℕ
  | create .. => none
  | socketpair .. => none
  | bind u _ => some u
  | listen u => some u
  | connect u .. => some u
  | accept u => some u
  | acceptMore u => some u
  | shutdown u _ => some u
  | close u => some u
  | read u _ => some u
  | write u _ => some u
  | sendmsg u .. => some u
  | recvmsg u .. => some u
  | recvMore u .. => some u
  | sendMore u .. => some u

/-- What belongs to a socket itself: everything but the connections that wait for `accept`. -/
def Sock.core (s : Sock) : Sock := { s with backlog := [] }

variable {s : Sock} {op : UnixOp} {i w : ℕ}

namespace Socks

def exec (t : Socks) : UnixOp → Socks
  | .create stream protocol nonblock mem => (t.create stream protocol nonblock mem).2
  | .socketpair stream protocol nonblock mem mem' =>
    (t.socketpair stream protocol nonblock mem mem').2
  | .bind u path => (t.bind u path).2
  | .listen u => (t.listen u).2
  | .connect u path mem => (t.connect u path mem).2
  | .accept u => (t.accept u).2
  | .acceptMore u => (t.acceptMore u).2
  | .shutdown u how => (t.shutdown u how).2
  | .close u => (t.close u).1
  | .read u len => (t.nodeRead u len).2.1
  | .write u bytes => (t.nodeWrite u bytes).2
  | .sendmsg u bytes handles => (t.sendmsg u bytes handles).2
  | .recvmsg u len room peek dontwait => (t.recvmsg u len room peek dontwait).2.2.1
  | .recvMore u len peek nonblock => (t.recvData u len peek nonblock).2
  | .sendMore u d sent bytes => (t.sendMore u d sent bytes).2

def Paired (t : Socks) : Prop :=
  ∀ u v, (t.sock u).used → (t.sock u).peer = some v →
    (t.sock v).used ∧ (t.sock v).peer = some u

def Carries (t : Socks) (v u : ℕ) : Prop :=
  (t.sock v).used ∧ (t.sock v).peer = some u ∧ ∀ bytes, (t.sendData v bytes).1 ≠ .err .pipe

/-- What a step must keep: peers, the sockets outside the pair that it is about, and the way back
when the sending half is shut down. -/
structure Keeps (t : Socks) (op : UnixOp) : Prop where
  paired : (t.exec op).Paired
  others : ∀ w, (t.sock w).used → (∀ u ∈ op.target, w ≠ u ∧ (t.sock w).peer ≠ some u) →
    ((t.exec op).sock w).core = (t.sock w).core
  back : ∀ u v, op = .shutdown u 1 → t.Carries v u → (t.exec op).Carries v u

/-- The condition on one step: no sending half of a connected socket is shut down, and a send does
not go on from a socket that was closed into a socket that is in use. -/
def Sound (t : Socks) : UnixOp → Prop
  | .shutdown u how => how = 1 ∨ how = 2 → ∀ s ∈ t.at? u, s.peer = none
  | .sendMore u d _ bytes => (t.sock u).used = false → (t.sock u).peer = some d →
      (t.sock d).used → (t.sock d).peerClosed = false →
      bytes.take ((t.sock d).cap - (t.sock d).rx.count) = []
  | _ => True

def boot : Socks := ⟨fun _ => {}⟩

variable {t t' t'' : Socks} {u v : ℕ}

theorem sock_modify (t : Socks) (u : ℕ) (f : Sock → Sock) :
    (t.modify u f).sock = update t.sock u (f (t.sock u)) := rfl

@[simp] theorem sock_modify_self (t : Socks) (u : ℕ) (f : Sock → Sock) :
    (t.modify u f).sock u = f (t.sock u) := update_self ..

theorem sock_modify_of_ne (h : w ≠ u) (f : Sock → Sock) : (t.modify u f).sock w = t.sock w :=
  update_of_ne h _ _

theorem used_of_at? (h : t.at? u = some s) : s = t.sock u ∧ (t.sock u).used := by
  unfold at? at h
  split at h
  · rename_i hBoth
    exact ⟨(some.inj h).symm, hBoth.2⟩
  · cases h

/-- Nobody gets or loses a peer, and only `u` and its peer may change at all. -/
structure Quiet (t t' : Socks) (u : ℕ) : Prop where
  used : ∀ w, (t'.sock w).used = (t.sock w).used
  peer : ∀ w, (t'.sock w).peer = (t.sock w).peer
  others : ∀ w ≠ u, (t.sock u).peer ≠ some w → t'.sock w = t.sock w

theorem Quiet.refl : Quiet t t u := ⟨fun _ => rfl, fun _ => rfl, fun _ _ _ => rfl⟩

theorem Quiet.trans (h : Quiet t t' u) (h' : Quiet t' t'' u) : Quiet t t'' u := by
  refine ⟨fun w => (h'.used w).trans (h.used w), fun w => (h'.peer w).trans (h.peer w),
    fun w hw hPeer => ?_⟩
  rw [h'.others w hw (by rwa [h.peer]), h.others w hw hPeer]

/-- A change that touches neither the mark of use nor the peer. -/
def Plain (f : Sock → Sock) : Prop := ∀ s, (f s).used = s.used ∧ (f s).peer = s.peer

theorem Quiet.modify {f : Sock → Sock} (hf : Plain f) (hv : v = u ∨ (t.sock u).peer = some v) :
    Quiet t (t.modify v f) u := by
  refine ⟨fun w => ?_, fun w => ?_, fun w hw hOther => ?_⟩
  · rcases eq_or_ne w v with rfl | hne
    · rw [sock_modify_self, (hf _).1]
    · rw [sock_modify_of_ne hne]
  · rcases eq_or_ne w v with rfl | hne
    · rw [sock_modify_self, (hf _).2]
    · rw [sock_modify_of_ne hne]
  · refine sock_modify_of_ne (fun hEq => ?_) f
    rcases hv with rfl | hv
    · exact hw hEq
    · exact hOther (hEq ▸ hv)

theorem Quiet.self {f : Sock → Sock} {r : α} (hf : Plain f) : Quiet t (r, t.modify u f).2 u :=
  .modify hf (.inl rfl)

theorem quiet_fill {d : ℕ} (hd : (t.sock u).peer = some d) (sent : ℕ) (bytes : List (BitVec 8)) :
    Quiet t (t.fill u d sent bytes).2 u := by
  have hDeposit : Quiet t (t.deposit d bytes) u := by
    refine .modify ?_ (.inr hd)
    exact fun _ => ⟨rfl, rfl⟩
  unfold fill
  dsimp only
  split
  · exact hDeposit
  split <;> exact hDeposit

section

variable (t u)

theorem quiet_bind (path : Name) : Quiet t (t.bind u path).2 u := by
  unfold bind
  split
  · exact .refl
  split
  · exact .refl
  split
  · exact .refl
  split
  · exact .refl
  · exact .self fun _ => ⟨rfl, rfl⟩

theorem quiet_listen : Quiet t (t.listen u).2 u := by
  unfold listen
  split
  · exact .refl
  split
  · exact .refl
  split
  · exact .refl
  · exact .self fun _ => ⟨rfl, rfl⟩

theorem quiet_accept : Quiet t (t.accept u).2 u := by
  unfold accept
  split
  · exact .refl
  split
  · exact .refl
  split
  · exact .refl
  · exact .self fun _ => ⟨rfl, rfl⟩

theorem quiet_acceptMore : Quiet t (t.acceptMore u).2 u := by
  unfold acceptMore
  split
  · exact .refl
  · exact .self fun _ => ⟨rfl, rfl⟩

theorem quiet_recvData (len : ℕ) (peek nonblock : Bool) :
    Quiet t (t.recvData u len peek nonblock).2 u := by
  unfold recvData
  dsimp only
  split
  · exact .refl
  split
  · cases peek with
    | true => exact .refl
    | false =>
      rw [if_neg Bool.false_ne_true]
      exact .self fun _ => ⟨rfl, rfl⟩
  split
  · exact .refl
  split <;> exact .refl

theorem quiet_sendData (bytes : List (BitVec 8)) : Quiet t (t.sendData u bytes).2 u := by
  unfold sendData
  split
  · exact .refl
  · rename_i d hd
    split
    · exact .refl
    · exact quiet_fill hd 0 bytes

theorem quiet_dropFds (n : ℕ) : Quiet t (t.dropFds u n).1 u :=
  .self (r := ()) fun _ => ⟨rfl, rfl⟩

theorem quiet_nodeRead (len : ℕ) : Quiet t (t.nodeRead u len).2.1 u := by
  unfold nodeRead
  split
  · exact .refl
  · exact (quiet_dropFds t u _).trans (quiet_recvData _ u len false false)

theorem quiet_nodeWrite (bytes : List (BitVec 8)) : Quiet t (t.nodeWrite u bytes).2 u := by
  unfold nodeWrite
  split
  · exact .refl
  · exact quiet_sendData t u bytes

theorem quiet_sendmsg (bytes : List (BitVec 8)) (handles : List ℕ) :
    Quiet t (t.sendmsg u bytes handles).2 u := by
  unfold sendmsg
  split
  · exact .refl
  rename_i s hs
  obtain ⟨rfl, -⟩ := used_of_at? hs
  split
  · exact quiet_sendData t u bytes
  split
  · exact .refl
  rename_i v hv
  have hQueue : Quiet t (t.queueFds v handles).2 u := by
    unfold queueFds
    split
    · exact .refl
    · dsimp only
      refine .modify ?_ (.inr hv)
      exact fun _ => ⟨rfl, rfl⟩
  split
  · rename_i e r hr
    rw [hr] at hQueue
    exact hQueue
  · rename_i r hr
    rw [hr] at hQueue
    exact hQueue.trans (quiet_sendData r u bytes)

theorem quiet_recvmsg (len room : ℕ) (peek dontwait : Bool) :
    Quiet t (t.recvmsg u len room peek dontwait).2.2.1 u := by
  unfold recvmsg
  split
  · exact .refl
  split
  · exact quiet_recvData t u len true dontwait
  · exact (quiet_dropFds t u _).trans (quiet_recvData _ u len false dontwait)

theorem quiet_sendMore (d sent : ℕ) (bytes : List (BitVec 8)) :
    Quiet t (t.sendMore u d sent bytes).2 u := by
  unfold sendMore
  split
  · exact .refl
  · rename_i hSame
    exact quiet_fill (not_not.mp (not_or.mp hSame).1) sent bytes

end

/-- `Paired`, and nobody is connected to itself. -/
def Inv (t : Socks) : Prop :=
  ∀ u v, (t.sock u).used → (t.sock u).peer = some v →
    v ≠ u ∧ (t.sock v).used ∧ (t.sock v).peer = some u

theorem ne_of_used (hw : (t.sock w).used) (hi : (t.sock i).used = false) : w ≠ i := by
  rintro rfl
  rw [hw] at hi
  cases hi

theorem sock_hangUp (t : Socks) (u w : ℕ) : (t.hangUp u).sock w =
      if (t.sock u).peer = some w then { t.sock w with peerClosed := true, peer := none }
      else t.sock w := by
  unfold hangUp
  split
  · rename_i v hv
    rw [hv]
    rcases eq_or_ne w v with rfl | hw
    · rw [sock_modify_self, if_pos rfl]
    · rw [sock_modify_of_ne hw, if_neg fun hEq => hw (some.inj hEq).symm]
  · rename_i hNone
    rw [hNone, if_neg nofun]

theorem sock_pairUp {c l : ℕ} (hcu : c ≠ u) (hcl : c ≠ l) (hul : u ≠ l) (w : ℕ) :
    (t.pairUp u c l).sock w =
      if w = c then { t.sock c with peer := some u, peerClosed := false }
      else if w = u then { t.sock u with peer := some c }
      else if w = l then { t.sock l with backlog := (t.sock l).backlog ++ [c] }
      else t.sock w := by
  unfold pairUp
  simp only [sock_modify, update_apply, hcu.symm, hcl.symm, hul.symm, if_false]
  split_ifs <;> simp_all

theorem at?_eq_none (h : (t.sock u).used = false) : t.at? u = none := by
  unfold at?
  rw [if_neg fun hBoth => by rw [h] at hBoth; cases hBoth.2]

/-- The calls that look their socket up with `unix_at` and change no peers. -/
def looksUp : UnixOp → Bool
  | .bind .. => true
  | .listen _ => true
  | .accept _ => true
  | .read .. => true
  | .write .. => true
  | .sendmsg .. => true
  | .recvmsg .. => true
  | _ => false

theorem exec_of_none (hLookup : looksUp op) (hTarget : op.target = some u)
    (hNone : t.at? u = none) : t.exec op = t := by
  cases op <;> try cases hLookup
  all_goals
    obtain rfl := some.inj hTarget
    unfold exec
    simp only [bind, listen, accept, nodeRead, nodeWrite, sendmsg, recvmsg, hNone]

theorem sock_recvData_of_ne (hw : w ≠ u) (len : ℕ) (peek nonblock : Bool) :
    (t.recvData u len peek nonblock).2.sock w = t.sock w := by
  unfold recvData
  dsimp only
  split
  · rfl
  split
  · cases peek with
    | true => rfl
    | false =>
      rw [if_neg Bool.false_ne_true]
      dsimp only
      exact sock_modify_of_ne hw _
  split
  · rfl
  split <;> rfl

theorem sock_acceptMore_of_ne (hw : w ≠ u) : (t.acceptMore u).2.sock w = t.sock w := by
  unfold acceptMore
  split
  · rfl
  · dsimp only
    exact sock_modify_of_ne hw _

theorem quiet_shutFlags (t : Socks) (u how : ℕ) : Quiet t (t.shutFlags u how) u := by
  have hRx : Quiet t (if how = 0 ∨
      how = 2 then t.modify u fun s => { s with shutRx := true } else t) u := by
    split
    · refine .modify ?_ (.inl rfl)
      exact fun _ => ⟨rfl, rfl⟩
    · exact .refl
  unfold shutFlags
  dsimp only
  split
  · refine hRx.trans (.modify ?_ (.inl rfl))
    exact fun _ => ⟨rfl, rfl⟩
  · exact hRx

section

variable (h : t.Inv)
include h

theorem Inv.paired : t.Paired := fun u v hUsed hPeer => (h u v hUsed hPeer).2

theorem Inv.quiet (hQuiet : Quiet t t' u) : t'.Inv := by
  intro w v hUsed hPeer
  rw [hQuiet.used] at hUsed ⊢
  rw [hQuiet.peer] at hPeer ⊢
  exact h w v hUsed hPeer

theorem Inv.peer_ne (hw : (t.sock w).used) (hi : (t.sock i).used = false) :
    (t.sock w).peer ≠ some i := by
  intro hPeer
  rw [(h w i hw hPeer).2.1] at hi
  cases hi

theorem Inv.set (hi : (t.sock i).used = false) (hs : s.peer = none) : (t.set i s).Inv := by
  intro w v hUsed hPeer
  have hw : w ≠ i := by
    rintro rfl
    rw [show (t.set w s).sock w = s from update_self ..] at hPeer
    rw [hs] at hPeer
    cases hPeer
  have hSame : ∀ x ≠ i, (t.set i s).sock x = t.sock x := fun x hx => update_of_ne hx _ _
  rw [hSame w hw] at hUsed hPeer
  obtain ⟨hne, hUsed', hBack⟩ := h w v hUsed hPeer
  rw [hSame v (ne_of_used hUsed' hi)]
  exact ⟨hne, hUsed', hBack⟩

theorem Inv.close (u : ℕ) : (t.close u).1.Inv ∧ ∀ w, (t.sock w).used → w ≠ u →
    (t.sock w).peer ≠ some u →
      (t.close u).1.sock w = t.sock w := by
  unfold Socks.close
  split
  · exact ⟨h, fun _ _ _ _ => rfl⟩
  rename_i s hs
  obtain ⟨-, hu⟩ := used_of_at? hs
  have hSock : ∀ w ≠ u, ((t.hangUp u).free u).sock w = (t.hangUp u).sock w := fun w hw =>
    sock_modify_of_ne hw _
  refine ⟨fun w v hUsed hPeer => ?_, fun w hw hne hOther => ?_⟩
  · have hw : w ≠ u := by
      rintro rfl
      rw [show ((t.hangUp w).free w).sock w = { (t.hangUp w).sock w with used := false } from
        sock_modify_self ..] at hUsed
      cases hUsed
    rw [hSock w hw, sock_hangUp] at hUsed hPeer
    split at hPeer
    · cases hPeer
    rename_i hNotPeer
    rw [if_neg hNotPeer] at hUsed
    obtain ⟨hne, hUsed', hBack⟩ := h w v hUsed hPeer
    have hv : v ≠ u := fun hEq => hNotPeer (hEq ▸ hBack)
    have hKept : (t.sock u).peer ≠ some v := by
      intro hEq
      have hBoth := (h u v hu hEq).2.2
      rw [hBack] at hBoth
      exact hw (some.inj hBoth)
    rw [hSock v hv, sock_hangUp, if_neg hKept]
    exact ⟨hne, hUsed', hBack⟩
  · have hKept : (t.sock u).peer ≠ some w := fun hEq => hOther (h u w hu hEq).2.2
    rw [hSock w hne, sock_hangUp, if_neg hKept]

theorem Inv.join {a b : ℕ} (hab : a ≠ b) (ha : (t.sock a).used) (hb : (t.sock b).used)
    (hpa : (t.sock a).peer = none) (hpb : (t.sock b).peer = none)
    (hUsed : ∀ w, (t'.sock w).used = (t.sock w).used)
    (hPeer : ∀ w, (t'.sock w).peer =
      if w = a then some b else if w = b then some a else (t.sock w).peer) : t'.Inv := by
  intro w v hw hv
  rw [hUsed] at hw ⊢
  rw [hPeer] at hv ⊢
  by_cases hwa : w = a
  · rw [if_pos hwa] at hv
    obtain rfl := some.inj hv
    rw [if_neg hab.symm, if_pos rfl, hwa]
    exact ⟨hab.symm, hb, rfl⟩
  by_cases hwb : w = b
  · rw [if_neg hwa, if_pos hwb] at hv
    obtain rfl := some.inj hv
    rw [if_pos rfl, hwb]
    exact ⟨hab, ha, rfl⟩
  rw [if_neg hwa, if_neg hwb] at hv
  obtain ⟨hne, hUsed', hBack⟩ := h w v hw hv
  have hva : v ≠ a := by
    rintro rfl
    rw [hpa] at hBack
    cases hBack
  have hvb : v ≠ b := by
    rintro rfl
    rw [hpb] at hBack
    cases hBack
  rw [if_neg hva, if_neg hvb]
  exact ⟨hne, hUsed', hBack⟩

section

variable (hQuiet : Quiet t (t.exec op) u)
include hQuiet

/-- A quiet step of a socket that is in use keeps everything; one of a socket that is not in use has
to leave those alone that are. -/
theorem Inv.keeps_quiet (hTarget : op.target = some u)
    (hBack : ∀ x v, op = .shutdown x 1 → t.Carries v x → (t.exec op).Carries v x)
    (hStray : (t.sock u).used = false → ∀ w, (t.sock w).used → (t.sock u).peer = some w →
      (t.exec op).sock w = t.sock w) : t.Keeps op ∧ (t.exec op).Inv := by
  refine ⟨⟨(h.quiet hQuiet).paired, fun w hw hOutside => ?_, hBack⟩, h.quiet hQuiet⟩
  obtain ⟨hne, hOther⟩ := hOutside u hTarget
  congr 1
  by_cases hPeer : (t.sock u).peer = some w
  · cases hUsed : (t.sock u).used with
    | true => exact absurd (h u w hUsed hPeer).2.2 hOther
    | false => exact hStray hUsed w hw hPeer
  · exact hQuiet.others w hne hPeer

theorem Inv.keeps_lookup (hLookup : looksUp op) (hTarget : op.target = some u) :
    t.Keeps op ∧ (t.exec op).Inv := by
  refine h.keeps_quiet hQuiet hTarget (fun x v hEq => ?_) fun hUsed w _ _ => ?_
  · rw [hEq] at hLookup
    cases hLookup
  · rw [exec_of_none hLookup hTarget (at?_eq_none hUsed)]

theorem Inv.keeps_own (hTarget : op.target = some u) (hNot : ∀ x, op ≠ .shutdown x 1)
    (hOwn : ∀ w ≠ u, (t.exec op).sock w = t.sock w) : t.Keeps op ∧ (t.exec op).Inv :=
  h.keeps_quiet hQuiet hTarget (fun x _ hEq => absurd hEq (hNot x)) fun hUsed w hw _ =>
    hOwn w (ne_of_used hw hUsed)

end

theorem Inv.not_keeps_shutdown {how : ℕ} (hHow : how = 1 ∨ how = 2) (hs : t.at? u = some s)
    (hPeer : s.peer = some v) : ¬t.Keeps (.shutdown u how) := by
  have hFlags := quiet_shutFlags t u how
  obtain ⟨rfl, hu⟩ := used_of_at? hs
  obtain ⟨hne, -, -⟩ := h u v hu hPeer
  have hExec : t.exec (.shutdown u how) = (t.shutFlags u how).hangUp u := by
    unfold exec shutdown
    dsimp only
    rw [hs]
    exact if_pos hHow
  have hPeer' : ((t.shutFlags u how).sock u).peer = some v := (hFlags.peer u).trans hPeer
  have hKept : ((t.shutFlags u how).hangUp u).sock u = (t.shutFlags u how).sock u := by
    rw [sock_hangUp, hPeer', if_neg fun hEq => hne (some.inj hEq)]
  have hCleared : (((t.shutFlags u how).hangUp u).sock v).peer = none := by
    rw [sock_hangUp, if_pos hPeer']
  intro hKeeps
  have hPaired := hKeeps.paired
  rw [hExec] at hPaired
  have hBack := (hPaired u v (by rw [hKept, hFlags.used]; exact hu) (by rw [hKept]; exact hPeer')).2
  rw [hCleared] at hBack
  cases hBack

theorem Inv.not_keeps_sendMore {d sent : ℕ} {bytes : List (BitVec 8)}
    (hUsed : (t.sock u).used = false)
    (hPeer : (t.sock u).peer = some d) (hd : (t.sock d).used)
    (hOpen : (t.sock d).peerClosed = false)
    (hSome : bytes.take ((t.sock d).cap - (t.sock d).rx.count) ≠ []) :
    ¬t.Keeps (.sendMore u d sent bytes) := by
  intro hKeeps
  have hOthers := hKeeps.others d hd fun x hx => by
    obtain rfl : u = x := some.inj hx
    exact ⟨ne_of_used hd hUsed, h.peer_ne hd hUsed⟩
  have hExec : (t.exec (.sendMore u d sent bytes)).sock = (t.deposit d bytes).sock := by
    show (t.sendMore u d sent bytes).2.sock = _
    unfold sendMore
    rw [if_neg fun hOr => hOr.elim (fun hne => hne hPeer) fun hClosed => by
      rw [hOpen] at hClosed; cases hClosed]
    unfold fill
    dsimp only
    split
    · rfl
    split <;> rfl
  rw [hExec] at hOthers
  have hCount := congrArg (fun s => s.rx.count) hOthers
  have hNew : ((t.deposit d bytes).sock d).core.rx.count = (t.sock d).rx.count +
      (bytes.take ((t.sock d).cap - (t.sock d).rx.count)).length := by
    unfold deposit
    rw [sock_modify_self]
    exact RingBuf.count_pushAll ..
  have hOld : (t.sock d).core.rx.count = (t.sock d).rx.count := rfl
  have hLength : 0 < (bytes.take ((t.sock d).cap - (t.sock d).rx.count)).length :=
    List.length_pos_iff.mpr hSome
  omega

end

theorem quiet_shutdown {how : ℕ} (hSound : t.Sound (.shutdown u how)) :
    Quiet t (t.shutdown u how).2 u := by
  have hFlags := quiet_shutFlags t u how
  unfold shutdown
  split
  · exact .refl
  rename_i s hs
  obtain ⟨rfl, -⟩ := used_of_at? hs
  dsimp only
  split_ifs with hHow
  · have hPeer : ((t.shutFlags u how).sock u).peer = none :=
      (hFlags.peer u).trans (hSound hHow _ hs)
    unfold hangUp
    rw [hPeer]
    exact hFlags
  · exact hFlags

section

variable (h : t.Inv)
include h

/-- What `unix_create` leaves: nobody in use has changed, and a new socket has nobody to talk to. -/
structure Created (t : Socks) (nonblock : Bool) (r : Except Err ℕ × Socks) : Prop where
  inv : r.2.Inv
  same : ∀ w, (t.sock w).used → r.2.sock w = t.sock w
  fresh : ∀ i, r.1 = .ok i → i < unixMax ∧ (t.sock i).used = false ∧
    r.2.sock i = { cap := unixRing, nonblock := nonblock, used := true }

theorem Inv.create (stream : Bool) (protocol : ℕ) (nonblock mem : Bool) :
    t.Created nonblock (t.create stream protocol nonblock mem) := by
  unfold Socks.create
  split
  · exact ⟨h, fun _ _ => rfl, nofun⟩
  split
  · exact ⟨h, fun _ _ => rfl, nofun⟩
  split
  · exact ⟨h, fun _ _ => rfl, nofun⟩
  rename_i i hFind
  have hFree : (t.sock i).used = false := by simpa using List.find?_some hFind
  have hLow : i < unixMax := List.mem_range.mp (List.mem_of_find?_eq_some hFind)
  split
  · refine ⟨h.set hFree rfl, fun w hw => update_of_ne (ne_of_used hw hFree) _ _, fun j hj => ?_⟩
    obtain rfl := Except.ok.inj hj
    exact ⟨hLow, hFree, update_self ..⟩
  · exact ⟨h.set hFree rfl, fun w hw => update_of_ne (ne_of_used hw hFree) _ _, nofun⟩

theorem Inv.connect (u : ℕ) (path : Name) (mem : Bool) :
    (t.connect u path mem).2.Inv ∧ ∀ w, (t.sock w).used → w ≠ u →
      ((t.connect u path mem).2.sock w).core = (t.sock w).core := by
  unfold Socks.connect
  split
  · exact ⟨h, fun _ _ _ => rfl⟩
  rename_i s hs
  obtain ⟨rfl, hu⟩ := used_of_at? hs
  split
  · exact ⟨h, fun _ _ _ => rfl⟩
  rename_i hLone
  split
  · exact ⟨h, fun _ _ _ => rfl⟩
  rename_i hListens
  split
  · exact ⟨h, fun _ _ _ => rfl⟩
  split
  · exact ⟨h, fun _ _ _ => rfl⟩
  rename_i l hListener
  split
  · exact ⟨h, fun _ _ _ => rfl⟩
  have hFound : (t.sock l).used ∧ (t.sock l).listening := by
    have hAll := List.find?_some hListener
    simp only [Bool.and_eq_true] at hAll
    exact hAll.1
  have hul : u ≠ l := by
    rintro rfl
    exact hListens hFound.2
  have hPeer : (t.sock u).peer = none := by simpa using hLone
  have hCreated := h.create true 0 false mem
  generalize t.create true 0 false mem = r at hCreated ⊢
  obtain ⟨e | c, r⟩ := r
  · exact ⟨hCreated.inv, fun w hw _ => congrArg Sock.core (hCreated.same w hw)⟩
  -- The child takes a slot that nobody is connected to.
  obtain ⟨-, hc, hChild⟩ := hCreated.fresh c rfl
  have hcu : c ≠ u := (ne_of_used hu hc).symm
  have hcl : c ≠ l := (ne_of_used hFound.1 hc).symm
  have hSame : r.sock u = t.sock u := hCreated.same u hu
  refine ⟨hCreated.inv.join hcu ?_ ?_ ?_ ?_ (fun w => ?_) fun w => ?_, fun w hw hwu => ?_⟩
  · rw [hChild]
  · rw [hSame]
    exact hu
  · rw [hChild]
  · rw [hSame]
    exact hPeer
  · rw [sock_pairUp hcu hcl hul]
    split_ifs with h1 h2 h3 <;> simp_all
  · rw [sock_pairUp hcu hcl hul]
    split_ifs with h1 h2 h3 <;> simp_all
  · have hwc := ne_of_used hw hc
    rw [sock_pairUp hcu hcl hul, if_neg hwc, if_neg hwu]
    split_ifs with hwl
    · rw [hwl, hCreated.same l hFound.1]
      rfl
    · rw [hCreated.same w hw]

theorem Inv.socketpair (stream : Bool) (protocol : ℕ) (nonblock mem mem' : Bool) :
    (t.socketpair stream protocol nonblock mem mem').2.Inv ∧ ∀ w, (t.sock w).used →
      (t.socketpair stream protocol nonblock mem mem').2.sock w = t.sock w := by
  unfold Socks.socketpair
  have hFirst := h.create stream protocol nonblock mem
  generalize t.create stream protocol nonblock mem = r at hFirst ⊢
  obtain ⟨e | a, r⟩ := r
  · exact ⟨hFirst.inv, hFirst.same⟩
  -- The first socket is there; the second one may fail.
  obtain ⟨hLow, ha, hSockA⟩ := hFirst.fresh a rfl
  have hOut : ∀ w, (t.sock w).used → (r.sock w).used ∧ w ≠ a ∧ (r.sock w).peer ≠ some a := by
    intro w hw
    rw [hFirst.same w hw]
    exact ⟨hw, ne_of_used hw ha, h.peer_ne hw ha⟩
  have hSecond := hFirst.inv.create stream protocol nonblock mem'
  dsimp only at hSockA hSecond ⊢
  generalize r.create stream protocol nonblock mem' = r' at hSecond ⊢
  obtain ⟨e | b, r'⟩ := r'
  · obtain ⟨hClosed, hOthers⟩ := hSecond.inv.close a
    refine ⟨hClosed, fun w hw => ?_⟩
    obtain ⟨hUsed, hne, hPeer⟩ := hOut w hw
    have hEq := hSecond.same w hUsed
    rw [hOthers w (by rw [hEq]; exact hUsed) hne (by rw [hEq]; exact hPeer), hEq]
    exact hFirst.same w hw
  · obtain ⟨hLow', hb, hSockB⟩ := hSecond.fresh b rfl
    have hUsedA : (r.sock a).used := by rw [hSockA]
    have hab : a ≠ b := ne_of_used hUsedA hb
    have hKeptA := (hSecond.same a hUsedA).trans hSockA
    have hAtA : (r'.at? a).isSome := by
      unfold at?
      rw [hKeptA, if_pos ⟨hLow, rfl⟩]
      rfl
    have hAtB : (r'.at? b).isSome := by
      unfold at?
      rw [hSockB, if_pos ⟨hLow', rfl⟩]
      rfl
    have hLink (w : ℕ) : (r'.link a b).sock w =
        if w = a then { r'.sock a with peer := some b, peerClosed := false }
        else if w = b then { r'.sock b with peer := some a, peerClosed := false }
        else r'.sock w := by
      unfold link
      rw [hAtA, hAtB]
      simp only [Bool.and_self, if_true, sock_modify, update_apply, hab, hab.symm, if_false]
      split_ifs <;> simp_all
    refine ⟨hSecond.inv.join hab ?_ ?_ ?_ ?_ (fun w => ?_) fun w => ?_, fun w hw => ?_⟩
    · rw [hKeptA]
    · rw [hSockB]
    · rw [hKeptA]
    · rw [hSockB]
    · rw [hLink]
      split_ifs with h1 h2 <;> simp_all
    · rw [hLink]
      split_ifs with h1 h2 <;> rfl
    · obtain ⟨hUsed, hne, -⟩ := hOut w hw
      rw [hLink, if_neg hne, if_neg (ne_of_used hUsed hb), hSecond.same w hUsed]
      exact hFirst.same w hw

theorem Inv.step (hSound : t.Sound op) : t.Keeps op ∧ (t.exec op).Inv := by
  cases op with
  | create stream protocol nonblock mem =>
    have hCreated := h.create stream protocol nonblock mem
    exact ⟨⟨hCreated.inv.paired, fun w hw _ => congrArg Sock.core (hCreated.same w hw), nofun⟩,
      hCreated.inv⟩
  | socketpair stream protocol nonblock mem mem' =>
    obtain ⟨hInv, hSame⟩ := h.socketpair stream protocol nonblock mem mem'
    exact ⟨⟨hInv.paired, fun w hw _ => congrArg Sock.core (hSame w hw), nofun⟩, hInv⟩
  | bind u path => exact h.keeps_lookup (quiet_bind t u path) rfl rfl
  | listen u => exact h.keeps_lookup (quiet_listen t u) rfl rfl
  | connect u path mem =>
    obtain ⟨hInv, hSame⟩ := h.connect u path mem
    exact ⟨⟨hInv.paired, fun w hw hOut => hSame w hw (hOut u rfl).1, nofun⟩, hInv⟩
  | accept u => exact h.keeps_lookup (quiet_accept t u) rfl rfl
  | acceptMore u =>
    exact h.keeps_own (quiet_acceptMore t u) rfl nofun fun w hw => sock_acceptMore_of_ne hw
  | shutdown u how =>
    refine h.keeps_quiet (quiet_shutdown hSound) rfl ?_ fun hUsed w _ _ => ?_
    · rintro x v hEq ⟨hv, hPeer, hSend⟩
      obtain ⟨rfl, rfl⟩ := UnixOp.shutdown.inj hEq
      cases hAt : t.at? u with
      | none =>
        have hExec : t.exec (.shutdown u 1) = t := by
          unfold exec shutdown
          dsimp only
          rw [hAt]
        rw [hExec]
        exact ⟨hv, hPeer, hSend⟩
      | some s =>
        obtain ⟨rfl, -⟩ := used_of_at? hAt
        have hLone := hSound (.inl rfl) _ hAt
        rw [(h v u hv hPeer).2.2] at hLone
        cases hLone
    · unfold exec shutdown
      dsimp only
      rw [at?_eq_none hUsed]
  | close u =>
    obtain ⟨hInv, hSame⟩ := h.close u
    exact ⟨⟨hInv.paired, fun w hw hOut =>
      congrArg Sock.core (hSame w hw (hOut u rfl).1 (hOut u rfl).2), nofun⟩, hInv⟩
  | read u len => exact h.keeps_lookup (quiet_nodeRead t u len) rfl rfl
  | write u bytes => exact h.keeps_lookup (quiet_nodeWrite t u bytes) rfl rfl
  | sendmsg u bytes handles => exact h.keeps_lookup (quiet_sendmsg t u bytes handles) rfl rfl
  | recvmsg u len room peek dontwait =>
    exact h.keeps_lookup (quiet_recvmsg t u len room peek dontwait) rfl rfl
  | recvMore u len peek nonblock =>
    exact h.keeps_own (quiet_recvData t u len peek nonblock) rfl nofun
      fun w hw => sock_recvData_of_ne hw len peek nonblock
  | sendMore u d sent bytes =>
    refine h.keeps_quiet (quiet_sendMore t u d sent bytes) rfl nofun fun hUsed w hw hPeer => ?_
    show (t.sendMore u d sent bytes).2.sock w = t.sock w
    unfold sendMore
    split
    · rfl
    · rename_i hGoes
      obtain ⟨hSame, hOpen⟩ := not_or.mp hGoes
      rw [not_not, hPeer] at hSame
      obtain rfl := some.inj hSame
      -- There is no room for the bytes, so nothing is put into the ring.
      have hNone := hSound hUsed hPeer hw (by simpa using hOpen)
      have hDeposit : (t.deposit w bytes).sock w = t.sock w := by
        unfold deposit
        rw [sock_modify_self, hNone]
        rfl
      unfold fill
      dsimp only
      split
      · exact hDeposit
      split <;> exact hDeposit

theorem Inv.keeps_iff (op : UnixOp) : t.Keeps op ↔ t.Sound op := by
  refine ⟨fun hKeeps => ?_, fun hSound => (h.step hSound).1⟩
  cases op with
  | shutdown u how =>
    intro hHow s hs
    by_contra hSome
    obtain ⟨v, hv⟩ := ne_none_iff_exists'.mp hSome
    exact h.not_keeps_shutdown hHow hs hv hKeeps
  | sendMore u d sent bytes =>
    intro hUsed hPeer hd hOpen
    by_contra hSome
    exact h.not_keeps_sendMore hUsed hPeer hd hOpen hSome hKeeps
  | _ => trivial

end

theorem inv_boot : boot.Inv := fun _ _ hUsed => by cases hUsed

/-- Along a run every step keeps peers, strangers and the way back exactly when every step of the
run is sound. -/
theorem pairing_iff (ops : List UnixOp) : Along Keeps exec boot ops ↔ Along Sound exec boot ops :=
  along_iff (fun _ op hInv => hInv.keeps_iff op) (fun _ _ hInv hSound => (hInv.step hSound).2)
    inv_boot ops

/-- One end of a pair shuts its sending half down, the other end is closed, and its slot is given to
a new pair; then the first end is closed. -/
def shutThenReuse : List UnixOp :=
  [.socketpair true 0 false true true, .shutdown 0 1, .close 1, .socketpair true 0 false true true]

/-- The other end cannot send although only the opposite direction was shut down, and to close the
first end takes an unrelated pair apart. -/
theorem one_sided_peer : (((shutThenReuse.take 2).foldl exec boot).nodeWrite 1 [7]).1 = .err .pipe ∧
      ((shutThenReuse.foldl exec boot).sock 0).used = true ∧
      ((shutThenReuse.foldl exec boot).sock 0).peer = some 1 ∧
      ((shutThenReuse.foldl exec boot).sock 1).peer = some 2 ∧
      ((shutThenReuse.foldl exec boot).sock 2).peer = some 1 ∧
      (((shutThenReuse.foldl exec boot).exec (.close 0)).sock 1).peer = none ∧
      (((shutThenReuse.foldl exec boot).exec (.close 0)).sock 1).peerClosed = true :=
  ⟨by decide +kernel, by decide +kernel, by decide +kernel, by decide +kernel, by decide +kernel,
    by decide +kernel, by decide +kernel⟩

end Socks

end Gnos.Unix
