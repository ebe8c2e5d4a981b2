import Gnos.ProofKit.Serial
import Gnos.ProofKit.Word

/-! The TCP of `src/net/ipv4/tcp.c`.  An endpoint is the protocol control block of one connection,
and each function gives the block and the segments it sends.  Segments are taken as `tcp_input`
reads them; ports, checksums and the accept queue of a listener are left out, and `now` is
`timer_ticks()`. -/

namespace Gnos.Tcp

open ProofKit Function

def tcpMss : ℕ := 1460

/-- The rings have `2^12` bytes. -/
def ringBits : ℕ := 12
def tcpBufSize : BitVec 32 := 4096
def tcpRtoTicks : ℕ := 100
def tcpRtoMax : ℕ := 6000
def tcpMaxRetries : ℕ := 5
def tcpTimeWait : ℕ := 200
def tcpConnTicks : ℕ := 500
def ePipe : ℕ := 32
def eConnReset : ℕ := 104
def eNotConn : ℕ := 107
def eTimedOut : ℕ := 110
def eConnRefused : ℕ := 111

inductive State
  | closed
  | listen
  | synSent
  | synRcvd
  | established
  | finWait1
  | finWait2
  | closeWait
  | closing
  | lastAck
  | timeWait
  deriving DecidableEq

structure Flags where
  fin : Bool := false
  syn : Bool := false
  rst : Bool := false
  psh : Bool := false
  ack : Bool := false
  deriving DecidableEq

structure Segment where
  seq : BitVec 32
  ack : BitVec 32
  flags : Flags
  wnd : ℕ
  mss : Option ℕ
  data : List (BitVec 8)
  deriving DecidableEq

structure Snd where
  sndUna : BitVec 32 := 0
  sndNxt : BitVec 32 := 0
  sndEnd : BitVec 32 := 0
  sndWnd : ℕ := 4096
  sndMss : ℕ := tcpMss
  finQueued : Bool := false
  finSent : Bool := false
  tx : ℕ → BitVec 8 := fun _ => 0

/-- The receive side: `[rcv_read, rcv_nxt)` waits in the ring. -/
structure Rcv where
  rcvNxt : BitVec 32 := 0
  rcvRead : BitVec 32 := 0
  finSeen : Bool := false
  rxShutdown : Bool := false
  rx : ℕ → BitVec 8 := fun _ => 0

structure Pace where
  rtoAt : ℕ := 0
  retries : ℕ := 0
  cwnd : ℕ := 0
  ssthresh : ℕ := 0
  dupacks : ℕ := 0
  rtoTicks : ℕ := 0
  twAt : ℕ := 0
  connAt : ℕ := 0

structure Pcb extends Snd, Rcv, Pace where
  state : State := .closed
  error : ℕ := 0

/-- `tcp_send_rst`: the answer to a segment that matched no socket. -/
def tcpSendRst (seg : Segment) : List Segment :=
  if seg.flags.rst then []
  else if seg.flags.ack then [⟨seg.ack, 0, { rst := true }, 4096, none, []⟩]
  else
    let rcvNxt := seg.seq + BitVec.ofNat 32 seg.data.length + (if seg.flags.syn then 1 else 0) +
      if seg.flags.fin then 1 else 0
    [⟨0, rcvNxt, { rst := true, ack := true }, (tcpBufSize - rcvNxt).toNat % 2 ^ 16, none, []⟩]

variable (p : Pcb) (now : ℕ) (seg : Segment)

namespace Pcb

def active : Bool := p.state = .established || p.state = .closeWait

def emit (seq : BitVec 32) (flags : Flags) (data : List (BitVec 8)) : Segment where
  seq := seq
  ack := if flags.ack then p.rcvNxt else 0
  flags := flags
  wnd := (tcpBufSize - (p.rcvNxt - p.rcvRead)).toNat % 2 ^ 16
  mss := if flags.syn then some tcpMss else none
  data := data

def sendAck : Segment := p.emit p.sndNxt { ack := true } []

def mss : ℕ := if p.sndMss ≠ 0 then p.sndMss else tcpMss

def cwndInit : Pcb :=
  { p with cwnd := p.mss, ssthresh := 0xFFFF, dupacks := 0, rtoTicks := tcpRtoTicks }

def rtoArm : Pcb := { p with rtoAt := add64 now p.rtoTicks }

def sendable : ℕ :=
  let inFlight := (p.sndNxt - p.sndUna).toNat
  let sendWnd := if p.sndWnd < p.cwnd then p.sndWnd else p.cwnd
  let wndLeft := if inFlight < sendWnd then sendWnd - inFlight else 0
  let unsent := (p.sndEnd - p.sndNxt).toNat
  min (min unsent wndLeft) p.sndMss

/-- The first half of `tcp_output`: one segment of data. -/
def sendData : Pcb × List Segment :=
  let n := p.sendable
  if n ≠ 0 then
    (rtoArm { p with sndNxt := p.sndNxt + BitVec.ofNat 32 n } now,
      [p.emit p.sndNxt { ack := true, psh := true } (ringRead ringBits p.tx p.sndNxt n)])
  else (p, [])

/-- The second half of `tcp_output`: the FIN, if it is queued and all data has gone. -/
def sendFin : Pcb × List Segment :=
  if p.finQueued && !p.finSent && p.sndNxt = p.sndEnd then
    (rtoArm
        { p with
          finSent := true
          sndNxt := p.sndNxt + 1
          state := if p.state = .established then .finWait1
            else if p.state = .closeWait then .lastAck else p.state } now,
      [p.emit p.sndNxt { ack := true, fin := true } []])
  else (p, [])

def tcpOutput : Pcb × List Segment :=
  if p.active then
    let (p, out) := p.sendData now
    let (p, out') := p.sendFin now
    (p, out ++ out')
  else (p, [])

def txSpace : ℕ := (tcpBufSize - (p.sndEnd - p.sndUna)).toNat

def queue (bytes : List (BitVec 8)) : Pcb :=
  { p with
    tx := ringWrite ringBits p.tx p.sndEnd bytes
    sndEnd := p.sndEnd + BitVec.ofNat 32 bytes.length }

def tcpWrite (buf : List (BitVec 8)) (now : ℕ) : ℤ × Pcb × List Segment :=
  if !p.active then (-(if p.error ≠ 0 then p.error else eNotConn : ℕ), p, [])
  else if p.finQueued then (-(ePipe : ℤ), p, [])
  else
    let n := min buf.length p.txSpace
    if n = 0 then (0, p, []) else (n, (p.queue (buf.take n)).tcpOutput now)

def tcpCloseWrite : ℤ × Pcb × List Segment :=
  if !p.active then (-(eNotConn : ℤ), p, []) else (0, tcpOutput { p with finQueued := true } now)

def giveUp (error : ℕ) : Pcb := { p with error := error, state := .closed, rtoAt := 0 }

/-- The segment that `tcp_retransmit` sends. -/
def retransmission : Segment :=
  if p.state = .synSent then p.emit p.sndUna { syn := true } []
  else if p.state = .synRcvd then p.emit p.sndUna { syn := true, ack := true } []
  else
    let held := (p.sndEnd - p.sndUna).toNat
    let n := min held p.sndMss
    let withFin := p.finSent && p.sndUna + BitVec.ofNat 32 n = p.sndEnd
    p.emit p.sndUna { ack := true, psh := n ≠ 0, fin := withFin }
      (ringRead ringBits p.tx p.sndUna n)

def slowDown : Pcb :=
  { p with
    rtoTicks := if mul32 p.rtoTicks 2 < tcpRtoMax then mul32 p.rtoTicks 2 else tcpRtoMax
    ssthresh := if p.cwnd / 2 < 2 * tcpMss then 2 * tcpMss else p.cwnd / 2
    cwnd := p.mss }

def tcpRetransmit : Pcb × List Segment :=
  let p := { p with retries := p.retries + 1 }
  if tcpMaxRetries < p.retries then (p.giveUp eTimedOut, [])
  else (p.slowDown.rtoArm now, [p.retransmission])

def mssFromOptions : Pcb :=
  match seg.mss with
  | some mss => { p with sndMss := if mss < tcpMss then mss else tcpMss }
  | none => p

/-- `syn_arrived`: the block of the connection that a listener makes. -/
def synArrived (iss : BitVec 32) (now : ℕ) : Pcb × List Segment :=
  let c : Pcb :=
    { rcvNxt := seg.seq + 1, rcvRead := seg.seq + 1, sndUna := iss, sndNxt := iss, sndEnd := iss,
      sndWnd := seg.wnd, state := .synRcvd }
  let c := c.mssFromOptions seg
  (rtoArm { c with sndNxt := c.sndNxt + 1 } now, [c.emit c.sndUna { syn := true, ack := true } []])

def synAckArrived : Pcb × List Segment :=
  if seg.flags.syn && seg.flags.ack && seg.ack = p.sndNxt then
    let p :=
      { p with
        rcvNxt := seg.seq + 1, rcvRead := seg.seq + 1, sndUna := seg.ack, sndWnd := seg.wnd
        rtoAt := 0, connAt := 0, state := .established }
    let p := (p.mssFromOptions seg).cwndInit
    (p, [p.sendAck])
  else (p, [])

/-- Data is acknowledged up to `sack`: below the threshold the window grows by a segment, above it
by a segment in a round trip. -/
def creditAck (sack : BitVec 32) : Pcb :=
  { p with
    sndUna := sack, retries := 0, dupacks := 0, rtoTicks := tcpRtoTicks
    cwnd := if p.cwnd < p.ssthresh then add32 p.cwnd p.mss
      else add32 p.cwnd (mul32 p.mss p.mss / p.cwnd) }

def disarm : Pcb := { p with rtoAt := 0 }

def ackProgress (sack : BitVec 32) (now : ℕ) : Pcb × List Segment :=
  let p := p.creditAck sack
  let p := if p.sndUna = p.sndNxt then p.disarm else p.rtoArm now
  p.tcpOutput now

def halve : Pcb :=
  let ssthresh := if p.cwnd / 2 < 2 * tcpMss then 2 * tcpMss else p.cwnd / 2
  { p with ssthresh := ssthresh, cwnd := add32 ssthresh (3 * p.mss), retries := 0 }

def dupAck : Pcb × List Segment :=
  let p := { p with dupacks := add32 p.dupacks 1 }
  if p.dupacks = 3 then p.halve.tcpRetransmit now else (p, [])

/-- An acknowledgement, in the states after `SYN_SENT`. -/
def ackArrived (sack : BitVec 32) (now : ℕ) : Pcb × List Segment :=
  if p.state = .synRcvd then
    (cwndInit { p with sndUna := sack, rtoAt := 0, state := .established }, [])
  else if seqLt p.sndUna sack && seqLeq sack p.sndNxt then p.ackProgress sack now
  else if seqLt p.sndUna p.sndNxt then p.dupAck now
  else (p, [])

def finAcked : Pcb :=
  if p.finSent && p.sndUna = p.sndNxt then
    if p.state = .finWait1 then { p with state := .finWait2 }
    else if p.state = .closing then { p with state := .timeWait, twAt := add64 now tcpTimeWait }
    else if p.state = .lastAck then { p with state := .closed }
    else p
  else p

def ackStage (now : ℕ) : Pcb × List Segment :=
  if seg.flags.ack then
    let (p, out) := p.ackArrived seg.ack now
    (p.finAcked now, out)
  else (p, [])

def rxSpace : ℕ := (tcpBufSize - (p.rcvNxt - p.rcvRead)).toNat

def takeData (data : List (BitVec 8)) : Pcb :=
  if data ≠ [] then
    let n := min data.length p.rxSpace
    { p with
      rx := if p.rxShutdown then p.rx else ringWrite ringBits p.rx p.rcvNxt (data.take n)
      rcvNxt := p.rcvNxt + BitVec.ofNat 32 (if p.rxShutdown then data.length else n) }
  else p

def takeFin : Pcb :=
  let p := { p with rcvNxt := p.rcvNxt + 1, finSeen := true }
  if p.state = .established then { p with state := .closeWait }
  else if p.state = .finWait1 then
    if p.finSent && p.sndUna = p.sndNxt then
      { p with state := .timeWait, twAt := add64 now tcpTimeWait }
    else { p with state := .closing }
  else if p.state = .finWait2 then { p with state := .timeWait, twAt := add64 now tcpTimeWait }
  else p

def textArrived (now : ℕ) : Pcb × List Segment :=
  let consumes := seg.data.length + if seg.flags.fin then 1 else 0
  if seg.seq ≠ p.rcvNxt then
    (p, if consumes ≠ 0 || seqLeq (seg.seq + BitVec.ofNat 32 consumes) p.rcvNxt then [p.sendAck]
    else [])
  else
    let p := p.takeData seg.data
    let p := if seg.flags.fin then p.takeFin now else p
    (p, if seg.data ≠ [] || seg.flags.fin then [p.sendAck] else [])

/-- `tcp_input`; `iss` is the number that `next_iss` gives. -/
def tcpInput (iss : BitVec 32) (now : ℕ) : Pcb × List Segment :=
  if p.state = .closed then (p, tcpSendRst seg)
  else if p.state = .listen then
    if seg.flags.rst then (p, [])
    else if seg.flags.ack then (p, tcpSendRst seg)
    else if seg.flags.syn then synArrived seg iss now
    else (p, [])
  else if seg.flags.rst then
    (p.giveUp (if p.state = .synSent then eConnRefused else eConnReset), [])
  else if p.state = .synSent then p.synAckArrived seg
  else if seg.flags.ack && p.state = .synRcvd && seg.ack ≠ p.sndNxt then (p, tcpSendRst seg)
  else
    let (p, out) := p.ackStage seg now
    if p.state = .closed then (p, out)
    else
      let (p, out') := p.textArrived seg now
      (p, out ++ out')

def tcpTick : Pcb × List Segment :=
  let (p, out) := if p.rtoAt ≠ 0 && p.rtoAt ≤ now then p.tcpRetransmit now else (p, [])
  let p := if p.connAt ≠ 0 && p.connAt ≤ now then { p.giveUp eTimedOut with connAt := 0 } else p
  let p := if p.twAt ≠ 0 && p.twAt ≤ now then { p with state := .closed, twAt := 0 } else p
  (p, out)

def tcpConnect (iss : BitVec 32) (now : ℕ) : Pcb × List Segment :=
  let p : Pcb := { sndUna := iss, sndNxt := iss, sndEnd := iss, state := .synSent }
  ({ rtoArm { p with sndNxt := p.sndNxt + 1 } now with connAt := add64 now tcpConnTicks },
    [p.emit p.sndUna { syn := true } []])

def tcpRead (len : ℕ) : List (BitVec 8) :=
  ringRead ringBits p.rx p.rcvRead (min len (p.rcvNxt - p.rcvRead).toNat)

/-- `tcp_read` without `peek` takes the bytes out of the ring. -/
def consume (len : ℕ) : Pcb :=
  { p with rcvRead := p.rcvRead + BitVec.ofNat 32 (min len (p.rcvNxt - p.rcvRead).toNat) }

def takesFin (len : ℕ) : Bool :=
  p.finSeen && p.rcvRead ≠ p.rcvNxt && (p.rcvNxt - p.rcvRead).toNat ≤ len

def tcpEof : Bool := p.finSeen && p.rcvRead = p.rcvNxt

end Pcb

inductive Side
  | a
  | b
  deriving DecidableEq

def Side.other : Side → Side
  | .a => .b
  | .b => .a

@[simp] theorem Side.other_other (x : Side) : x.other.other = x := by cases x <;> rfl

theorem Side.other_ne (x : Side) : x.other ≠ x := by cases x <;> decide

/-- Two endpoints and the segments that they have sent: the network may lose a segment, or bring it
any number of times and at any time. -/
structure Wire where
  pcb : Side → Pcb
  sent : Side → List Segment
  /-- The bytes that `tcp_write` has accepted. -/
  accepted : Side → List (BitVec 8)
  /-- The bytes that `tcp_read` has returned. -/
  got : Side → List (BitVec 8)

inductive TcpOp
  | write (x : Side) (buf : List (BitVec 8)) (now : ℕ)
  | closeWrite (x : Side) (now : ℕ)
  | read (x : Side) (len : ℕ)
  | deliver (x : Side) (seg : Segment) (iss : BitVec 32) (now : ℕ)
  | tick (x : Side) (now : ℕ)

variable (s : Wire)

namespace Wire

/-- The block of `x` changes, and `x` sends. -/
def put (x : Side) (r : Pcb × List Segment) : Wire :=
  { s with
    pcb := update s.pcb x r.1
    sent := update s.sent x (s.sent x ++ r.2) }

def accept (x : Side) (bytes : List (BitVec 8)) : Wire :=
  { s with accepted := update s.accepted x (s.accepted x ++ bytes) }

def hand (x : Side) (bytes : List (BitVec 8)) : Wire :=
  { s with got := update s.got x (s.got x ++ bytes) }

def exec : TcpOp → Wire
  | .write x buf now =>
    let (n, r) := (s.pcb x).tcpWrite buf now
    (s.accept x (buf.take n.toNat)).put x r
  | .closeWrite x now => s.put x ((s.pcb x).tcpCloseWrite now).2
  | .read x len => (s.hand x ((s.pcb x).tcpRead len)).put x ((s.pcb x).consume len, [])
  | .deliver x seg iss now => s.put x ((s.pcb x).tcpInput seg iss now)
  | .tick x now => s.put x ((s.pcb x).tcpTick now)

def Enabled : TcpOp → Prop
  | .deliver x seg _ _ => seg ∈ s.sent x.other
  | _ => True

instance (s : Wire) (op : TcpOp) : Decidable (s.Enabled op) := by
  rcases op <;> unfold Enabled <;> infer_instance

end Wire

end Gnos.Tcp
